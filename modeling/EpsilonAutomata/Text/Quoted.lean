import EpsilonAutomata.Text.Faint

/-!
Texts between quotation marks, for messages. What a reader could not tell from the page is written by
escapes, the rest as it is.
-/
namespace EpsilonAutomata.Text

def escapeByNumber (c : Char) : List Char :=
  ['\\', 'u', '\x7b'] ++ Nat.toDigits 16 c.toNat ++ ['\x7d']

def escapeQuoted (c : Char) : List Char :=
  if c = '"' then ['\\', '"']
  else if c = '\\' then ['\\', '\\']
  else if c = '\n' then ['\\', 'n']
  else if c = '\r' then ['\\', 'r']
  else if c = '\t' then ['\\', 't']
  else if c = '\x00' then ['\\', '0']
  else if isFaint c then escapeByNumber c
  else [c]

def quote (text : String) : String :=
  String.ofList (['"'] ++ text.toList.flatMap escapeQuoted ++ ['"'])

def quoteList (texts : List String) : String := "[" ++ ", ".intercalate (texts.map quote) ++ "]"

def quoteSet (texts : List String) : String := "\x7b" ++ ", ".intercalate (texts.map quote) ++ "\x7d"

end EpsilonAutomata.Text
