import EpsilonAutomata.Automaton.Edit

/-!
Transitions on the command line, written `from:to:symbol` with the numbers of two nodes. Everything behind
the second colon is the symbol, and no symbol is epsilon.
-/
namespace EpsilonAutomata.CommandLine

structure Transition where
  source : Nat
  target : Nat
  symbol : Symbol
deriving DecidableEq

inductive TransitionFault where
  | incomplete (text : String)
  | badId (text : String)
deriving DecidableEq

def TransitionFault.message : TransitionFault → String
  | incomplete text => "expected FROM:TO:SYMBOL, got '" ++ text ++ "'"
  | badId text => "invalid display id '" ++ text ++ "'"

def splitColon (text : List Char) : Option (List Char × List Char) :=
  match text.dropWhile (· ≠ ':') with
  | [] => none
  | _ :: rest => some (text.takeWhile (· ≠ ':'), rest)

def readId (text : List Char) : Except TransitionFault Nat :=
  match Numeral.read? Numeral.word32 text with
  | some n => .ok n
  | none => .error (.badId (String.ofList text))

def Transition.read (text : String) : Except TransitionFault Transition :=
  match splitColon text.toList with
  | none => .error (.incomplete text)
  | some (source, rest) =>
    match splitColon rest with
    | none => .error (.incomplete text)
    | some (target, symbol) =>
      match readId source with
      | .error fault => .error fault
      | .ok source => match readId target with
        | .error fault => .error fault
        | .ok target => .ok ⟨source, target, Symbol.ofKey (String.ofList symbol)⟩

end EpsilonAutomata.CommandLine
