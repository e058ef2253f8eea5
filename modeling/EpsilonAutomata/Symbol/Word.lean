import EpsilonAutomata.Symbol

/-!
Words read off a text, a symbol for each character or a symbol for each piece between separators. Empty
pieces are left out, so no text yields epsilon as a symbol to be read.
-/
namespace EpsilonAutomata

abbrev Word := List Symbol

namespace Word

def ofText (text : String) : Word := text.toList.map Symbol.ofChar

/-- Cuts at the leftmost occurrences of the separator that do not overlap; `current` is the piece under
way, last character first. -/
def pieces (separator current : List Char) : List Char → List (List Char)
  | [] => [current.reverse]
  | c :: rest =>
    if separator.isPrefixOf (c :: rest) then
      current.reverse :: pieces separator [] (rest.drop (separator.length - 1))
    else pieces separator (c :: current) rest
termination_by text => text.length
decreasing_by
  · simp only [List.length_drop, List.length_cons]; omega
  · simp

/-- The empty separator stands between any two characters. -/
def ofSeparated (separator text : String) : Word :=
  if separator.isEmpty then ofText text
  else
    let nonempty := (pieces separator.toList [] text.toList).filter fun piece => !piece.isEmpty
    nonempty.map fun piece => Symbol.ofKey (String.ofList piece)

end Word
end EpsilonAutomata
