import EpsilonAutomata.Json.Text

/-!
Written JSON: each element on a line of its own, two spaces further in than the brackets around it, which
stand side by side when there is nothing between them.
-/
namespace EpsilonAutomata.Json

def newline (depth : Nat) : Text := '\n' :: List.replicate (2 * depth) ' '

/-- Elements separated by commas between two brackets that stand at `depth`. -/
def block (first last : Char) (depth : Nat) (items : List Text) : Text :=
  match items with
  | [] => [first, last]
  | items =>
    [first] ++ [','].intercalate (items.map fun item => newline (depth + 1) ++ item) ++
      newline depth ++ [last]

def writeList (depth : Nat) (items : List Text) : Text := block '[' ']' depth items

def writeMember (key : String) (value : Text) : Text := writeText key ++ [':', ' '] ++ value

def writeObject (depth : Nat) (fields : List (String × Text)) : Text :=
  block '\x7b' '\x7d' depth (fields.map fun (key, value) => writeMember key value)

end EpsilonAutomata.Json
