import EpsilonAutomata.Json.Layout
import EpsilonAutomata.Spec

/-!
Writing a specification as JSON.
-/
namespace EpsilonAutomata

open Json

def Targets.write (depth : Nat) : Targets → Text
  | one state => writeText state
  | many states => writeList depth (states.map writeText)

namespace Spec

def writeRow (depth : Nat) (row : OrderedMap Symbol Targets) : Text :=
  writeObject depth (row.entries.map fun (x, targets) => (x.key, targets.write (depth + 1)))

def writeDelta (depth : Nat) (delta : OrderedMap String (OrderedMap Symbol Targets)) : Text :=
  writeObject depth (delta.entries.map fun (source, row) => (source, writeRow (depth + 1) row))

def write (s : Spec) : Text :=
  writeObject 0 [
    ("q", writeList 1 (s.states.map writeText)),
    ("sigma", writeList 1 (s.alphabet.map fun x => writeText x.key)),
    ("delta", writeDelta 1 s.delta),
    ("initial_state", writeText s.initial),
    ("f", writeList 1 (s.accepting.map writeText))]

def toJson (s : Spec) : String := String.ofList s.write

end Spec
end EpsilonAutomata
