import EpsilonAutomata.Automaton.Check
import EpsilonAutomata.Spec.Analysis
import EpsilonAutomata.Spec.Printer
import EpsilonAutomata.Spec.Reader

/-!
From specifications to automata and back. Symbols that a transition uses and the alphabet lacks are not a
fault: they join the alphabet, epsilon apart.
-/
namespace EpsilonAutomata

inductive SpecFault where
  | tooLarge (bytes : Nat)
  | json (fault : Json.Fault)
  | finding (finding : Finding)
  | defect (defect : Defect)
deriving DecidableEq

namespace Spec

def sizeLimit : Nat := 65536

def read (text : String) : Except SpecFault Spec :=
  if sizeLimit < text.utf8ByteSize then .error (.tooLarge text.utf8ByteSize)
  else (ofJson text.toList).mapError .json

/-- The symbols that transitions use and the alphabet lacks, epsilon apart, in order of first use. -/
def undeclaredSymbols (s : Spec) : List Symbol :=
  let used := s.delta.values.flatMap OrderedMap.keys
  (OrderedSet.ofList (used.filter fun x => !x.isEpsilon && !s.alphabet.contains x)).toList

def toAutomaton (s : Spec) : Except SpecFault Automaton :=
  match s.finding? with
  | some finding => .error (.finding finding)
  | none =>
    let delta := s.delta.map fun row => row.map fun targets => OrderedSet.ofList targets.toList
    (Automaton.ofParts (.ofList s.states) ((OrderedSet.ofList s.alphabet).insertAll s.undeclaredSymbols)
      delta s.initial (.ofList s.accepting)).mapError .defect

end Spec

def Targets.ofSet (s : OrderedSet String) : Targets :=
  match s.toList with
  | [state] => one state
  | states => many states

namespace Automaton

/-- The specification with a row for each state, in the order of the states. -/
def toSpec (a : Automaton) : Spec where
  states := a.states.toList
  alphabet := a.alphabet.toList
  delta := .ofList (a.states.toList.map fun s => (s, ((a.delta.find? s).getD ∅).map Targets.ofSet))
  initial := a.initial
  accepting := a.accepting.toList

def read (text : String) : Except SpecFault Automaton :=
  match Spec.read text with
  | .error fault => .error fault
  | .ok s => s.toAutomaton

end Automaton
end EpsilonAutomata
