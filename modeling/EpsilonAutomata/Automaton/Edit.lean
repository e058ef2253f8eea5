import EpsilonAutomata.Automaton.Check
import EpsilonAutomata.Text.Numeral

/-!
Adding states and transitions one at a time, and the numbers still free for generated state names.
-/
namespace EpsilonAutomata

def stateName (n : Nat) : String := "q" ++ toString n

/-- The number in a name of the form `q` and a numeral of 32 bits. -/
def stateNumber? (name : String) : Option Nat :=
  match name.toList with
  | 'q' :: numeral => Numeral.read? Numeral.word32 numeral
  | _ => none

namespace Automaton

def nextSuffix (a : Automaton) : Except Defect Nat :=
  match (a.states.toList.filterMap stateNumber?).max? with
  | none => .ok 0
  | some largest => if largest < Numeral.word32 then .ok (largest + 1) else .error (.suffixesExhausted largest)

def addState (a : Automaton) (state : String) (accepting : Bool) : Except Defect Automaton :=
  if state ∈ a.states then .error (.stateInUse state)
  else .ok { a with
    states := a.states.insert state
    delta := a.delta.insert state ∅
    accepting := if accepting then a.accepting.insert state else a.accepting }

structure UnknownState where
  name : String
deriving DecidableEq

def insertTransition (a : Automaton) (source : String) (x : Symbol) (destination : String) : Automaton :=
  let addDestination (old : Option (OrderedSet String)) := (old.getD ∅).insert destination
  let addToRow (old : Option Row) := (old.getD ∅).alter x addDestination
  { a with alphabet := a.alphabet.insert x, delta := a.delta.alter source addToRow }

/-- The automaton with the transition, and whether it is a new one. A symbol that is not in the alphabet,
epsilon too, joins it. The destination is looked at before the source. -/
def addTransition (a : Automaton) (source destination : String) (x : Symbol) :
    Except UnknownState (Automaton × Bool) :=
  if destination ∉ a.states then .error ⟨destination⟩
  else if source ∉ a.delta.keys then .error ⟨source⟩
  else .ok (a.insertTransition source x destination, decide ¬ a.HasTransition source x destination)

end Automaton
end EpsilonAutomata
