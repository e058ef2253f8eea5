import EpsilonAutomata.Automaton

/-!
What an automaton must satisfy to make sense, and the first thing it violates. `ofParts` is the only
way to put an automaton together from unchecked parts.
-/
namespace EpsilonAutomata

inductive Defect where
  | undeclaredInitial (state : String)
  | undeclaredAccepting (state : String)
  | undeclaredSource (state : String)
  | undeclaredDestination (transition : Automaton.Transition)
  | foreignSymbol (transition : Automaton.Transition)
  | noDestination (source : String) (symbol : Symbol)
  | stateInUse (state : String)
  | stateShown (state : String)
  | suffixesExhausted (largest : Nat)
deriving DecidableEq

namespace Automaton

def undeclaredTarget? (a : Automaton) (t : Transition) : Option Defect :=
  if t.destination ∉ a.states then some (.undeclaredDestination t)
  else if t.symbol ≠ .epsilon ∧ t.symbol ∉ a.alphabet then some (.foreignSymbol t)
  else none

def emptyEntries (a : Automaton) : List (String × Symbol) :=
  a.delta.entries.flatMap fun (source, row) =>
    (row.entries.filter fun (_, destinations) => destinations.toList.isEmpty).map fun (x, _) => (source, x)

/-- The first inconsistency: initial state, accepting states, sources, transitions, empty entries. -/
def defect? (a : Automaton) : Option Defect :=
  if a.initial ∉ a.states then some (.undeclaredInitial a.initial)
  else match a.accepting.toList.find? (· ∉ a.states) with
  | some state => some (.undeclaredAccepting state)
  | none => match a.delta.keys.find? (· ∉ a.states) with
    | some state => some (.undeclaredSource state)
    | none => match a.transitions.findSome? a.undeclaredTarget? with
      | some defect => some defect
      | none => match a.emptyEntries with
        | (source, x) :: _ => some (.noDestination source x)
        | [] => none

structure Consistent (a : Automaton) : Prop where
  initial_mem : a.initial ∈ a.states
  accepting_mem : ∀ s ∈ a.accepting, s ∈ a.states
  source_mem : ∀ s ∈ a.delta.keys, s ∈ a.states
  destination_mem : ∀ p x r, a.HasTransition p x r → r ∈ a.states
  symbol_mem : ∀ p x r, a.HasTransition p x r → x = .epsilon ∨ x ∈ a.alphabet
  destinations_ne_empty : ∀ p x s, a.destinations? p x = some s → s ≠ ∅

structure WellFormed (a : Automaton) : Prop extends a.Consistent where
  entry_of_mem : ∀ s ∈ a.states, s ∈ a.delta.keys

def completeRows (states : OrderedSet String) (delta : OrderedMap String Row) : OrderedMap String Row :=
  states.toList.foldl (fun m s => m.alter s fun row => row.getD ∅) delta

def ofParts (states : OrderedSet String) (alphabet : OrderedSet Symbol) (delta : OrderedMap String Row)
    (initial : String) (accepting : OrderedSet String) : Except Defect Automaton :=
  let a : Automaton := ⟨states, alphabet, completeRows states delta, initial, accepting⟩
  match a.defect? with
  | some defect => .error defect
  | none => .ok a

end Automaton
end EpsilonAutomata
