import EpsilonAutomata.OrderedMap
import EpsilonAutomata.OrderedSet
import EpsilonAutomata.Symbol

/-!
Finite automata with epsilon transitions. The transition function is kept by source and then by symbol,
each pair with the set of its destinations, all in the order in which they were written down. `≈` is
equality up to that order.
-/
namespace EpsilonAutomata

abbrev Row := OrderedMap Symbol (OrderedSet String)

structure Automaton where
  states : OrderedSet String
  alphabet : OrderedSet Symbol
  delta : OrderedMap String Row
  initial : String
  accepting : OrderedSet String
deriving DecidableEq

namespace Automaton

def new : Automaton where
  states := .ofList ["q0"]
  alphabet := .ofList [.ofKey "0", .ofKey "1", .epsilon]
  delta := .ofList [("q0", ∅)]
  initial := "q0"
  accepting := ∅

def isAccepting (a : Automaton) (state : String) : Bool := decide (state ∈ a.accepting)

def destinations? (a : Automaton) (source : String) (x : Symbol) : Option (OrderedSet String) :=
  (a.delta.find? source).bind (·.find? x)

def destinations (a : Automaton) (source : String) (x : Symbol) : List String :=
  match a.destinations? source x with
  | some s => s.toList
  | none => []

def HasTransition (a : Automaton) (p : String) (x : Symbol) (r : String) : Prop :=
  r ∈ a.destinations p x

instance (a : Automaton) (p : String) (x : Symbol) (r : String) : Decidable (a.HasTransition p x r) :=
  inferInstanceAs (Decidable (r ∈ a.destinations p x))

structure Transition where
  source : String
  symbol : Symbol
  destination : String
deriving DecidableEq

def transitions (a : Automaton) : List Transition :=
  a.delta.entries.flatMap fun (source, row) => row.entries.flatMap fun (x, destinations) =>
    destinations.toList.map fun destination => ⟨source, x, destination⟩

def transitionCount (a : Automaton) : Nat := a.transitions.length

/-- The symbols that an input can be made of: the alphabet without epsilon, in its order. -/
def letters (a : Automaton) : List Symbol := a.alphabet.toList.filter fun x => !x.isEpsilon

/-- The same states, alphabet, transitions, initial state and accepting states, in whatever order. -/
instance : HasEquiv Automaton :=
  ⟨fun a b => a.states ≈ b.states ∧ a.alphabet ≈ b.alphabet ∧ a.delta ≈ b.delta ∧
    a.initial = b.initial ∧ a.accepting ≈ b.accepting⟩

instance (a b : Automaton) : Decidable (a ≈ b) :=
  inferInstanceAs (Decidable (a.states ≈ b.states ∧ a.alphabet ≈ b.alphabet ∧ a.delta ≈ b.delta ∧
    a.initial = b.initial ∧ a.accepting ≈ b.accepting))

end Automaton
end EpsilonAutomata
