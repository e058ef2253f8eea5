import EpsilonAutomata.OrderedMap
import EpsilonAutomata.Symbol

/-!
The written form of an automaton, before it is known to be consistent: states may be listed twice or not
at all, and a transition may lead nowhere. A single destination may be written by itself or as a list of
one.
-/
namespace EpsilonAutomata

inductive Targets where
  | one (state : String)
  | many (states : List String)
deriving DecidableEq

def Targets.toList : Targets → List String
  | one state => [state]
  | many states => states

instance : HasEquiv Targets := ⟨(· = ·)⟩

instance (s t : Targets) : Decidable (s ≈ t) := inferInstanceAs (Decidable (s = t))

structure Spec where
  states : List String
  alphabet : List Symbol
  delta : OrderedMap String (OrderedMap Symbol Targets)
  initial : String
  accepting : List String
deriving DecidableEq

namespace Spec

/-- The lists are compared in order, the transitions key by key. -/
instance : HasEquiv Spec :=
  ⟨fun s t => s.states = t.states ∧ s.alphabet = t.alphabet ∧ s.delta ≈ t.delta ∧
    s.initial = t.initial ∧ s.accepting = t.accepting⟩

instance (s t : Spec) : Decidable (s ≈ t) :=
  inferInstanceAs (Decidable (s.states = t.states ∧ s.alphabet = t.alphabet ∧ s.delta ≈ t.delta ∧
    s.initial = t.initial ∧ s.accepting = t.accepting))

structure Entry where
  source : String
  symbol : Symbol
  targets : Targets
deriving DecidableEq

def entries (s : Spec) : List Entry :=
  s.delta.entries.flatMap fun (source, row) => row.entries.map fun (x, targets) => ⟨source, x, targets⟩

end Spec
end EpsilonAutomata
