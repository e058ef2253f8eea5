import EpsilonAutomata.Automaton.Closure
import EpsilonAutomata.Automaton.Edit
import EpsilonAutomata.Deterministic.Table

/-!
The deterministic automaton whose states stand for the sets of states that an automaton can be in. The
empty set is left out: where it would be reached there is no transition.
-/
namespace EpsilonAutomata
namespace Automaton

def subsetMachine (a : Automaton) : Machine NameSet a.letters.length where
  start := a.start
  step s j :=
    let reached := a.move s (a.letters.get j)
    if reached.isEmpty then none else some reached
  accepting := a.acceptsIn

theorem mem_closure (a : Automaton) (seed : NameSet) (x : String) (h : x ∈ a.closure seed) :
    x ∈ seed ∨ x ∈ a.namedDestinations := by
  rw [closure, NameSet.mem_ofList] at h
  have h := Search.reachable_of_mem_search _ _ _ x h
  cases h with
  | start h => exact .inl h
  | step _ h => exact .inr (a.mem_namedDestinations _ _ _ h)

theorem mem_move (a : Automaton) (s : NameSet) (x : Symbol) (r : String) (h : r ∈ a.move s x) :
    r ∈ a.namedDestinations := by
  rcases a.mem_closure _ r h with h | h
  · rw [NameSet.mem_ofList] at h
    obtain ⟨p, _, hr⟩ := List.mem_flatMap.1 h
    exact a.mem_namedDestinations p x r hr
  · exact h

theorem bounded_subsetMachine (a : Automaton) : a.subsetMachine.Bounded := by
  obtain ⟨bound, hbound⟩ := NameSet.exists_subsets (a.initial :: a.namedDestinations)
  refine ⟨bound, fun s hs => hbound s fun x hx => ?_⟩
  cases hs with
  | start h =>
    obtain rfl := List.mem_singleton.1 h
    rcases a.mem_closure _ x hx with h | h
    · rw [NameSet.mem_ofList, List.mem_singleton] at h
      exact h ▸ List.mem_cons_self
    · exact List.mem_cons_of_mem _ h
  | step _ h =>
    obtain ⟨j, _, hj⟩ := List.mem_filterMap.1 h
    simp only [subsetMachine] at hj
    split at hj
    · cases hj
    · obtain rfl := Option.some.inj hj
      exact List.mem_cons_of_mem _ (a.mem_move _ _ x hx)

/-- The sets of states that words lead to, in breadth-first order. -/
def subsets (a : Automaton) : List NameSet := a.subsetMachine.states a.bounded_subsetMachine

def subsetTable (a : Automaton) : Table a.subsets.length a.letters.length :=
  a.subsetMachine.tabulate a.bounded_subsetMachine

end Automaton

namespace Table
variable {n : Nat}

def entry (x : Symbol) (target : Option (Fin n)) : Option (Symbol × OrderedSet String) :=
  target.map fun d : Fin n => (x, .ofList [stateName d])

def rowEntries (letters : List Symbol) (t : Table n letters.length) (i : Fin n) :
    List (Symbol × OrderedSet String) :=
  (letters.zipWith entry (t.next.get i).toList).filterMap id

def toAutomaton (letters : List Symbol) (t : Table n letters.length) : Except Defect Automaton :=
  let name (i : Fin n) := stateName i
  let numbers := List.finRange n
  Automaton.ofParts (.ofList (numbers.map name)) (.ofList letters)
    (.ofList (numbers.map fun i => (name i, .ofList (t.rowEntries letters i)))) (name t.start)
    (.ofList ((numbers.filter fun i => t.accepting.get i).map name))

end Table

def Automaton.determinise (a : Automaton) : Except Defect Automaton :=
  a.subsetTable.toAutomaton a.letters

end EpsilonAutomata
