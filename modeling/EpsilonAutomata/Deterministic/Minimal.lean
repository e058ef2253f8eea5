import EpsilonAutomata.Deterministic.Subsets

/-!
The smallest deterministic automaton of a language. States from which nothing is accepted lose the
transitions into them, states that no word tells apart are merged, and what the start still reaches is
numbered anew.
-/
namespace EpsilonAutomata

namespace Table
variable {n k : Nat}

def predecessors (t : Table n k) (i : Fin n) : List (Fin n) :=
  (List.finRange n).filter fun p => (t.next.get p).contains (some i)

theorem bounded_of_finRange (next : Fin n → List (Fin n)) (starts : List (Fin n)) :
    Search.Bounded next starts :=
  ⟨List.finRange n, fun i _ => List.mem_finRange i⟩

def live (t : Table n k) : Vector Bool n :=
  let found := Search.search t.predecessors ((List.finRange n).filter fun i => t.accepting.get i)
    (bounded_of_finRange _ _)
  Vector.ofFn fun i => found.contains i

def trim (t : Table n k) : Table n k :=
  let live := t.live
  { t with next := t.next.map fun row => row.map fun target => target.filter fun d => live.get d }

def distinct {α : Type} [BEq α] (values : Vector α n) : List α := values.toList.eraseDups

/-- Numbers the values from 0 in the order of their first occurrence. -/
def number {α : Type} [BEq α] (values : Vector α n) : Vector Nat n :=
  let order := distinct values
  values.map fun v => order.idxOf v

def signatures (t : Table n k) (classes : Vector Nat n) : Vector (Nat × List (Option Nat)) n :=
  Vector.ofFn fun i => (classes.get i, (t.next.get i).toList.map fun target => target.map fun d => classes.get d)

theorem length_eraseDups_le {α : Type} [BEq α] (l : List α) :
    l.eraseDups.length ≤ l.length := by
  match l with
  | [] => simp
  | x :: rest =>
    have := rest.length_filter_le fun y => !y == x
    have := length_eraseDups_le (rest.filter fun y => !y == x)
    rw [List.eraseDups_cons, List.length_cons, List.length_cons]
    omega
termination_by l.length
decreasing_by simp only [List.length_cons]; omega

/-- Splits the classes by signature until no class is split any more. -/
def refineFrom (t : Table n k) (classes : Vector Nat n) : Vector Nat n :=
  let finer := number (t.signatures classes)
  if (distinct classes).length < (distinct finer).length then t.refineFrom finer else finer
termination_by n - (distinct classes).length
decreasing_by
  have bound : (distinct finer).length ≤ n := by
    simpa [distinct] using length_eraseDups_le finer.toList
  exact Nat.sub_lt_sub_left (Nat.lt_of_lt_of_le ‹_› bound) ‹_›

def refine (t : Table n k) : Vector Nat n := t.refineFrom (number t.accepting)

def representatives (classes : Vector Nat n) : Vector (Fin n) n :=
  Vector.ofFn fun i => ((List.finRange n).find? fun j => classes.get j == classes.get i).getD i

/-- The machine on the classes of `refine`, each stood for by its first state. -/
def quotient (t : Table n k) : Machine (Fin n) k :=
  let representative := representatives t.refine
  { start := representative.get t.start
    step := fun i j => ((t.next.get i).get j).map fun d => representative.get d
    accepting := fun i => t.accepting.get i }

def kept (t : Table n k) : List (Fin n) := t.quotient.states (bounded_of_finRange _ _)

def merge (t : Table n k) : Table t.kept.length k := t.quotient.tabulate (bounded_of_finRange _ _)

end Table

def Automaton.minimise (a : Automaton) : Except Defect Automaton :=
  a.subsetTable.trim.merge.toAutomaton a.letters

end EpsilonAutomata
