import EpsilonAutomata.Search

/-!
Deterministic machines that may get stuck, first over any type of states and then as a table over the
numbers below `n`. `tabulate` numbers the states that a machine reaches in breadth-first order, letters
in their order, so the start gets number 0.
-/
namespace EpsilonAutomata

structure Machine (σ : Type) (k : Nat) where
  start : σ
  step : σ → Fin k → Option σ
  accepting : σ → Bool

/-- A machine whose states are numbers; the entry `j` of row `i` of `next` is where letter `j` leads from state `i`. -/
structure Table (n k : Nat) where
  start : Fin n
  next : Vector (Vector (Option (Fin n)) k) n
  accepting : Vector Bool n

namespace Machine
variable {σ : Type} {k : Nat}

def run (m : Machine σ k) (s : σ) : List (Fin k) → Option σ
  | [] => some s
  | j :: w => (m.step s j).bind fun d => m.run d w

variable [DecidableEq σ]

def successors (m : Machine σ k) (s : σ) : List σ := (List.finRange k).filterMap (m.step s)

def Bounded (m : Machine σ k) : Prop := Search.Bounded m.successors [m.start]

def states (m : Machine σ k) (bounded : m.Bounded) : List σ :=
  Search.search m.successors [m.start] bounded

theorem start_mem_states (m : Machine σ k) (bounded : m.Bounded) : m.start ∈ m.states bounded :=
  Search.start_mem_search _ _ bounded m.start List.mem_cons_self

def tabulate (m : Machine σ k) (bounded : m.Bounded) : Table (m.states bounded).length k :=
  let states := m.states bounded
  let row (s : σ) := Vector.ofFn fun j => (m.step s j).bind states.finIdxOf?
  { start := ⟨states.idxOf m.start, List.idxOf_lt_length_of_mem (m.start_mem_states bounded)⟩
    next := ⟨(states.map row).toArray, by simp [states]⟩
    accepting := ⟨(states.map m.accepting).toArray, by simp [states]⟩ }

end Machine

namespace Table
variable {n k : Nat}

def machine (t : Table n k) : Machine (Fin n) k where
  start := t.start
  step i j := (t.next.get i).get j
  accepting := t.accepting.get

end Table
end EpsilonAutomata
