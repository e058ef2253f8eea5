import EpsilonAutomata.Deterministic.Minimal
import EpsilonAutomata.Proofs.Machine
import Mathlib

/-! The live states of a table, and what dropping the transitions into the others does. A state is
live when it accepts some word; trimming keeps every language, and each transition that is left
leads to a live state. -/

namespace EpsilonAutomata.Table
variable {n k : Nat}

theorem mem_predecessors (t : Table n k) (i p : Fin n) :
    p ∈ t.predecessors i ↔ ∃ j, t.machine.step p j = some i := by
  simp only [predecessors, List.mem_filter, List.mem_finRange, true_and, machine,
    Vector.contains_iff_mem]
  rw [Vector.mem_iff_getElem]
  constructor
  · rintro ⟨j, hj, h⟩
    exact ⟨⟨j, hj⟩, h⟩
  · rintro ⟨j, h⟩
    exact ⟨j, j.isLt, h⟩

theorem exists_accepted_of_reachable (t : Table n k) (i : Fin n)
    (h : Search.Reachable t.predecessors ((List.finRange n).filter fun i => t.accepting.get i) i) :
    ∃ w, t.machine.language i w = true := by
  induction h with
  | start hi => exact ⟨[], (List.mem_filter.1 hi).2⟩
  | step _ hp ih =>
    obtain ⟨w, hw⟩ := ih
    obtain ⟨j, hj⟩ := (t.mem_predecessors _ _).1 hp
    refine ⟨j :: w, ?_⟩
    rw [Machine.language_cons, hj]
    exact hw

theorem reachable_of_accepted (t : Table n k) (i : Fin n) (w : List (Fin k))
    (h : t.machine.language i w = true) :
    Search.Reachable t.predecessors ((List.finRange n).filter fun i => t.accepting.get i) i := by
  induction w generalizing i with
  | nil => exact .start (List.mem_filter.2 ⟨List.mem_finRange i, h⟩)
  | cons j w ih =>
    rw [Machine.language_cons, Option.any_eq_true] at h
    obtain ⟨d, hd, hw⟩ := h
    exact .step (ih d hw) ((t.mem_predecessors d i).2 ⟨j, hd⟩)

theorem live_get_iff (t : Table n k) (i : Fin n) :
    t.live.get i = true ↔ ∃ w, t.machine.language i w = true := by
  rw [live, Vector.get_ofFn, List.contains_iff_mem, Search.mem_search_iff]
  constructor
  · exact t.exists_accepted_of_reachable i
  · rintro ⟨w, hw⟩
    exact t.reachable_of_accepted i w hw

theorem trim_step (t : Table n k) (i : Fin n) (j : Fin k) :
    t.trim.machine.step i j = (t.machine.step i j).filter fun d => t.live.get d := by
  simp [trim, machine]

theorem language_trim (t : Table n k) (i : Fin n) (w : List (Fin k)) :
    t.trim.machine.language i w = t.machine.language i w := by
  induction w generalizing i with
  | nil => rfl
  | cons j w ih =>
    rw [Machine.language_cons, Machine.language_cons, trim_step]
    cases t.machine.step i j with
    | none => rfl
    | some d =>
      cases hd : t.live.get d with
      | true => simpa [hd] using ih d
      | false =>
        -- what is dropped leads to a state that accepts no word
        have rejected : t.machine.language d w = false := by
          rw [Bool.eq_false_iff, Ne]
          intro hw
          have := (t.live_get_iff d).2 ⟨w, hw⟩
          simp [hd] at this
        simp [hd, rejected]

def Trimmed (t : Table n k) : Prop :=
  ∀ i j d, t.machine.step i j = some d → ∃ w, t.machine.language d w = true

theorem trimmed_trim (t : Table n k) : t.trim.Trimmed := by
  intro i j d h
  rw [trim_step, Option.filter_eq_some_iff] at h
  obtain ⟨w, hw⟩ := (t.live_get_iff d).1 h.2
  exact ⟨w, (t.language_trim d w).trans hw⟩

theorem Trimmed.isSome_step_iff {t : Table n k} (h : t.Trimmed) (i : Fin n) (j : Fin k) :
    (t.machine.step i j).isSome ↔ ∃ w, t.machine.language i (j :: w) = true := by
  constructor
  · intro hstep
    obtain ⟨d, hd⟩ := Option.isSome_iff_exists.1 hstep
    obtain ⟨w, hw⟩ := h i j d hd
    refine ⟨w, ?_⟩
    rw [Machine.language_cons, hd]
    exact hw
  · rintro ⟨w, hw⟩
    rw [Machine.language_cons, Option.any_eq_true] at hw
    obtain ⟨d, hd, _⟩ := hw
    exact Option.isSome_iff_exists.2 ⟨d, hd⟩

/-- In a trimmed table what is accepted from a state also tells which words get stuck. -/
theorem Trimmed.outcome_eq {t : Table n k} (h : t.Trimmed) {i d : Fin n}
    (hsame : t.machine.language i = t.machine.language d) (w : List (Fin k)) :
    t.machine.outcome i w = t.machine.outcome d w := by
  induction w generalizing i d with
  | nil =>
    have haccepting : t.machine.accepting i = t.machine.accepting d := congrFun hsame []
    exact congrArg some haccepting
  | cons j w ih =>
    have hstuck : (t.machine.step i j).isSome = (t.machine.step d j).isSome := by
      rw [Bool.eq_iff_iff, h.isSome_step_iff, h.isSome_step_iff, hsame]
    rw [Machine.outcome_cons, Machine.outcome_cons]
    obtain ⟨hi, hd⟩ | ⟨e, e', hi, hd⟩ := Machine.none_or_some_of_isSome_eq hstuck
    · rw [hi, hd]
    · rw [hi, hd]
      apply ih
      funext v
      have hv := congrFun hsame (j :: v)
      rwa [Machine.language_cons, Machine.language_cons, hi, hd] at hv

end EpsilonAutomata.Table
