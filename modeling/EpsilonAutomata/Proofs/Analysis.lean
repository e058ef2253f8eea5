import EpsilonAutomata.Spec.Analysis
import Mathlib.Data.List.Nodup

/-! The analysis of a specification finds nothing exactly when the specification is coherent: it
declares its states, each once, it names no others, and each of its entries leads somewhere. -/

namespace EpsilonAutomata.Spec

structure Coherent (s : Spec) : Prop where
  states_ne_nil : s.states ≠ []
  nodup_states : s.states.Nodup
  initial_mem : s.initial ∈ s.states
  accepting_mem : ∀ p ∈ s.accepting, p ∈ s.states
  source_mem : ∀ p ∈ s.delta.keys, p ∈ s.states
  destinations_ne_nil : ∀ e ∈ s.entries, e.targets.toList ≠ []
  destination_mem : ∀ e ∈ s.entries, ∀ p ∈ e.targets.toList, p ∈ s.states

variable (s : Spec)

theorem repeated_eq_nil_iff (l : List String) : repeated l = [] ↔ l.Nodup := by
  induction l with
  | nil => simp [repeated]
  | cons x l ih =>
    rw [repeated, List.nodup_cons]
    split
    · next hx => simp [hx]
    · next hx => simp [hx, ih]

theorem undeclared_eq_nil_iff (names : List String) :
    s.undeclared names = [] ↔ ∀ p ∈ names, p ∈ s.states := by
  simp [undeclared]

theorem statesFinding?_eq_none_iff :
    s.statesFinding? = none ↔ s.states ≠ [] ∧ s.states.Nodup := by
  rw [← repeated_eq_nil_iff, statesFinding?]
  cases s.states with
  | nil => simp
  | cons x l => cases repeated (x :: l) <;> simp

theorem initialFinding?_eq_none_iff : s.initialFinding? = none ↔ s.initial ∈ s.states := by
  simp [initialFinding?]

theorem acceptingFinding?_eq_none_iff :
    s.acceptingFinding? = none ↔ ∀ p ∈ s.accepting, p ∈ s.states := by
  rw [← undeclared_eq_nil_iff, acceptingFinding?]
  cases s.undeclared s.accepting <;> simp

theorem sourcesFinding?_eq_none_iff :
    s.sourcesFinding? = none ↔ ∀ p ∈ s.delta.keys, p ∈ s.states := by
  rw [← undeclared_eq_nil_iff, sourcesFinding?]
  cases s.undeclared s.delta.keys <;> simp

theorem destinationsFinding?_eq_none_iff :
    s.destinationsFinding? = none ↔ (∀ e ∈ s.entries, e.targets.toList ≠ []) ∧
      ∀ e ∈ s.entries, ∀ p ∈ e.targets.toList, p ∈ s.states := by
  have hempty : (s.entries.find? fun e => e.targets.toList.isEmpty) = none ↔
      ∀ e ∈ s.entries, e.targets.toList ≠ [] := by
    simp [List.find?_eq_none]
  have hundeclared : s.undeclared (s.entries.flatMap fun e => e.targets.toList) = [] ↔
      ∀ e ∈ s.entries, ∀ p ∈ e.targets.toList, p ∈ s.states := by
    rw [undeclared_eq_nil_iff]
    simp only [List.mem_flatMap, forall_exists_index, and_imp]
    exact ⟨fun h e he p hp => h p e he hp, fun h p e he hp => h e he p hp⟩
  rw [← hempty, ← hundeclared, destinationsFinding?]
  split
  · next hfind => simp [hfind]
  · next hfind =>
    cases s.undeclared (s.entries.flatMap fun e => e.targets.toList) <;> simp [hfind]

theorem finding?_eq_none_iff : s.finding? = none ↔ s.Coherent := by
  have hparts : s.finding? = none ↔ s.statesFinding? = none ∧ s.initialFinding? = none ∧
      s.acceptingFinding? = none ∧ s.sourcesFinding? = none ∧ s.destinationsFinding? = none := by
    simp [finding?]
  rw [hparts, statesFinding?_eq_none_iff, initialFinding?_eq_none_iff, acceptingFinding?_eq_none_iff,
    sourcesFinding?_eq_none_iff, destinationsFinding?_eq_none_iff]
  constructor
  · rintro ⟨⟨h₁, h₂⟩, h₃, h₄, h₅, h₆, h₇⟩
    exact ⟨h₁, h₂, h₃, h₄, h₅, h₆, h₇⟩
  · intro h
    exact ⟨⟨h.states_ne_nil, h.nodup_states⟩, h.initial_mem, h.accepting_mem, h.source_mem,
      h.destinations_ne_nil, h.destination_mem⟩

end EpsilonAutomata.Spec
