import EpsilonAutomata.Automaton.Edit
import EpsilonAutomata.Proofs.Numerals

/-! Numbers in the names of states. A generated name holds its number, a number that is free lies above
those of all states, and it is only missing where a state holds the largest number there is. -/

namespace EpsilonAutomata

theorem stateNumber?_eq_some_iff (name : String) (n : Nat) :
    stateNumber? name = some n ↔
      ∃ numeral, name.toList = 'q' :: numeral ∧ Numeral.read? Numeral.word32 numeral = some n := by
  unfold stateNumber?
  split
  · next numeral hname => simp [hname]
  · next hname =>
    constructor
    · intro h
      cases h
    · rintro ⟨numeral, hnumeral, _⟩
      exact absurd hnumeral (hname numeral)

theorem stateNumber?_stateName {n : Nat} (h : n ≤ Numeral.word32) : stateNumber? (stateName n) = some n := by
  refine (stateNumber?_eq_some_iff _ _).2 ⟨(toString n).toList, ?_, Numeral.read?_toString h⟩
  rw [stateName, String.toList_append]
  rfl

theorem le_of_stateNumber? {name : String} {n : Nat} (h : stateNumber? name = some n) :
    n ≤ Numeral.word32 := by
  obtain ⟨numeral, _, hread⟩ := (stateNumber?_eq_some_iff name n).1 h
  exact Numeral.le_of_read? hread

namespace Automaton
variable {a : Automaton}

def Numbered (a : Automaton) (n : Nat) : Prop := ∃ s ∈ a.states, stateNumber? s = some n

theorem mem_numbers_iff (a : Automaton) (n : Nat) :
    n ∈ a.states.toList.filterMap stateNumber? ↔ a.Numbered n := List.mem_filterMap

theorem Numbered.le {n : Nat} (h : a.Numbered n) : n ≤ Numeral.word32 := by
  obtain ⟨s, _, hs⟩ := h
  exact le_of_stateNumber? hs

theorem lt_of_nextSuffix {k n : Nat} (h : a.nextSuffix = .ok k) (hn : a.Numbered n) : n < k := by
  unfold nextSuffix at h
  split at h
  · next hnone =>
    rw [List.max?_eq_none_iff] at hnone
    have hmem := (a.mem_numbers_iff n).2 hn
    rw [hnone] at hmem
    cases hmem
  · next largest hmax =>
    split at h
    · cases h
      exact Nat.lt_succ_of_le ((List.max?_eq_some_iff.1 hmax).2 n ((a.mem_numbers_iff n).2 hn))
    · cases h

theorem nextSuffix_le_of_forall_lt {k n : Nat} (h : a.nextSuffix = .ok k) (hn : ∀ m, a.Numbered m → m < n) :
    k ≤ n := by
  unfold nextSuffix at h
  split at h
  · cases h
    exact Nat.zero_le n
  · next largest hmax =>
    split at h
    · cases h
      exact hn largest ((a.mem_numbers_iff largest).1 (List.max?_eq_some_iff.1 hmax).1)
    · cases h

theorem nextSuffix_le {k : Nat} (h : a.nextSuffix = .ok k) : k ≤ Numeral.word32 := by
  unfold nextSuffix at h
  split at h
  · cases h
    exact Nat.zero_le _
  · split at h
    · next hlt =>
      cases h
      exact hlt
    · cases h

theorem nextSuffix_eq_error_iff (a : Automaton) (defect : Defect) :
    a.nextSuffix = .error defect ↔
      a.Numbered Numeral.word32 ∧ defect = .suffixesExhausted Numeral.word32 := by
  cases hnext : a.nextSuffix with
  | ok k =>
    have hfree : ¬ a.Numbered Numeral.word32 := fun hn =>
      absurd (lt_of_nextSuffix hnext hn) (Nat.not_lt.2 (nextSuffix_le hnext))
    simp [hfree]
  | error found =>
    unfold nextSuffix at hnext
    split at hnext
    · cases hnext
    · next largest hmax =>
      split at hnext
      · cases hnext
      · next hlt =>
        cases hnext
        have hnumbered := (a.mem_numbers_iff largest).1 (List.max?_eq_some_iff.1 hmax).1
        have hlargest : largest = Numeral.word32 := Nat.le_antisymm hnumbered.le (Nat.not_lt.1 hlt)
        subst hlargest
        simp [hnumbered, eq_comm]

/-- A number that is not below the next one makes a new name, if it is one of 32 bits. -/
theorem stateName_not_mem {k n : Nat} (h : a.nextSuffix = .ok k) (hk : k ≤ n) (hn : n ≤ Numeral.word32) :
    stateName n ∉ a.states := by
  intro hmem
  have hnumbered : a.Numbered n := ⟨stateName n, hmem, stateNumber?_stateName hn⟩
  exact absurd (lt_of_nextSuffix h hnumbered) (Nat.not_lt.2 hk)

end Automaton
end EpsilonAutomata
