import EpsilonAutomata.Proofs.Refinement

/-! The derivatives of a language: what may follow a word. They are the states of a machine that is
given by the language alone, and merging a trimmed table yields the table of that machine. Hence
nothing of the table but its language is left in the result. -/

namespace EpsilonAutomata

section derivatives
variable {k : Nat}

open Classical in
/-- Each state is a language, and a letter leads to what may follow it, unless nothing may. -/
noncomputable def derivatives (L : List (Fin k) → Bool) : Machine (List (Fin k) → Bool) k where
  start := L
  step P j := if ∃ w, P (j :: w) = true then some fun w => P (j :: w) else none
  accepting P := P []

theorem derivatives_step_eq_some_iff (L P Q : List (Fin k) → Bool) (j : Fin k) :
    (derivatives L).step P j = some Q ↔ (Q = fun w => P (j :: w)) ∧ ∃ w, Q w = true := by
  simp only [derivatives]
  split
  · next h =>
    constructor
    · intro hQ
      obtain rfl := Option.some.inj hQ
      exact ⟨rfl, h⟩
    · rintro ⟨rfl, _⟩
      rfl
  · next h =>
    constructor
    · rintro ⟨⟩
    · rintro ⟨rfl, hw⟩
      exact absurd hw h

theorem language_derivatives (L P : List (Fin k) → Bool) (w : List (Fin k)) :
    (derivatives L).language P w = P w := by
  induction w generalizing P with
  | nil => rfl
  | cons j w ih =>
    rw [Machine.language_cons]
    cases h : (derivatives L).step P j with
    | some Q =>
      obtain ⟨rfl, _⟩ := (derivatives_step_eq_some_iff L P Q j).1 h
      exact ih _
    | none =>
      by_contra hw
      have hP : P (j :: w) = true := by simpa using hw
      have hstep := (derivatives_step_eq_some_iff L P _ j).2 ⟨rfl, w, hP⟩
      rw [h] at hstep
      cases hstep

theorem eq_of_run_derivatives (L P Q : List (Fin k) → Bool) (u : List (Fin k))
    (h : (derivatives L).run P u = some Q) :
    (∀ v, Q v = P (u ++ v)) ∧ (u = [] ∨ ∃ v, Q v = true) := by
  induction u generalizing P with
  | nil =>
    obtain rfl := Option.some.inj h
    exact ⟨fun _ => rfl, .inl rfl⟩
  | cons j u ih =>
    rw [Machine.run, Option.bind_eq_some_iff] at h
    obtain ⟨R, hR, hu⟩ := h
    obtain ⟨rfl, hlive⟩ := (derivatives_step_eq_some_iff L P R j).1 hR
    obtain ⟨hQ, hend⟩ := ih _ hu
    refine ⟨hQ, .inr ?_⟩
    rcases hend with rfl | hend
    · obtain rfl := Option.some.inj hu
      exact hlive
    · exact hend

end derivatives

namespace Table
variable {n k : Nat}

theorem classes_representatives (classes : Vector Nat n) (i : Fin n) :
    classes.get ((representatives classes).get i) = classes.get i := by
  rw [representatives, Vector.get_ofFn]
  cases h : (List.finRange n).find? fun j => classes.get j == classes.get i with
  | none => rfl
  | some j =>
    have hj := List.find?_some h
    exact eq_of_beq hj

theorem representatives_congr (classes : Vector Nat n) (i j : Fin n)
    (h : classes.get i = classes.get j) :
    (representatives classes).get i = (representatives classes).get j := by
  rw [representatives, Vector.get_ofFn, Vector.get_ofFn, h]
  cases hfind : (List.finRange n).find? fun d => classes.get d == classes.get j with
  | none =>
    have := List.find?_eq_none.1 hfind j (List.mem_finRange j)
    simp at this
  | some d => rfl

theorem language_representative (t : Table n k) (i : Fin n) :
    t.machine.language ((representatives t.refine).get i) = t.machine.language i := by
  have hclass := (t.refine_get_eq_iff _ i).1 (classes_representatives t.refine i)
  funext w
  rw [Machine.language_eq_outcome, Machine.language_eq_outcome, hclass]

theorem quotient_morphism {t : Table n k} (h : t.Trimmed) :
    t.quotient.Morphism (derivatives (t.machine.language t.start)) t.machine.language where
  start := t.language_representative t.start
  step i j := by
    show _ = ((t.machine.step i j).map (representatives t.refine).get).map t.machine.language
    -- a letter that nothing accepted begins with leads nowhere in either machine
    rw [Option.map_map]
    cases hd : t.machine.step i j with
    | none =>
      cases hQ : (derivatives (t.machine.language t.start)).step (t.machine.language i) j with
      | none => rfl
      | some Q =>
        obtain ⟨rfl, hlive⟩ := (derivatives_step_eq_some_iff _ _ Q j).1 hQ
        have hstep := (h.isSome_step_iff i j).2 hlive
        simp [hd] at hstep
    | some d =>
      rw [Option.map_some, Function.comp_apply, language_representative,
        derivatives_step_eq_some_iff]
      refine ⟨?_, h i j d hd⟩
      funext w
      rw [Machine.language_cons, hd]
      rfl
  accepting i := rfl

theorem language_merge (t : Table n k) (h : t.Trimmed) :
    t.merge.machine.language t.merge.start = t.machine.language t.start := by
  have hmerge : t.merge.machine.language t.merge.start = t.quotient.language t.quotient.start :=
    t.quotient.language_tabulate (bounded_of_finRange _ _)
  rw [hmerge, ← (quotient_morphism h).language_start]
  funext w
  exact language_derivatives _ _ w

theorem exists_representative {t : Table n k} {i : Fin n}
    (h : Search.Reachable t.quotient.successors [t.quotient.start] i) :
    ∃ j, i = (representatives t.refine).get j := by
  cases h with
  | start hi => exact ⟨t.start, List.mem_singleton.1 hi⟩
  | step _ hi =>
    obtain ⟨j, hj⟩ := (t.quotient.mem_successors _ _).1 hi
    obtain ⟨d, _, hd⟩ := Option.map_eq_some_iff.1 hj
    exact ⟨d, hd.symm⟩

theorem eq_of_language_eq {t : Table n k} (h : t.Trimmed) {i j : Fin n}
    (hi : Search.Reachable t.quotient.successors [t.quotient.start] i)
    (hj : Search.Reachable t.quotient.successors [t.quotient.start] j)
    (hsame : t.machine.language i = t.machine.language j) : i = j := by
  obtain ⟨i, rfl⟩ := exists_representative hi
  obtain ⟨j, rfl⟩ := exists_representative hj
  rw [language_representative, language_representative] at hsame
  exact representatives_congr t.refine i j ((t.refine_get_eq_iff i j).2 (h.outcome_eq hsame))

/-- What is merged is the table of the language. -/
theorem merge_eq [DecidableEq (List (Fin k) → Bool)] {t : Table n k} (h : t.Trimmed)
    (L : List (Fin k) → Bool) (hL : t.machine.language t.start = L) :
    ∃ bounded : (derivatives L).Bounded,
      (⟨_, t.merge⟩ : Σ n, Table n k) = ⟨_, (derivatives L).tabulate bounded⟩ := by
  subst hL
  have hmorphism := quotient_morphism h
  have hkept : t.quotient.Bounded := bounded_of_finRange _ _
  refine ⟨hmorphism.bounded hkept, ?_⟩
  exact Machine.tabulate_congr hmorphism (fun _ _ hi hj => eq_of_language_eq h hi hj) hkept _

end Table
end EpsilonAutomata
