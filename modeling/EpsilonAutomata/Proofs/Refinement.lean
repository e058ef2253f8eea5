import EpsilonAutomata.Proofs.Trimming

/-! Partition refinement. Each round splits the classes by signature and renumbers them; the rounds
end when the number of classes stops growing. Then no class is split any more, so the classes are
those of the words: two states share a class exactly when every word has the same outcome from both.
-/

namespace EpsilonAutomata.Table
variable {n k : Nat}

theorem nodup_eraseDups {α : Type} [BEq α] [LawfulBEq α] (l : List α) : l.eraseDups.Nodup := by
  match l with
  | [] => simp
  | x :: rest =>
    have shorter := nodup_eraseDups (rest.filter fun y => !y == x)
    rw [List.eraseDups_cons, List.nodup_cons, List.mem_eraseDups]
    exact ⟨by simp, shorter⟩
termination_by l.length
decreasing_by
  have := rest.length_filter_le fun y => !y == x
  simp only [List.length_cons]
  omega

theorem mem_distinct {α : Type} [BEq α] [LawfulBEq α] (values : Vector α n) (v : α) :
    v ∈ distinct values ↔ ∃ i, values.get i = v := by
  rw [distinct, List.mem_eraseDups, Vector.mem_toList_iff, Vector.mem_iff_getElem]
  constructor
  · rintro ⟨i, hi, h⟩
    exact ⟨⟨i, hi⟩, h⟩
  · rintro ⟨i, h⟩
    exact ⟨i, i.isLt, h⟩

theorem length_distinct {α : Type} [DecidableEq α] (values : Vector α n) :
    (distinct values).length = (Finset.univ.image values.get).card := by
  have hnodup : (distinct values).Nodup := nodup_eraseDups values.toList
  rw [← List.toFinset_card_of_nodup hnodup]
  apply congrArg Finset.card
  ext v
  rw [List.mem_toFinset]
  refine (mem_distinct values v).trans ?_
  simp

theorem number_get {α : Type} [BEq α] (values : Vector α n) (i : Fin n) :
    (number values).get i = (distinct values).idxOf (values.get i) := by
  simp only [number, Vector.get_map]

theorem number_get_eq_iff {α : Type} [BEq α] [LawfulBEq α] (values : Vector α n) (i j : Fin n) :
    (number values).get i = (number values).get j ↔ values.get i = values.get j := by
  rw [number_get, number_get]
  exact List.idxOf_inj ((mem_distinct values _).2 ⟨i, rfl⟩)

theorem signatures_get_eq_iff (t : Table n k) (classes : Vector Nat n) (i j : Fin n) :
    (t.signatures classes).get i = (t.signatures classes).get j ↔
      classes.get i = classes.get j ∧
        ∀ x, (t.machine.step i x).map classes.get = (t.machine.step j x).map classes.get := by
  simp only [signatures, Vector.get_ofFn, Prod.mk.injEq]
  refine and_congr_right fun _ => ?_
  rw [← Vector.toList_map, ← Vector.toList_map, Vector.toList_inj, Vector.ext_iff]
  constructor
  · intro h x
    have hx := h x x.isLt
    rwa [Vector.getElem_map, Vector.getElem_map] at hx
  · intro h x hx
    rw [Vector.getElem_map, Vector.getElem_map]
    exact h ⟨x, hx⟩

theorem stuck_or_class_eq {σ τ : Type} {classOf : σ → τ} {v w : Option σ}
    (h : v.map classOf = w.map classOf) :
    (v = none ∧ w = none) ∨ ∃ d e, v = some d ∧ w = some e ∧ classOf d = classOf e := by
  have hstuck : v.isSome = w.isSome := by
    rw [← Option.isSome_map, h, Option.isSome_map]
  obtain hnone | ⟨d, e, rfl, rfl⟩ := Machine.none_or_some_of_isSome_eq hstuck
  · exact .inl hnone
  · exact .inr ⟨d, e, rfl, rfl, Option.some.inj h⟩

/-- Where a split keeps states apart that were apart, the old numbers are an image of the new ones. -/
theorem exists_merge (classes finer : Vector Nat n)
    (hsplit : ∀ i j, finer.get i = finer.get j → classes.get i = classes.get j) :
    ∃ merge : Nat → Nat, (∀ i, merge (finer.get i) = classes.get i) ∧
      (Finset.univ.image finer.get).image merge = Finset.univ.image classes.get := by
  have hfactors : Function.FactorsThrough classes.get finer.get := fun i j => hsplit i j
  refine ⟨_, hfactors.extend_apply id, ?_⟩
  rw [Finset.image_image]
  exact Finset.image_congr fun i _ => hfactors.extend_apply id i

theorem length_distinct_le (classes finer : Vector Nat n)
    (hsplit : ∀ i j, finer.get i = finer.get j → classes.get i = classes.get j) :
    (distinct classes).length ≤ (distinct finer).length := by
  obtain ⟨merge, _, himage⟩ := exists_merge classes finer hsplit
  rw [length_distinct, length_distinct, ← himage]
  exact Finset.card_image_le

theorem eq_of_length_distinct_le (classes finer : Vector Nat n)
    (hsplit : ∀ i j, finer.get i = finer.get j → classes.get i = classes.get j)
    (hlength : (distinct finer).length ≤ (distinct classes).length) (i j : Fin n)
    (h : classes.get i = classes.get j) : finer.get i = finer.get j := by
  obtain ⟨merge, hmerge, himage⟩ := exists_merge classes finer hsplit
  -- the image has as many numbers as there are new ones, so no two new ones are merged
  have hcard :
      ((Finset.univ.image finer.get).image merge).card = (Finset.univ.image finer.get).card := by
    apply Finset.card_image_le.antisymm
    rwa [himage, ← length_distinct, ← length_distinct]
  have hinj := Finset.injOn_of_card_image_eq hcard
  apply hinj (by simp) (by simp)
  rw [hmerge, hmerge, h]

/-- What every round keeps: classes are fine enough to tell acceptance and too coarse to tell more
than outcomes do. -/
structure Sound (t : Table n k) (classes : Vector Nat n) : Prop where
  accepting : ∀ i j, classes.get i = classes.get j → t.accepting.get i = t.accepting.get j
  class_eq : ∀ i j, (∀ w, t.machine.outcome i w = t.machine.outcome j w) →
    classes.get i = classes.get j

def Stable (t : Table n k) (classes : Vector Nat n) : Prop :=
  ∀ i j, classes.get i = classes.get j →
    ∀ x, (t.machine.step i x).map classes.get = (t.machine.step j x).map classes.get

theorem Sound.outcome_eq {t : Table n k} {classes : Vector Nat n} (h : t.Sound classes)
    (hstable : t.Stable classes) {i j : Fin n} (hclass : classes.get i = classes.get j)
    (w : List (Fin k)) : t.machine.outcome i w = t.machine.outcome j w := by
  induction w generalizing i j with
  | nil => exact congrArg some (h.accepting i j hclass)
  | cons x w ih =>
    rw [Machine.outcome_cons, Machine.outcome_cons]
    obtain ⟨hi, hj⟩ | ⟨d, e, hi, hj, hde⟩ := stuck_or_class_eq (hstable i j hclass x)
    · rw [hi, hj]
    · rw [hi, hj]
      exact ih hde

theorem sound_number_accepting (t : Table n k) : t.Sound (number t.accepting) where
  accepting i j h := (number_get_eq_iff t.accepting i j).1 h
  class_eq i j h := (number_get_eq_iff t.accepting i j).2 (Option.some.inj (h []))

theorem Sound.number_signatures {t : Table n k} {classes : Vector Nat n} (h : t.Sound classes) :
    t.Sound (number (t.signatures classes)) where
  accepting i j hclass := by
    rw [number_get_eq_iff, signatures_get_eq_iff] at hclass
    exact h.accepting i j hclass.1
  class_eq i j houtcome := by
    rw [number_get_eq_iff, signatures_get_eq_iff]
    refine ⟨h.class_eq i j houtcome, fun x => ?_⟩
    have hstuck : (t.machine.step i x).isSome = (t.machine.step j x).isSome := by
      rw [← Machine.isSome_outcome_singleton, houtcome, Machine.isSome_outcome_singleton]
    obtain ⟨hi, hj⟩ | ⟨d, e, hi, hj⟩ := Machine.none_or_some_of_isSome_eq hstuck
    · rw [hi, hj]
    · have hnext (w : List (Fin k)) : t.machine.outcome d w = t.machine.outcome e w := by
        have hx := houtcome (x :: w)
        rwa [Machine.outcome_cons, Machine.outcome_cons, hi, hj] at hx
      rw [hi, hj]
      exact congrArg some (h.class_eq d e hnext)

theorem refineFrom_spec (t : Table n k) (classes : Vector Nat n) (h : t.Sound classes) :
    t.Sound (t.refineFrom classes) ∧ t.Stable (t.refineFrom classes) := by
  fun_induction refineFrom t classes with
  | case1 classes finer _ ih => exact ih h.number_signatures
  | case2 classes finer hlength =>
    have hsplit (i j : Fin n) (hij : finer.get i = finer.get j) :=
      (t.signatures_get_eq_iff classes i j).1 ((number_get_eq_iff _ i j).1 hij)
    have hsame := eq_of_length_distinct_le classes finer (fun i j hij => (hsplit i j hij).1)
      (Nat.le_of_not_lt hlength)
    refine ⟨h.number_signatures, fun i j hij x => ?_⟩
    -- the signatures speak of the old classes, which are the new ones under other numbers
    obtain ⟨hi, hj⟩ | ⟨d, e, hi, hj, hde⟩ := stuck_or_class_eq ((hsplit i j hij).2 x)
    · rw [hi, hj]
    · rw [hi, hj]
      exact congrArg some (hsame d e hde)

theorem refine_get_eq_iff (t : Table n k) (i j : Fin n) :
    t.refine.get i = t.refine.get j ↔ ∀ w, t.machine.outcome i w = t.machine.outcome j w := by
  obtain ⟨hsound, hstable⟩ := t.refineFrom_spec _ t.sound_number_accepting
  exact ⟨fun h => hsound.outcome_eq hstable h, hsound.class_eq i j⟩

end EpsilonAutomata.Table
