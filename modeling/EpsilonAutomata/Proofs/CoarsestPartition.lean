import EpsilonAutomata.Proofs.Splitting

/-! What partition refinement yields, said of rows of plain numbers. Two states get one class exactly when
each word either gets stuck from both or ends from both where the marks are the same. These classes are
stable, every other stable partition is finer, and their numbers come up in the order 0, 1, 2 and so on, so
that no other list of classes meets this. -/

namespace EpsilonAutomata

def stepRows (rows : List (List (Option Nat))) (i x : Nat) : Option Nat := (rows[i]?.bind (·[x]?)).join

def runRows {k : Nat} (rows : List (List (Option Nat))) (i : Nat) : List (Fin k) → Option Nat
  | [] => some i
  | x :: w => (stepRows rows i x).bind fun d => runRows rows d w

def Alike (accepting : List Bool) : Option Nat → Option Nat → Prop
  | none, none => True
  | some d, some e => accepting[d]? = accepting[e]?
  | _, _ => False

def Inseparable (k : Nat) (rows : List (List (Option Nat))) (accepting : List Bool) (i j : Nat) : Prop :=
  ∀ w : List (Fin k), Alike accepting (runRows rows i w) (runRows rows j w)

/-- The different numbers are 0, 1, 2 and so on, in the order in which they first come up. -/
def InOrder (classes : List Nat) : Prop := classes.eraseDups = List.range classes.eraseDups.length

/-- There is a class for each state, inseparable states have the same one, and no others have. -/
structure WordClasses (k : Nat) (rows : List (List (Option Nat))) (accepting : List Bool)
    (classes : List Nat) : Prop where
  length_eq : classes.length = rows.length
  class_eq_iff : ∀ i j, i < rows.length → j < rows.length →
    (classes[i]? = classes[j]? ↔ Inseparable k rows accepting i j)
  inOrder : InOrder classes

/-- States of one class are marked alike, and each letter gets stuck at both or leads to one class. -/
structure StableClasses (k : Nat) (rows : List (List (Option Nat))) (accepting : List Bool)
    (classes : List Nat) : Prop where
  accepting_eq : ∀ i j, i < rows.length → j < rows.length → classes[i]? = classes[j]? →
    accepting[i]? = accepting[j]?
  step_eq : ∀ i j, i < rows.length → j < rows.length → classes[i]? = classes[j]? → ∀ x : Fin k,
    (stepRows rows i x).map (classes[·]?) = (stepRows rows j x).map (classes[·]?)

/-- Every other stable partition is finer. -/
structure CoarsestClasses (k : Nat) (rows : List (List (Option Nat))) (accepting : List Bool)
    (classes : List Nat) : Prop extends StableClasses k rows accepting classes where
  coarsest : ∀ other, StableClasses k rows accepting other → ∀ i j, i < rows.length → j < rows.length →
    other[i]? = other[j]? → classes[i]? = classes[j]?

/-! Numbers in their order. -/

theorem exists_map_eq {l l' : List Nat} (hlength : l.length = l'.length)
    (hsame : ∀ i j, i < l.length → j < l.length → l[i]? = l[j]? → l'[i]? = l'[j]?) :
    ∃ f : Nat → Nat, l.map f = l' := by
  have hfactors : Function.FactorsThrough (fun i : Fin l.length => l'[(i : Nat)]) l.get := by
    intro i j hij
    have h := hsame i j i.isLt j.isLt (by simpa using hij)
    rwa [List.getElem?_eq_getElem, List.getElem?_eq_getElem, Option.some.injEq] at h
  refine ⟨Function.extend l.get (fun i => l'[(i : Nat)]) id, ?_⟩
  apply List.ext_getElem (by rw [List.length_map, hlength])
  intro i hi _
  rw [List.length_map] at hi
  rw [List.getElem_map]
  exact hfactors.extend_apply id ⟨i, hi⟩

theorem InOrder.eq {l l' : List Nat} (h : InOrder l) (h' : InOrder l') (hlength : l.length = l'.length)
    (hsame : ∀ i j, i < l.length → j < l.length → (l[i]? = l[j]? ↔ l'[i]? = l'[j]?)) : l = l' := by
  obtain ⟨f, hf⟩ := exists_map_eq hlength fun i j hi hj => (hsame i j hi hj).1
  have hinj (v : Nat) (hv : v ∈ l) (w : Nat) (hw : w ∈ l) (hvw : f v = f w) : v = w := by
    obtain ⟨i, hi, rfl⟩ := List.getElem_of_mem hv
    obtain ⟨j, hj, rfl⟩ := List.getElem_of_mem hw
    have hij := (hsame i j hi hj).2 (by simp [← hf, hi, hj, hvw])
    rwa [List.getElem?_eq_getElem hi, List.getElem?_eq_getElem hj, Option.some.injEq] at hij
  -- the renaming takes 0, 1, 2 and so on to the same numbers, hence changes none of them
  have hdups : l'.eraseDups = l.eraseDups.map f := hf ▸ eraseDups_map l hinj
  have hcount : l'.eraseDups.length = l.eraseDups.length := by rw [hdups, List.length_map]
  have hfixed : l.eraseDups.map f = l.eraseDups.map id := by
    rw [← hdups, h', hcount, List.map_id, ← h]
  have hid (v : Nat) (hv : v ∈ l) : f v = id v := List.map_inj_left.1 hfixed v (List.mem_eraseDups.2 hv)
  rw [← hf, List.map_congr_left hid, List.map_id]

section rows
variable {k : Nat} {rows : List (List (Option Nat))} {accepting : List Bool} {classes : List Nat}

theorem Inside.lt_of_stepRows (h : Inside rows) {i x d : Nat} (hstep : stepRows rows i x = some d) :
    d < rows.length := by
  obtain ⟨row, hrow, hentry⟩ := Option.bind_eq_some_iff.1 (Option.join_eq_some_iff.1 hstep)
  exact h row (List.mem_of_getElem? hrow) d (List.mem_of_getElem? hentry)

theorem Alike.isSome_eq {v w : Option Nat} (h : Alike accepting v w) : v.isSome = w.isSome := by
  cases v with
  | none =>
    cases w with
    | none => rfl
    | some e => cases h
  | some d =>
    cases w with
    | none => cases h
    | some e => rfl

theorem WordClasses.stable (h : WordClasses k rows accepting classes) (hinside : Inside rows) :
    StableClasses k rows accepting classes where
  accepting_eq i j hi hj hij := (h.class_eq_iff i j hi hj).1 hij []
  step_eq i j hi hj hij x := by
    have hwords := (h.class_eq_iff i j hi hj).1 hij
    have hletter : Alike accepting (stepRows rows i x) (stepRows rows j x) := by
      simpa [runRows] using hwords [x]
    obtain ⟨hd, he⟩ | ⟨d, e, hd, he⟩ := Machine.none_or_some_of_isSome_eq hletter.isSome_eq
    · rw [hd, he]
    · have hnext : Inseparable k rows accepting d e := fun w => by
        simpa only [runRows, hd, he, Option.bind_some] using hwords (x :: w)
      rw [hd, he]
      exact congrArg some ((h.class_eq_iff d e (hinside.lt_of_stepRows hd) (hinside.lt_of_stepRows he)).2 hnext)

theorem StableClasses.inseparable (h : StableClasses k rows accepting classes) (hinside : Inside rows)
    {i j : Nat} (hi : i < rows.length) (hj : j < rows.length) (hij : classes[i]? = classes[j]?) :
    Inseparable k rows accepting i j := by
  intro w
  induction w generalizing i j with
  | nil => exact h.accepting_eq i j hi hj hij
  | cons x w ih =>
    rw [runRows, runRows]
    obtain ⟨hd, he⟩ | ⟨d, e, hd, he, hde⟩ := Table.stuck_or_class_eq (h.step_eq i j hi hj hij x)
    · rw [hd, he]
      trivial
    · rw [hd, he]
      exact ih (hinside.lt_of_stepRows hd) (hinside.lt_of_stepRows he) hde

theorem WordClasses.coarsest (h : WordClasses k rows accepting classes) (hinside : Inside rows) :
    CoarsestClasses k rows accepting classes where
  toStableClasses := h.stable hinside
  coarsest _ hother i j hi hj hij := (h.class_eq_iff i j hi hj).2 (hother.inseparable hinside hi hj hij)

theorem WordClasses.unique {other : List Nat} (h : WordClasses k rows accepting classes)
    (hother : WordClasses k rows accepting other) : other = classes := by
  refine hother.inOrder.eq h.inOrder (hother.length_eq.trans h.length_eq.symm) fun i j hi hj => ?_
  rw [hother.length_eq] at hi hj
  exact (hother.class_eq_iff i j hi hj).trans (h.class_eq_iff i j hi hj).symm

end rows

namespace Table
variable {n k : Nat}

def ofRows (rows : List (List (Option Nat))) (accepting : List Bool)
    (hmarks : accepting.length = rows.length) (start : Fin rows.length) : Table rows.length k where
  start := start
  next := Vector.ofFn fun i => Vector.ofFn fun x =>
    (stepRows rows i x).bind fun d => if h : d < rows.length then some ⟨d, h⟩ else none
  accepting := ⟨accepting.toArray, hmarks⟩

theorem rows_ofRows {rows : List (List (Option Nat))} {accepting : List Bool}
    (hmarks : accepting.length = rows.length) (start : Fin rows.length)
    (hwidth : ∀ row ∈ rows, row.length = k) (hinside : Inside rows) :
    (ofRows rows accepting hmarks start : Table rows.length k).rows = rows := by
  apply List.ext_getElem (by simp [Table.rows])
  intro i _ hi
  have hlength : rows[i].length = k := hwidth rows[i] (List.getElem_mem hi)
  simp only [Table.rows, List.getElem_ofFn, row]
  apply List.ext_getElem (by simp [hlength])
  intro x _ hx
  have hentry : stepRows rows i x = rows[i][x] := by
    rw [stepRows, List.getElem?_eq_getElem hi, Option.bind_some, List.getElem?_eq_getElem hx, Option.join_some]
  have hstep : (ofRows rows accepting hmarks start).machine.step ⟨i, hi⟩ ⟨x, hlength ▸ hx⟩ =
      (stepRows rows i x).bind fun d => if h : d < rows.length then some ⟨d, h⟩ else none := by
    simp only [machine, ofRows, Vector.get_ofFn]
  rw [List.getElem_ofFn, hstep, ← hentry]
  cases hd : stepRows rows i x with
  | none => rfl
  | some d => simp [hinside.lt_of_stepRows hd]

theorem exists_rows_eq {rows : List (List (Option Nat))} {accepting : List Bool} (hne : rows ≠ [])
    (hwidth : ∀ row ∈ rows, row.length = k) (hinside : Inside rows)
    (hmarks : accepting.length = rows.length) :
    ∃ (n : Nat) (t : Table n k), t.rows = rows ∧ t.accepting.toList = accepting :=
  ⟨rows.length, ofRows rows accepting hmarks ⟨0, List.length_pos_iff.2 hne⟩,
    rows_ofRows hmarks _ hwidth hinside, rfl⟩

theorem stepRows_rows (t : Table n k) (i : Fin n) (x : Fin k) :
    stepRows t.rows i x = (t.machine.step i x).map Fin.val := by
  rw [stepRows, rows, getElem?_ofFn_val, Option.bind_some, row, getElem?_ofFn_val, Option.join_some]

theorem runRows_rows (t : Table n k) (i : Fin n) (w : List (Fin k)) :
    runRows t.rows i w = (t.machine.run i w).map Fin.val := by
  induction w generalizing i with
  | nil => rfl
  | cons x w ih =>
    rw [runRows, Machine.run, stepRows_rows, Option.map_bind, Option.bind_map]
    apply congrArg (Option.bind (t.machine.step i x))
    funext d
    exact ih d

theorem alike_iff (t : Table n k) (v w : Option (Fin n)) :
    Alike t.accepting.toList (v.map Fin.val) (w.map Fin.val) ↔
      v.map t.accepting.get = w.map t.accepting.get := by
  cases v with
  | none => cases w <;> simp [Alike]
  | some d =>
    cases w with
    | none => simp [Alike]
    | some e =>
      show t.accepting.toList[(d : Nat)]? = t.accepting.toList[(e : Nat)]? ↔ _
      rw [getElem?_toList, getElem?_toList]
      exact Iff.rfl

theorem inseparable_rows_iff (t : Table n k) (i j : Fin n) :
    Inseparable k t.rows t.accepting.toList i j ↔ ∀ w, t.machine.outcome i w = t.machine.outcome j w := by
  refine forall_congr' fun w => ?_
  rw [runRows_rows, runRows_rows]
  exact t.alike_iff (t.machine.run i w) (t.machine.run j w)

theorem inOrder_number {α : Type} [BEq α] [LawfulBEq α] [DecidableEq α] (values : Vector α n) :
    InOrder (number values).toList := by
  show distinct (number values) = List.range (distinct (number values)).length
  rw [length_distinct_number, distinct_number]

theorem wordClasses_refine (t : Table n k) : WordClasses k t.rows t.accepting.toList t.refine.toList where
  length_eq := by simp [rows]
  class_eq_iff i j hi hj := by
    rw [rows, List.length_ofFn] at hi hj
    have hi' := getElem?_toList t.refine ⟨i, hi⟩
    have hj' := getElem?_toList t.refine ⟨j, hj⟩
    rw [hi', hj', Option.some.injEq, refine_get_eq_iff]
    exact (t.inseparable_rows_iff ⟨i, hi⟩ ⟨j, hj⟩).symm
  inOrder := by
    obtain ⟨values, hvalues⟩ := t.exists_refineFrom_eq (number t.accepting)
    rw [refine, hvalues]
    exact inOrder_number values

end Table

theorem refineRows_nil : refineRows [] [] = some [] := loop_of_last rfl

theorem wordClasses_nil (k : Nat) : WordClasses k [] [] [] where
  length_eq := rfl
  class_eq_iff _ _ hi := absurd hi (Nat.not_lt_zero _)
  inOrder := rfl

/-- For rows of one length that lead nowhere outside, refinement ends, and its classes are the only ones
that are numbered in order and tell states apart just as words do; they are the coarsest stable ones, and
those of the table that has these rows. -/
theorem refineRows_exact {k : Nat} {rows : List (List (Option Nat))} {accepting : List Bool}
    (hwidth : ∀ row ∈ rows, row.length = k) (hinside : Inside rows)
    (hmarks : accepting.length = rows.length) :
    ∃ classes, refineRows rows accepting = some classes ∧ WordClasses k rows accepting classes ∧
      (∀ other, WordClasses k rows accepting other → other = classes) ∧
      CoarsestClasses k rows accepting classes ∧
      ∀ (n : Nat) (t : Table n k), t.rows = rows → t.accepting.toList = accepting →
        t.refine.toList = classes := by
  obtain ⟨classes, hclasses, hwords⟩ :
      ∃ classes, refineRows rows accepting = some classes ∧ WordClasses k rows accepting classes := by
    by_cases hne : rows = []
    · subst hne
      obtain rfl := List.eq_nil_of_length_eq_zero hmarks
      exact ⟨[], refineRows_nil, wordClasses_nil k⟩
    · obtain ⟨n, t, rfl, rfl⟩ := Table.exists_rows_eq hne hwidth hinside hmarks
      exact ⟨t.refine.toList, t.refineRows_rows, t.wordClasses_refine⟩
  refine ⟨classes, hclasses, hwords, fun _ => hwords.unique, hwords.coarsest hinside, ?_⟩
  rintro n t rfl rfl
  exact Option.some.inj (t.refineRows_rows.symm.trans hclasses)

def mergeableRows : List (List (Option Nat)) :=
  [[some 1, none], [some 3, some 2], [some 3, some 0], [some 1, some 2]]

theorem refineRows_mergeable :
    refineRows mergeableRows [false, true, false, true] = some [0, 1, 2, 1] := by
  have hfirst : splitRound mergeableRows ([0, 1, 0, 1], 2) = some (.inr ([0, 1, 2, 1], 3)) := rfl
  have hlast : splitRound mergeableRows ([0, 1, 2, 1], 3) = some (.inl [0, 1, 2, 1]) := rfl
  exact (loop_of_next hfirst).trans (loop_of_last hlast)

theorem refineRows_exact_mergeable :
    (∀ row ∈ mergeableRows, row.length = 2) ∧ Inside mergeableRows ∧
      [false, true, false, true].length = mergeableRows.length ∧
      WordClasses 2 mergeableRows [false, true, false, true] [0, 1, 2, 1] ∧
      CoarsestClasses 2 mergeableRows [false, true, false, true] [0, 1, 2, 1] := by
  have hwidth : ∀ row ∈ mergeableRows, row.length = 2 := by decide
  have hinside : Inside mergeableRows := by
    simp [Inside, mergeableRows]
  have hmarks : [false, true, false, true].length = mergeableRows.length := rfl
  obtain ⟨classes, hclasses, hwords, _, hcoarsest, _⟩ := refineRows_exact hwidth hinside hmarks
  obtain rfl := Option.some.inj (hclasses.symm.trans refineRows_mergeable)
  exact ⟨hwidth, hinside, hmarks, hwords, hcoarsest⟩

end EpsilonAutomata
