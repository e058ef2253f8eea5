import EpsilonAutomata.Proofs.Marking
import EpsilonAutomata.Proofs.Refinement

/-! Partition refinement as it is carried out: each round looks up the classes that the rows lead to,
numbers the signatures in a map, and the loop stops at the first round that finds as many as there were
classes. It stops, no place it reads is outside, and its classes are those of `Table.refine`. -/

namespace EpsilonAutomata

def classSignatures (rows : List (List (Option Nat))) (classes : List Nat) :
    Option (List (Nat × List (Option Nat))) :=
  rows.zipIdx.mapM fun (row, state) => do
    let targets ← row.mapM (lookUp classes)
    return (← classes[state]?, targets)

def splitRound (rows : List (List (Option Nat))) :
    List Nat × Nat → Option (List Nat ⊕ (List Nat × Nat))
  | (classes, count) => do
    let (finer, finerCount) := enterAll ∅ (← classSignatures rows classes)
    return if finerCount = count then .inl finer else .inr (finer, finerCount)

noncomputable def refineRows (rows : List (List (Option Nat))) (accepting : List Bool) : Option (List Nat) :=
  loop (splitRound rows) (enterAll ∅ (accepting.map Bool.toNat))

namespace Table
variable {n k : Nat}

theorem enterAll_toList {α : Type} [i : BEq α] [LawfulBEq α] [DecidableEq α] (values : Vector α n) :
    enterAll ∅ values.toList = ((number values).toList, (distinct values).length) := by
  obtain rfl : i = instBEqOfDecidableEq := lawful_beq_subsingleton _ _
  rw [enterAll_eq, number, Vector.toList_map]
  rfl

theorem map_idxOf_self {α : Type} [DecidableEq α] {l : List α} (h : l.Nodup) :
    l.map l.idxOf = List.range l.length := by
  apply List.ext_getElem (by simp)
  intro c hc _
  rw [List.length_map] at hc
  rw [List.getElem_map, List.getElem_range, h.idxOf_getElem c hc]

theorem distinct_number {α : Type} [i : BEq α] [LawfulBEq α] [DecidableEq α] (values : Vector α n) :
    distinct (number values) = List.range (distinct values).length := by
  obtain rfl : i = instBEqOfDecidableEq := lawful_beq_subsingleton _ _
  have hinj (v : α) (hv : v ∈ values.toList) (w : α) (_ : w ∈ values.toList)
      (h : (distinct values).idxOf v = (distinct values).idxOf w) : v = w :=
    (List.idxOf_inj (List.mem_eraseDups.2 hv)).1 h
  have hplaces := eraseDups_map values.toList hinj
  rw [distinct, number, Vector.toList_map, hplaces]
  exact map_idxOf_self (nodup_eraseDups values.toList)

theorem length_distinct_number {α : Type} [BEq α] [LawfulBEq α] [DecidableEq α] (values : Vector α n) :
    (distinct (number values)).length = (distinct values).length := by
  rw [distinct_number, List.length_range]

/-- The numbers in use are those below the count. -/
def Dense (classes : Vector Nat n) (count : Nat) : Prop := ∀ c, (∃ i, classes.get i = c) ↔ c < count

theorem Dense.get_lt {classes : Vector Nat n} {count : Nat} (h : Dense classes count) (i : Fin n) :
    classes.get i < count := (h _).1 ⟨i, rfl⟩

theorem dense_number {α : Type} [BEq α] [LawfulBEq α] [DecidableEq α] (values : Vector α n) :
    Dense (number values) (distinct (number values)).length := by
  intro c
  rw [← mem_distinct, length_distinct_number, distinct_number, List.mem_range]

theorem exists_refineFrom_eq (t : Table n k) (classes : Vector Nat n) :
    ∃ values : Vector (Nat × List (Option Nat)) n, t.refineFrom classes = number values := by
  fun_induction refineFrom t classes with
  | case1 _ _ _ ih => exact ih
  | case2 classes => exact ⟨t.signatures classes, rfl⟩

theorem dense_refine (t : Table n k) : Dense t.refine (distinct t.refine).length := by
  obtain ⟨values, hvalues⟩ := t.exists_refineFrom_eq (number t.accepting)
  rw [refine, hvalues]
  exact dense_number values

theorem mapM_lookUp_row (t : Table n k) (classes : Vector Nat n) (i : Fin n) :
    (t.row i).mapM (lookUp classes.toList) =
      some (List.ofFn fun j => (t.machine.step i j).map classes.get) := by
  apply mapM_ofFn
  intro j
  cases t.machine.step i j with
  | none => rfl
  | some d => rw [Option.map_some, lookUp, getElem?_toList]; rfl

theorem classSignatures_rows (t : Table n k) (classes : Vector Nat n) :
    classSignatures t.rows classes.toList = some (t.signatures classes).toList := by
  rw [classSignatures, rows, zipIdx_ofFn, signatures, Vector.toList_ofFn]
  apply mapM_ofFn
  intro i
  simp only [mapM_lookUp_row, getElem?_toList, toList_eq_ofFn (t.next.get i), List.map_ofFn]
  rfl

theorem splitRound_rows (t : Table n k) {classes finer : Vector Nat n} (count : Nat)
    (hfiner : finer = number (t.signatures classes)) :
    splitRound t.rows (classes.toList, count) =
      some (if (distinct finer).length = count then .inl finer.toList
        else .inr (finer.toList, (distinct finer).length)) := by
  subst hfiner
  rw [splitRound, classSignatures_rows]
  simp only [Option.bind_eq_bind, Option.bind_some, enterAll_toList, length_distinct_number]
  rfl

theorem loop_splitRound (t : Table n k) (classes : Vector Nat n) :
    loop (splitRound t.rows) (classes.toList, (distinct classes).length) =
      some (t.refineFrom classes).toList := by
  fun_induction refineFrom t classes with
  | case1 classes finer hmore ih =>
    have hround := t.splitRound_rows (distinct classes).length (rfl : finer = _)
    rw [if_neg (Nat.ne_of_gt hmore)] at hround
    rw [loop_of_next hround, ih]
  | case2 classes finer hmore =>
    have hfewer : (distinct classes).length ≤ (distinct finer).length := by
      apply length_distinct_le
      intro i j hij
      exact ((t.signatures_get_eq_iff classes i j).1 ((number_get_eq_iff _ i j).1 hij)).1
    have hround := t.splitRound_rows (distinct classes).length (rfl : finer = _)
    rw [if_pos (Nat.le_antisymm (Nat.le_of_not_lt hmore) hfewer)] at hround
    exact loop_of_last hround

theorem refineRows_rows (t : Table n k) :
    refineRows t.rows t.accepting.toList = some t.refine.toList := by
  have hinjective : Function.Injective Bool.toNat := by decide
  rw [refineRows, enterAll_map hinjective, enterAll_toList, ← length_distinct_number]
  exact t.loop_splitRound _

end Table
end EpsilonAutomata
