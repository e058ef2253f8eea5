import EpsilonAutomata.Proofs.Derivative
import EpsilonAutomata.Proofs.Splitting
import EpsilonAutomata.Proofs.Worklist

/-! Equivalent states merged as it is carried out. Each class is given its first state, the classes get
the rows of these states, and those that the class of the start reaches are numbered anew. All members of
a class lead to members of the same classes, so a member of each is as good as its first: what is reached
are the states that `Table.merge` keeps, met in the same order. -/

namespace EpsilonAutomata

/-- A table of plain numbers that nothing has checked. -/
structure Grid where
  rows : List (List (Option Nat))
  accepting : List Bool

def Table.grid {n k : Nat} (t : Table n k) : Grid := ⟨t.rows, t.accepting.toList⟩

def classCount (classes : List Nat) : Nat :=
  match classes.max? with
  | none => 0
  | some largest => largest + 1

def noteState (found : List (Option Nat)) (state : Nat × Nat) : Option (List (Option Nat)) := do
  let known ← found[state.1]?
  return if known.isNone then found.set state.1 (some state.2) else found

def firstStates (classes : List Nat) : Option (List (Option Nat)) :=
  classes.zipIdx.foldlM noteState (List.replicate (classCount classes) none)

structure Merging where
  representatives : List (Option Nat)
  next : List (List (Option Nat))
  order : OrderedMap Nat Nat

namespace Grid

noncomputable def trimmed (g : Grid) : Option Grid := do
  let live ← liveStates g.rows g.accepting
  return { g with rows := ← trimRows g.rows live }

def classRow (g : Grid) (classes : List Nat) (first? : Option Nat) : Option (List (Option Nat)) := do
  let row ← g.rows[← first?]?
  row.mapM (lookUp classes)

noncomputable def merging (g : Grid) : Option Merging := do
  let classes ← refineRows g.rows g.accepting
  let representatives ← firstStates classes
  let next ← representatives.mapM (g.classRow classes)
  let initial ← classes[0]?
  -- only the order is of use: the rows are written when all classes have their numbers
  let (order, _) ← explore (fun c => next[c]?) initial
  return ⟨representatives, next, order⟩

end Grid

namespace Merging

/-- A class that had no number in the order would lose the transitions into it. -/
def row (merging : Merging) (c : Nat) : Option (List (Option Nat)) :=
  merging.next[c]?.map fun row => row.map fun target => target.bind merging.order.find?

def accepts (merging : Merging) (accepting : List Bool) (c : Nat) : Option Bool := do
  let first? ← merging.representatives[c]?
  accepting[← first?]?

def grid (merging : Merging) (accepting : List Bool) : Option Grid := do
  let rows ← merging.order.keys.mapM merging.row
  let accepting ← merging.order.keys.mapM (merging.accepts accepting)
  return ⟨rows, accepting⟩

/-- Every class has a first state, and no transition of a numbered class leads to one without number. -/
structure Complete (merging : Merging) : Prop where
  represented : ∀ first? ∈ merging.representatives, first?.isSome
  numbered : ∀ c ∈ merging.order.keys, ∃ row, merging.next[c]? = some row ∧
    ∀ d, some d ∈ row → ∃ i, merging.order.find? d = some i

end Merging

namespace Table
variable {n k : Nat}

def first? (classes : Vector Nat n) (c : Nat) : Option (Fin n) :=
  (List.finRange n).find? fun i => classes.get i == c

theorem exists_first?_get (classes : Vector Nat n) (i : Fin n) :
    ∃ d, first? classes (classes.get i) = some d ∧ classes.get d = classes.get i := by
  have hsome : (first? classes (classes.get i)).isSome := by
    rw [first?, List.find?_isSome]
    exact ⟨i, List.mem_finRange i, beq_iff_eq.2 rfl⟩
  obtain ⟨d, hd⟩ := Option.isSome_iff_exists.1 hsome
  rw [first?] at hd
  have hclass := List.find?_some hd
  exact ⟨d, hd, eq_of_beq hclass⟩

theorem Dense.exists_first? {classes : Vector Nat n} {count c : Nat} (h : Dense classes count)
    (hc : c < count) : ∃ d, first? classes c = some d := by
  obtain ⟨i, rfl⟩ := (h c).2 hc
  obtain ⟨d, hd, _⟩ := exists_first?_get classes i
  exact ⟨d, hd⟩

def firstAmong (classes : Vector Nat n) (count : Nat) (states : List (Fin n)) : List (Option Nat) :=
  (List.range count).map fun c => (states.find? fun i => classes.get i == c).map Fin.val

section firstStates
variable {classes : Vector Nat n} {count : Nat}

theorem noteState_firstAmong (states : List (Fin n)) (i : Fin n) (hi : classes.get i < count) :
    noteState (firstAmong classes count states) (classes.get i, i) =
      some (firstAmong classes count (states ++ [i])) := by
  have hknown : (firstAmong classes count states)[classes.get i]? =
      some ((states.find? fun d => classes.get d == classes.get i).map Fin.val) := by
    simp [firstAmong, hi]
  have hother (c : Nat) (hc : classes.get i ≠ c) : ([i].find? fun d => classes.get d == c) = none := by
    simp [hc]
  rw [noteState, hknown]
  apply congrArg some
  cases hfirst : states.find? fun d => classes.get d == classes.get i with
  | none =>
    apply List.ext_getElem (by simp [firstAmong])
    intro c _ _
    simp only [Option.map_none, Option.isNone_none, if_true, List.getElem_set, firstAmong,
      List.getElem_map, List.getElem_range, List.find?_append]
    split
    · next hc => simp [← hc, hfirst]
    · next hc => rw [hother c hc, Option.or_none]
  | some d =>
    apply List.ext_getElem (by simp [firstAmong])
    intro c _ _
    simp only [Option.map_some, Option.isNone_some, if_false, Bool.false_eq_true, firstAmong,
      List.getElem_map, List.getElem_range, List.find?_append]
    by_cases hc : classes.get i = c
    · simp [← hc, hfirst]
    · rw [hother c hc, Option.or_none]

theorem foldlM_noteState (h : Dense classes count) (done states : List (Fin n)) :
    (states.map fun i => (classes.get i, (i : Nat))).foldlM noteState (firstAmong classes count done) =
      some (firstAmong classes count (done ++ states)) := by
  induction states generalizing done with
  | nil => rw [List.append_nil]; rfl
  | cons i states ih =>
    rw [List.map_cons, List.foldlM_cons, noteState_firstAmong done i (h.get_lt i)]
    refine (ih (done ++ [i])).trans ?_
    rw [List.append_assoc]
    rfl

theorem classCount_toList (h : Dense classes count) :
    classCount classes.toList = count := by
  have hmem (c : Nat) : c ∈ classes.toList ↔ c < count := by
    rw [toList_eq_ofFn, List.mem_ofFn]
    exact h c
  rw [classCount]
  cases hmax : classes.toList.max? with
  | none =>
    rw [List.max?_eq_none_iff] at hmax
    have hnone := (hmem 0).not.1 (by simp [hmax])
    exact (Nat.eq_zero_of_not_pos hnone).symm
  | some largest =>
    obtain ⟨hlargest, hmost⟩ := List.max?_eq_some_iff.1 hmax
    have hlt := (hmem largest).1 hlargest
    have hge := hmost (count - 1) ((hmem _).2 (by omega))
    show largest + 1 = count
    omega

theorem firstStates_toList (h : Dense classes count) :
    firstStates classes.toList = some ((List.range count).map fun c => (first? classes c).map Fin.val) := by
  have hfold := foldlM_noteState h [] (List.finRange n)
  rw [firstStates, classCount_toList h, toList_eq_ofFn, zipIdx_ofFn, List.ofFn_eq_map]
  have hempty : List.replicate count none = firstAmong classes count [] := by
    simp [firstAmong]
  rw [hempty]
  exact hfold

end firstStates

def classMachine (t : Table n k) (classes : Vector Nat n) : Machine Nat k where
  start := classes.get t.start
  step c j := (first? classes c).bind fun i => (t.machine.step i j).map classes.get
  accepting c := (first? classes c).any t.machine.accepting

/-- In the classes of a refinement any member will do for the first. -/
theorem morphism_classMachine (t : Table n k) :
    t.quotient.Morphism (t.classMachine t.refine) t.refine.get where
  start := classes_representatives t.refine t.start
  step i j := by
    obtain ⟨_, hstable⟩ := t.refineFrom_spec _ t.sound_number_accepting
    obtain ⟨first, hfirst, hclass⟩ := exists_first?_get t.refine i
    show (first? t.refine (t.refine.get i)).bind _ =
      ((t.machine.step i j).map (representatives t.refine).get).map t.refine.get
    rw [hfirst, Option.map_map]
    refine (hstable first i hclass j).trans ?_
    congr 1
    funext d
    exact (classes_representatives t.refine d).symm
  accepting i := by
    obtain ⟨hsound, _⟩ := t.refineFrom_spec _ t.sound_number_accepting
    obtain ⟨first, hfirst, hclass⟩ := exists_first?_get t.refine i
    show (first? t.refine (t.refine.get i)).any t.machine.accepting = _
    rw [hfirst]
    exact hsound.accepting first i hclass

theorem bounded_classMachine (t : Table n k) : (t.classMachine t.refine).Bounded :=
  t.morphism_classMachine.bounded (bounded_of_finRange _ _)

theorem merge_eq_tabulate (t : Table n k) :
    (⟨_, t.merge⟩ : Σ n, Table n k) = ⟨_, (t.classMachine t.refine).tabulate t.bounded_classMachine⟩ := by
  apply Machine.tabulate_congr t.morphism_classMachine
  intro i d hi hd hsame
  obtain ⟨i, rfl⟩ := exists_representative hi
  obtain ⟨d, rfl⟩ := exists_representative hd
  rw [classes_representatives, classes_representatives] at hsame
  exact representatives_congr t.refine i d hsame

end Table

namespace Machine
variable {σ : Type} [DecidableEq σ] {k : Nat}

theorem rows_tabulate (m : Machine σ k) (bounded : m.Bounded) :
    (m.tabulate bounded).rows = (m.states bounded).map (m.numberedRow (m.states bounded)) := by
  have hlist := congrArg (List.map (m.numberedRow (m.states bounded))) (List.ofFn_get (m.states bounded))
  rw [List.map_ofFn] at hlist
  rw [← hlist, Table.rows]
  apply congrArg List.ofFn
  funext i
  rw [Table.row, Function.comp_apply, numberedRow, targets, List.ofFn_eq_map, List.map_map]
  apply List.map_congr_left
  intro j _
  rw [Function.comp_apply, (m.tabulate_morphism bounded).step, Option.map_map]
  congr 1
  funext d
  exact ((m.nodup_states bounded).idxOf_getElem d d.isLt).symm

theorem accepting_tabulate (m : Machine σ k) (bounded : m.Bounded) :
    (m.tabulate bounded).accepting.toList = (m.states bounded).map m.accepting := rfl

end Machine

namespace Table
variable {n k : Nat} (t : Table n k)

theorem classMachine_targets (classes : Vector Nat n) {c : Nat} {i : Fin n}
    (h : first? classes c = some i) :
    (t.classMachine classes).targets c = List.ofFn fun j => (t.machine.step i j).map classes.get := by
  rw [Machine.targets, ← List.ofFn_eq_map]
  apply congrArg List.ofFn
  funext j
  show (first? classes c).bind _ = _
  rw [h]
  rfl

def classRows (classes : Vector Nat n) (count : Nat) : List (List (Option Nat)) :=
  (List.range count).map (t.classMachine classes).targets

theorem mapM_classRows {classes : Vector Nat n} {count : Nat}
    (h : Dense classes count) :
    ((List.range count).map fun c => (first? classes c).map Fin.val).mapM
      (t.grid.classRow classes.toList) = some (t.classRows classes count) := by
  rw [List.mapM_map]
  apply mapM_eq_some_map
  intro c hc
  obtain ⟨i, hi⟩ := h.exists_first? (List.mem_range.1 hc)
  rw [t.classMachine_targets classes hi, ← mapM_lookUp_row, Function.comp_apply, hi]
  simp only [Grid.classRow, grid, Option.map_some, Option.bind_eq_bind, Option.bind_some, rows,
    getElem?_ofFn_val]

theorem getElem?_classRows (classes : Vector Nat n) {count c : Nat} (hc : c < count) :
    (t.classRows classes count)[c]? = some ((t.classMachine classes).targets c) := by
  rw [classRows, List.getElem?_map, List.getElem?_range hc]
  rfl

theorem Dense.lt_of_reachable {classes : Vector Nat n} {count c : Nat} (h : Dense classes count)
    (hc : Search.Reachable (t.classMachine classes).successors [(t.classMachine classes).start] c) :
    c < count := by
  cases hc with
  | start hc => exact List.mem_singleton.1 hc ▸ h.get_lt t.start
  | step _ hc =>
    obtain ⟨j, hj⟩ := ((t.classMachine classes).mem_successors _ _).1 hc
    obtain ⟨i, _, hi⟩ := Option.bind_eq_some_iff.1 hj
    obtain ⟨d, _, rfl⟩ := Option.map_eq_some_iff.1 hi
    exact h.get_lt d

def merged (order : OrderedMap Nat Nat) : Merging where
  representatives :=
    (List.range (distinct t.refine).length).map fun c => (first? t.refine c).map Fin.val
  next := t.classRows t.refine (distinct t.refine).length
  order := order

section merged
variable {t} {order : OrderedMap Nat Nat}
  (hcounts : Counts order ⟨(t.classMachine t.refine).states t.bounded_classMachine,
    (t.classMachine t.refine).nodup_states t.bounded_classMachine⟩)

include hcounts

theorem exists_of_mem_keys {c : Nat} (hc : c ∈ order.keys) :
    (t.merged order).next[c]? = some ((t.classMachine t.refine).targets c) ∧
      ∃ i, first? t.refine c = some i ∧ (t.merged order).representatives[c]? = some (some (i : Nat)) := by
  rw [hcounts.keys_eq, Machine.mem_states_iff] at hc
  have hlt := t.dense_refine.lt_of_reachable t hc
  obtain ⟨i, hi⟩ := t.dense_refine.exists_first? hlt
  refine ⟨t.getElem?_classRows t.refine hlt, i, hi, ?_⟩
  rw [merged, List.getElem?_map, List.getElem?_range hlt, Option.map_some, hi]
  rfl

theorem find?_of_mem_targets {c d : Nat} (hc : c ∈ order.keys)
    (hd : some d ∈ (t.classMachine t.refine).targets c) :
    order.find? d = some (((t.classMachine t.refine).states t.bounded_classMachine).idxOf d) := by
  rw [hcounts.keys_eq, Machine.mem_states_iff] at hc
  apply hcounts.find?_eq_some
  apply (Machine.mem_states_iff _ t.bounded_classMachine d).2
  refine .step hc ?_
  rwa [← Machine.reduceOption_targets, List.reduceOption_mem_iff]

theorem complete_merged : (t.merged order).Complete where
  represented first hfirst := by
    obtain ⟨c, hc, rfl⟩ := List.mem_map.1 hfirst
    obtain ⟨i, hi⟩ := t.dense_refine.exists_first? (List.mem_range.1 hc)
    rw [hi]
    rfl
  numbered c hc :=
    ⟨_, (exists_of_mem_keys hcounts hc).1, fun _ hd => ⟨_, find?_of_mem_targets hcounts hc hd⟩⟩

theorem row_merged {c : Nat} (hc : c ∈ order.keys) :
    (t.merged order).row c = some ((t.classMachine t.refine).numberedRow
      ((t.classMachine t.refine).states t.bounded_classMachine) c) := by
  rw [Merging.row, (exists_of_mem_keys hcounts hc).1]
  apply congrArg some
  apply List.map_congr_left
  intro target htarget
  cases target with
  | none => rfl
  | some d => exact find?_of_mem_targets hcounts hc htarget

theorem accepts_merged {c : Nat} (hc : c ∈ order.keys) :
    (t.merged order).accepts t.accepting.toList c = some ((t.classMachine t.refine).accepting c) := by
  obtain ⟨_, i, hi, hfirst⟩ := exists_of_mem_keys hcounts hc
  have haccepting : (t.classMachine t.refine).accepting c = t.accepting.get i := by
    show (first? t.refine c).any _ = _
    rw [hi]
    rfl
  rw [Merging.accepts, hfirst, haccepting]
  exact getElem?_toList t.accepting i

theorem grid_merged : (t.merged order).grid t.accepting.toList = some t.merge.grid := by
  have hsame := congrArg (fun t : Σ n, Table n k => t.2.grid) t.merge_eq_tabulate
  have hrows : order.keys.mapM (t.merged order).row = some _ :=
    mapM_eq_some_map fun c hc => row_merged hcounts hc
  have haccepting : order.keys.mapM ((t.merged order).accepts t.accepting.toList) = some _ :=
    mapM_eq_some_map fun c hc => accepts_merged hcounts hc
  rw [hcounts.keys_eq, ← Machine.rows_tabulate] at hrows
  rw [hcounts.keys_eq, ← Machine.accepting_tabulate] at haccepting
  refine Eq.trans ?_ (congrArg some hsame.symm)
  rw [Merging.grid, show (t.merged order).order.keys = _ from hcounts.keys_eq, hrows, haccepting]
  rfl

end merged

/-- Merging goes through: each class has its first state, what is numbered leads to what is numbered,
and the table that comes out is that of the states kept. -/
theorem exists_merging_eq (hstart : t.start.val = 0) :
    ∃ merging, t.grid.merging = some merging ∧ merging.Complete ∧
      merging.grid t.grid.accepting = some t.merge.grid := by
  have hdense := t.dense_refine
  have hinitial : t.refine.toList[0]? = some (t.classMachine t.refine).start := by
    rw [← hstart, getElem?_toList]
    rfl
  obtain ⟨⟨order, rows⟩, hexplore, hcounts, _⟩ :=
    (t.classMachine t.refine).exists_explore_eq t.bounded_classMachine _ fun c hc =>
      t.getElem?_classRows t.refine (hdense.lt_of_reachable t hc)
  refine ⟨t.merged order, ?_, complete_merged hcounts, grid_merged hcounts⟩
  rw [Grid.merging]
  simp only [refineRows_rows t, firstStates_toList hdense, t.mapM_classRows hdense, hinitial, hexplore,
    Option.bind_eq_bind, Option.bind_some, show t.grid.rows = t.rows from rfl,
    show t.grid.accepting = t.accepting.toList from rfl]
  rfl

end Table
end EpsilonAutomata
