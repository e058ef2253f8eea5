/-!
Finite sets that remember the order in which their members came: a member is listed once, at the
place where it first appeared. `=` compares the order too, `≈` compares the members alone.
-/
namespace EpsilonAutomata

structure OrderedSet (α : Type) where
  toList : List α
  nodup : toList.Nodup
deriving DecidableEq

namespace OrderedSet
variable {α : Type} [DecidableEq α]

instance : Membership α (OrderedSet α) := ⟨fun s x => x ∈ s.toList⟩

instance (x : α) (s : OrderedSet α) : Decidable (x ∈ s) :=
  inferInstanceAs (Decidable (x ∈ s.toList))

theorem mem_toList {α : Type} (s : OrderedSet α) (x : α) : x ∈ s.toList ↔ x ∈ s := Iff.rfl

def empty : OrderedSet α := ⟨[], List.nodup_nil⟩

instance : EmptyCollection (OrderedSet α) := ⟨empty⟩

def size (s : OrderedSet α) : Nat := s.toList.length

omit [DecidableEq α] in
theorem nodup_concat {l : List α} {x : α} (hl : l.Nodup) (hx : x ∉ l) : (l ++ [x]).Nodup := by
  rw [List.nodup_append]
  refine ⟨hl, by simp, ?_⟩
  rintro a ha b hb rfl
  exact hx (List.mem_singleton.1 hb ▸ ha)

/-- A new member goes to the end; a known one keeps its place. -/
def insert (s : OrderedSet α) (x : α) : OrderedSet α :=
  if h : x ∈ s.toList then s else ⟨s.toList ++ [x], nodup_concat s.nodup h⟩

def insertAll (s : OrderedSet α) (l : List α) : OrderedSet α := l.foldl insert s

def ofList (l : List α) : OrderedSet α := empty.insertAll l

omit [DecidableEq α] in
@[simp] theorem not_mem_empty (x : α) : ¬ x ∈ (∅ : OrderedSet α) := List.not_mem_nil

omit [DecidableEq α] in
theorem isEmpty_toList_iff (s : OrderedSet α) : s.toList.isEmpty = true ↔ s = ∅ := by
  rw [List.isEmpty_iff]
  constructor
  · intro h
    cases s with
    | mk toList nodup =>
      subst h
      rfl
  · rintro rfl
    rfl

@[simp] theorem mem_insert (s : OrderedSet α) (x y : α) : y ∈ s.insert x ↔ y ∈ s ∨ y = x := by
  unfold insert
  split
  · next h =>
    refine ⟨Or.inl, ?_⟩
    rintro (hy | rfl)
    · exact hy
    · exact h
  · simp [← mem_toList]

@[simp] theorem mem_insertAll (s : OrderedSet α) (l : List α) (y : α) :
    y ∈ s.insertAll l ↔ y ∈ s ∨ y ∈ l := by
  induction l generalizing s with
  | nil => simp [insertAll]
  | cons x l ih =>
    have step := ih (s.insert x)
    simp only [insertAll] at step
    simp [insertAll, step, or_assoc]

@[simp] theorem mem_ofList (l : List α) (y : α) : y ∈ ofList l ↔ y ∈ l := by
  have h : y ∈ ofList l ↔ y ∈ (∅ : OrderedSet α) ∨ y ∈ l := mem_insertAll ∅ l y
  simpa using h

theorem insert_of_mem {s : OrderedSet α} {x : α} (h : x ∈ s) : s.insert x = s := dif_pos h

theorem toList_insert_of_not_mem (s : OrderedSet α) {x : α} (h : x ∉ s) :
    (s.insert x).toList = s.toList ++ [x] := by
  unfold insert
  split
  · next hx => exact absurd hx h
  · rfl

theorem toList_insertAll (s : OrderedSet α) (l : List α) (h : (s.toList ++ l).Nodup) :
    (s.insertAll l).toList = s.toList ++ l := by
  induction l generalizing s with
  | nil => simp [insertAll]
  | cons x l ih =>
    have hx : x ∉ s := fun hx => (List.nodup_append.1 h).2.2 x hx x List.mem_cons_self rfl
    have hs := s.toList_insert_of_not_mem hx
    have hl : ((s.insert x).toList ++ l).Nodup := by simpa [hs] using h
    rw [insertAll, List.foldl_cons, ← insertAll, ih _ hl, hs]
    simp

theorem toList_ofList (l : List α) (h : l.Nodup) : (ofList l).toList = l :=
  toList_insertAll ∅ l h

theorem toList_insertAll_eq (s : OrderedSet α) (l : List α) :
    (s.insertAll l).toList = s.toList ++ (l.filter fun x => decide (x ∉ s)).eraseDups := by
  induction l generalizing s with
  | nil => simp [insertAll]
  | cons x l ih =>
    rw [insertAll, List.foldl_cons, ← insertAll, ih]
    by_cases hx : x ∈ s
    · have hs : s.insert x = s := insert_of_mem hx
      rw [hs, List.filter_cons_of_neg (by simpa using hx)]
    · have hlater : (l.filter fun y => decide (y ∉ s.insert x)) =
          (l.filter fun y => decide (y ∉ s)).filter fun y => !y == x := by
        rw [List.filter_filter]
        apply List.filter_congr
        intro y _
        by_cases hy : y = x <;> simp [hy]
      rw [toList_insert_of_not_mem s hx, List.filter_cons_of_pos (by simpa using hx),
        List.eraseDups_cons, hlater, List.append_assoc, List.singleton_append]

theorem toList_ofList_eq (l : List α) : (ofList l).toList = l.eraseDups := by
  have h : (ofList l).toList = [] ++ (l.filter fun x => decide (x ∉ (∅ : OrderedSet α))).eraseDups :=
    toList_insertAll_eq ∅ l
  rw [h, List.nil_append, List.filter_eq_self.2 (by simp)]

theorem ofList_toList (s : OrderedSet α) : ofList s.toList = s := by
  have h := toList_ofList s.toList s.nodup
  cases hs : ofList s.toList with
  | mk l hl =>
    rw [hs] at h
    subst h
    rfl

/-- The same members, in whatever order. -/
instance : HasEquiv (OrderedSet α) := ⟨fun s t => ∀ x, x ∈ s ↔ x ∈ t⟩

omit [DecidableEq α] in
theorem equiv_refl (s : OrderedSet α) : s ≈ s := fun _ => Iff.rfl

omit [DecidableEq α] in
theorem equiv_iff_subset (s t : OrderedSet α) :
    s ≈ t ↔ (∀ x ∈ s.toList, x ∈ t) ∧ ∀ x ∈ t.toList, x ∈ s := by
  constructor
  · exact fun h => ⟨fun x => (h x).1, fun x => (h x).2⟩
  · exact fun h x => ⟨h.1 x, h.2 x⟩

instance (s t : OrderedSet α) : Decidable (s ≈ t) :=
  decidable_of_iff _ (equiv_iff_subset s t).symm

end OrderedSet
end EpsilonAutomata
