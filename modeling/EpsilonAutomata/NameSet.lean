/-!
Finite sets of state names in one standard form, the ascending list of the members. Two sets with the
same members are therefore equal (`ext`), and only finitely many sets draw their members from a given
list (`exists_subsets`).
-/
namespace EpsilonAutomata

structure NameSet where
  names : List String
  ascending : names.Pairwise (· < ·)
deriving DecidableEq

namespace NameSet

instance : Membership String NameSet := ⟨fun s x => x ∈ s.names⟩

instance (x : String) (s : NameSet) : Decidable (x ∈ s) :=
  inferInstanceAs (Decidable (x ∈ s.names))

theorem mem_names (s : NameSet) (x : String) : x ∈ s.names ↔ x ∈ s := Iff.rfl

instance : EmptyCollection NameSet := ⟨⟨[], List.Pairwise.nil⟩⟩

def isEmpty (s : NameSet) : Bool := s.names.isEmpty

def insertName (x : String) : List String → List String
  | [] => [x]
  | y :: ys => if x < y then x :: y :: ys else if x = y then y :: ys else y :: insertName x ys

theorem mem_insertName (x y : String) (l : List String) :
    y ∈ insertName x l ↔ y = x ∨ y ∈ l := by
  induction l with
  | nil => simp [insertName]
  | cons z l ih => grind [insertName]

theorem ascending_insertName (x : String) (l : List String) (h : l.Pairwise (· < ·)) :
    (insertName x l).Pairwise (· < ·) := by
  induction l with
  | nil => simp [insertName]
  | cons z l ih =>
    rw [List.pairwise_cons] at h
    unfold insertName
    split
    · next hxz =>
      refine List.pairwise_cons.2 ⟨?_, List.pairwise_cons.2 h⟩
      intro y hy
      rcases List.mem_cons.1 hy with rfl | hy
      · exact hxz
      · exact String.lt_trans hxz (h.1 y hy)
    · next hxz =>
      split
      · exact List.pairwise_cons.2 h
      · next hne =>
        refine List.pairwise_cons.2 ⟨?_, ih h.2⟩
        intro y hy
        rcases (mem_insertName x y l).1 hy with rfl | hy
        · exact String.not_le.1 fun hle => hne (String.le_antisymm hle (String.not_lt.1 hxz))
        · exact h.1 y hy

def insert (s : NameSet) (x : String) : NameSet :=
  ⟨insertName x s.names, ascending_insertName x s.names s.ascending⟩

def ofList (l : List String) : NameSet := l.foldl insert ∅

def filter (p : String → Bool) (s : NameSet) : NameSet :=
  ⟨s.names.filter p, s.ascending.sublist List.filter_sublist⟩

@[simp] theorem not_mem_empty (x : String) : ¬ x ∈ (∅ : NameSet) := List.not_mem_nil

@[simp] theorem mem_insert (s : NameSet) (x y : String) : y ∈ s.insert x ↔ y = x ∨ y ∈ s :=
  mem_insertName x y s.names

@[simp] theorem mem_filter (p : String → Bool) (s : NameSet) (x : String) :
    x ∈ s.filter p ↔ x ∈ s ∧ p x = true := List.mem_filter

theorem mem_foldl_insert (l : List String) (s : NameSet) (x : String) :
    x ∈ l.foldl insert s ↔ x ∈ s ∨ x ∈ l := by
  induction l generalizing s with
  | nil => simp
  | cons y l ih => simp [ih]; grind

@[simp] theorem mem_ofList (l : List String) (x : String) : x ∈ ofList l ↔ x ∈ l := by
  simp [ofList, mem_foldl_insert]

theorem nodup (s : NameSet) : s.names.Nodup :=
  s.ascending.imp fun h => String.ne_of_lt h

theorem ext {s t : NameSet} (h : ∀ x, x ∈ s ↔ x ∈ t) : s = t := by
  have perm : s.names.Perm t.names := (List.perm_ext_iff_of_nodup s.nodup t.nodup).2 h
  have : s.names = t.names :=
    perm.eq_of_pairwise (fun a b _ _ hab hba => absurd hba (String.lt_asymm hab)) s.ascending t.ascending
  cases s; cases t; simp_all

theorem exists_subsets (allowed : List String) :
    ∃ bound : List NameSet, ∀ s : NameSet, (∀ x ∈ s, x ∈ allowed) → s ∈ bound := by
  induction allowed with
  | nil =>
    refine ⟨[∅], fun s hs => List.mem_singleton.2 (ext fun x => ?_)⟩
    simpa using hs x
  | cons u rest ih =>
    obtain ⟨bound, hbound⟩ := ih
    refine ⟨bound ++ bound.map (insert · u), fun s hs => List.mem_append.2 ?_⟩
    by_cases hu : u ∈ s
    · refine Or.inr (List.mem_map.2 ⟨s.filter (· ≠ u), hbound _ ?_, ext fun x => ?_⟩)
      · intro x hx
        have hx' := (mem_filter _ s x).1 hx
        have := List.mem_cons.1 (hs x hx'.1)
        simp_all
      · by_cases hx : x = u <;> simp [hx, hu]
    · refine Or.inl (hbound s fun x hx => ?_)
      rcases List.mem_cons.1 (hs x hx) with rfl | h
      · exact absurd hx hu
      · exact h

end NameSet
end EpsilonAutomata
