/-!
Finite maps that remember the order in which their keys came. A key that is written again keeps its
place. `=` compares the order too, `≈` compares key by key.
-/
namespace EpsilonAutomata

structure OrderedMap (κ ν : Type) where
  entries : List (κ × ν)
  nodup : (entries.map Prod.fst).Nodup
deriving DecidableEq

namespace OrderedMap
variable {κ ν : Type} [DecidableEq κ]

def keys (m : OrderedMap κ ν) : List κ := m.entries.map Prod.fst
def values (m : OrderedMap κ ν) : List ν := m.entries.map Prod.snd

def lookUp? (k : κ) : List (κ × ν) → Option ν
  | [] => none
  | e :: rest => if e.1 = k then some e.2 else lookUp? k rest

def find? (m : OrderedMap κ ν) (k : κ) : Option ν := lookUp? k m.entries

def empty : OrderedMap κ ν := ⟨[], List.nodup_nil⟩

instance : EmptyCollection (OrderedMap κ ν) := ⟨empty⟩

/-- Applies `f` to the value at `k` where the key stands, or adds the key at the end. -/
def alterEntries (k : κ) (f : Option ν → ν) : List (κ × ν) → List (κ × ν)
  | [] => [(k, f none)]
  | e :: rest => if e.1 = k then (e.1, f (some e.2)) :: rest else e :: alterEntries k f rest

theorem keys_alterEntries (k : κ) (f : Option ν → ν) (l : List (κ × ν)) :
    (alterEntries k f l).map Prod.fst =
      if k ∈ l.map Prod.fst then l.map Prod.fst else l.map Prod.fst ++ [k] := by
  induction l with
  | nil => simp [alterEntries]
  | cons e rest ih =>
    by_cases h : e.1 = k
    · simp [alterEntries, h]
    · have hk : ¬ k = e.1 := fun hk => h hk.symm
      by_cases hm : k ∈ rest.map Prod.fst <;> simp_all [alterEntries]

theorem nodup_alterEntries (k : κ) (f : Option ν → ν) (l : List (κ × ν))
    (h : (l.map Prod.fst).Nodup) : ((alterEntries k f l).map Prod.fst).Nodup := by
  rw [keys_alterEntries]
  split
  · exact h
  · next hk =>
    rw [List.nodup_append]
    refine ⟨h, by simp, ?_⟩
    rintro a ha b hb rfl
    exact hk (List.mem_singleton.1 hb ▸ ha)

def alter (m : OrderedMap κ ν) (k : κ) (f : Option ν → ν) : OrderedMap κ ν :=
  ⟨alterEntries k f m.entries, nodup_alterEntries k f m.entries m.nodup⟩

def insert (m : OrderedMap κ ν) (k : κ) (v : ν) : OrderedMap κ ν := m.alter k fun _ => v

/-- Of repeated keys the last value counts, at the place of the first. -/
def ofList (l : List (κ × ν)) : OrderedMap κ ν := l.foldl (fun m e => m.insert e.1 e.2) empty

def map {μ : Type} (f : ν → μ) (m : OrderedMap κ ν) : OrderedMap κ μ :=
  ⟨m.entries.map fun e => (e.1, f e.2), by simpa [Function.comp_def] using m.nodup⟩

omit [DecidableEq κ] in
theorem eq_of_entries_eq {m n : OrderedMap κ ν} (h : m.entries = n.entries) : m = n := by
  cases m
  cases n
  subst h
  rfl

omit [DecidableEq κ] in
theorem entries_map {μ : Type} (f : ν → μ) (m : OrderedMap κ ν) :
    (m.map f).entries = m.entries.map fun e => (e.1, f e.2) := rfl

omit [DecidableEq κ] in
theorem map_map_eq_self {μ : Type} (f : ν → μ) (g : μ → ν) (h : ∀ v, g (f v) = v)
    (m : OrderedMap κ ν) : (m.map f).map g = m := by
  apply eq_of_entries_eq
  simp [entries_map, Function.comp_def, h]

theorem keys_alter (m : OrderedMap κ ν) (k : κ) (f : Option ν → ν) :
    (m.alter k f).keys = if k ∈ m.keys then m.keys else m.keys ++ [k] :=
  keys_alterEntries k f m.entries

theorem lookUp?_alterEntries (k j : κ) (f : Option ν → ν) (l : List (κ × ν)) :
    lookUp? j (alterEntries k f l) = if j = k then some (f (lookUp? k l)) else lookUp? j l := by
  induction l with
  | nil => by_cases h : k = j <;> simp [alterEntries, lookUp?, h, eq_comm]
  | cons e rest ih => by_cases h : e.1 = k <;> grind [alterEntries, lookUp?]

theorem find?_alter (m : OrderedMap κ ν) (k j : κ) (f : Option ν → ν) :
    (m.alter k f).find? j = if j = k then some (f (m.find? k)) else m.find? j :=
  lookUp?_alterEntries k j f m.entries

theorem lookUp?_eq_none (k : κ) (l : List (κ × ν)) :
    lookUp? k l = none ↔ k ∉ l.map Prod.fst := by
  induction l with
  | nil => simp [lookUp?]
  | cons e rest ih => by_cases h : e.1 = k <;> grind [lookUp?]

theorem find?_eq_none (m : OrderedMap κ ν) (k : κ) : m.find? k = none ↔ k ∉ m.keys :=
  lookUp?_eq_none k m.entries

theorem mem_of_lookUp? {k : κ} {v : ν} {l : List (κ × ν)} (h : lookUp? k l = some v) :
    (k, v) ∈ l := by
  induction l with
  | nil => simp [lookUp?] at h
  | cons e rest ih =>
    unfold lookUp? at h
    split at h
    · next hk => obtain rfl := Option.some.inj h; subst hk; exact List.mem_cons_self
    · exact List.mem_cons_of_mem e (ih h)

theorem lookUp?_of_mem {k : κ} {v : ν} {l : List (κ × ν)} (hl : (l.map Prod.fst).Nodup)
    (h : (k, v) ∈ l) : lookUp? k l = some v := by
  induction l with
  | nil => cases h
  | cons e rest ih =>
    rw [List.map_cons, List.nodup_cons] at hl
    rcases List.mem_cons.1 h with rfl | h
    · simp [lookUp?]
    · have hk : e.1 ≠ k := fun hk => hl.1 (hk ▸ List.mem_map.2 ⟨(k, v), h, rfl⟩)
      simpa [lookUp?, hk] using ih hl.2 h

theorem find?_eq_some {m : OrderedMap κ ν} {k : κ} {v : ν} :
    m.find? k = some v ↔ (k, v) ∈ m.entries :=
  ⟨mem_of_lookUp?, lookUp?_of_mem m.nodup⟩

theorem mem_keys_iff {m : OrderedMap κ ν} {k : κ} : k ∈ m.keys ↔ ∃ v, m.find? k = some v := by
  simp [keys, find?_eq_some]

theorem find?_map {μ : Type} (f : ν → μ) (m : OrderedMap κ ν) (k : κ) :
    (m.map f).find? k = (m.find? k).map f := by
  have hentries (l : List (κ × ν)) : lookUp? k (l.map fun e => (e.1, f e.2)) = (lookUp? k l).map f := by
    induction l with
    | nil => rfl
    | cons e rest ih => by_cases h : e.1 = k <;> simp [lookUp?, h, ih]
  exact hentries m.entries

theorem alterEntries_of_not_mem (k : κ) (f : Option ν → ν) (l : List (κ × ν)) (h : k ∉ l.map Prod.fst) :
    alterEntries k f l = l ++ [(k, f none)] := by
  induction l with
  | nil => rfl
  | cons e rest ih =>
    rw [List.map_cons, List.mem_cons, not_or] at h
    rw [alterEntries, if_neg fun hk => h.1 hk.symm, ih h.2, List.cons_append]

theorem entries_foldl_insert (m : OrderedMap κ ν) (l : List (κ × ν))
    (h : ((m.entries ++ l).map Prod.fst).Nodup) :
    (l.foldl (fun m e => m.insert e.1 e.2) m).entries = m.entries ++ l := by
  induction l generalizing m with
  | nil => simp
  | cons e l ih =>
    rw [List.map_append] at h
    have he : e.1 ∉ m.entries.map Prod.fst := fun he =>
      (List.nodup_append.1 h).2.2 e.1 he e.1 List.mem_cons_self rfl
    have hm : (m.insert e.1 e.2).entries = m.entries ++ [e] := alterEntries_of_not_mem e.1 _ m.entries he
    have hl : (((m.insert e.1 e.2).entries ++ l).map Prod.fst).Nodup := by simpa [hm] using h
    rw [List.foldl_cons, ih _ hl, hm]
    simp

theorem entries_ofList (l : List (κ × ν)) (h : (l.map Prod.fst).Nodup) : (ofList l).entries = l :=
  entries_foldl_insert empty l h

theorem foldl_insert_entries (m : OrderedMap κ ν) :
    m.entries.foldl (fun m e => m.insert e.1 e.2) ∅ = m :=
  eq_of_entries_eq (entries_ofList m.entries m.nodup)

theorem alterEntries_eq_self (k : κ) (f : Option ν → ν) (l : List (κ × ν)) (hk : k ∈ l.map Prod.fst)
    (hf : ∀ v, lookUp? k l = some v → f (some v) = v) : alterEntries k f l = l := by
  induction l with
  | nil => cases hk
  | cons e rest ih =>
    rw [alterEntries]
    split
    · next he => rw [hf e.2 (by rw [lookUp?, if_pos he])]
    · next he =>
      rw [List.map_cons, List.mem_cons] at hk
      rw [ih (hk.resolve_left fun h => he h.symm)]
      intro v hv
      exact hf v (by rw [lookUp?, if_neg he, hv])

theorem alter_eq_self (m : OrderedMap κ ν) (k : κ) (f : Option ν → ν) (hk : k ∈ m.keys)
    (hf : ∀ v, m.find? k = some v → f (some v) = v) : m.alter k f = m := by
  cases m with
  | mk entries nodup =>
    simp only [alter, mk.injEq]
    exact alterEntries_eq_self k f entries hk hf

/-- Key by key, values related by `≈`. -/
def Agrees [HasEquiv ν] : Option ν → Option ν → Prop
  | none, none => True
  | some v, some w => v ≈ w
  | _, _ => False

instance [HasEquiv ν] [∀ v w : ν, Decidable (v ≈ w)] : (v w : Option ν) → Decidable (Agrees v w)
  | none, none => inferInstanceAs (Decidable True)
  | some v, some w => inferInstanceAs (Decidable (v ≈ w))
  | none, some _ => inferInstanceAs (Decidable False)
  | some _, none => inferInstanceAs (Decidable False)

instance [HasEquiv ν] : HasEquiv (OrderedMap κ ν) :=
  ⟨fun m n => ∀ k, Agrees (m.find? k) (n.find? k)⟩

omit [DecidableEq κ] in
theorem agrees_iff [HasEquiv ν] (v w : Option ν) :
    Agrees v w ↔ (∀ x, v = some x → ∃ y, w = some y ∧ x ≈ y) ∧ ∀ y, w = some y → ∃ x, v = some x ∧ x ≈ y := by
  cases v <;> cases w <;> simp [Agrees]

theorem equiv_refl [HasEquiv ν] (h : ∀ v : ν, v ≈ v) (m : OrderedMap κ ν) : m ≈ m := by
  intro k
  cases m.find? k with
  | none => trivial
  | some v => exact h v

theorem equiv_iff_keys [HasEquiv ν] (m n : OrderedMap κ ν) :
    m ≈ n ↔ ∀ k ∈ m.keys ++ n.keys, Agrees (m.find? k) (n.find? k) := by
  constructor
  · exact fun h k _ => h k
  · intro h k
    by_cases hk : k ∈ m.keys ++ n.keys
    · exact h k hk
    · rw [List.mem_append, not_or] at hk
      rw [(m.find?_eq_none k).2 hk.1, (n.find?_eq_none k).2 hk.2]
      trivial

instance [HasEquiv ν] [∀ v w : ν, Decidable (v ≈ w)] (m n : OrderedMap κ ν) : Decidable (m ≈ n) :=
  decidable_of_iff _ (equiv_iff_keys m n).symm

end OrderedMap
end EpsilonAutomata
