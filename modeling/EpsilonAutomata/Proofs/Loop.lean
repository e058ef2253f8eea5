import EpsilonAutomata.OrderedMap
import EpsilonAutomata.OrderedSet
import Mathlib

/-! Loops that go on until a round says what to stop with, and lists read at places that may lie outside.
Where there is a result, every round had one, no place was outside and some round was the last. The
numbers that a map hands out one after another are the places of the values in the order in which they
first came. -/

namespace EpsilonAutomata

section loops
variable {σ ρ : Type}

def roundOf (round : σ → Option (ρ ⊕ σ)) : σ →. ρ ⊕ σ := fun s => Part.ofOption (round s)

open Classical in
/-- Repeats a round until one says what to stop with. There is no result if a round has none, and none
either if no round is the last. -/
noncomputable def loop (round : σ → Option (ρ ⊕ σ)) (s : σ) : Option ρ :=
  ((roundOf round).fix s).toOption

theorem loop_of_last {round : σ → Option (ρ ⊕ σ)} {s : σ} {r : ρ} (h : round s = some (.inl r)) :
    loop round s = some r := by
  have hlast : Sum.inl r ∈ roundOf round s := Part.mem_ofOption.2 h
  classical
  exact Part.toOption_eq_some_iff.2 (PFun.fix_stop hlast)

theorem loop_of_next {round : σ → Option (ρ ⊕ σ)} {s t : σ} (h : round s = some (.inr t)) :
    loop round s = loop round t := by
  have hnext : Sum.inr t ∈ roundOf round s := Part.mem_ofOption.2 h
  rw [loop, loop, PFun.fix_fwd_eq hnext]

/-- A loop ends if each round that is not the last keeps an invariant and makes a measure smaller. -/
theorem exists_loop_eq_some {round : σ → Option (ρ ⊕ σ)} (inv : σ → Prop) (measure : σ → Nat)
    (post : ρ → Prop)
    (hround : ∀ s, inv s → (∃ r, round s = some (.inl r) ∧ post r) ∨
      ∃ t, round s = some (.inr t) ∧ inv t ∧ measure t < measure s) (s : σ) (hs : inv s) :
    ∃ r, loop round s = some r ∧ post r := by
  induction h : measure s using Nat.strong_induction_on generalizing s with
  | _ n ih =>
    subst h
    rcases hround s hs with ⟨r, hr, hpost⟩ | ⟨t, ht, hinv, hless⟩
    · exact ⟨r, loop_of_last hr, hpost⟩
    · rw [loop_of_next ht]
      exact ih _ hless t hinv rfl

end loops

section places
variable {α β : Type} {n : Nat}

theorem mapM_eq_some_map {f : α → Option β} {g : α → β} {l : List α} (h : ∀ x ∈ l, f x = some (g x)) :
    l.mapM f = some (l.map g) := by
  induction l with
  | nil => rfl
  | cons x l ih =>
    rw [List.mapM_cons, h x List.mem_cons_self, ih fun y hy => h y (List.mem_cons_of_mem x hy)]
    rfl

theorem getElem?_ofFn_val (f : Fin n → α) (i : Fin n) : (List.ofFn f)[(i : Nat)]? = some (f i) := by
  simp

theorem mapM_ofFn {f : α → Option β} {g : Fin n → α} {h : Fin n → β} (heq : ∀ i, f (g i) = some (h i)) :
    (List.ofFn g).mapM f = some (List.ofFn h) := by
  have hmap := mapM_eq_some_map (l := List.finRange n) fun i _ => heq i
  rw [List.ofFn_eq_map, List.ofFn_eq_map, List.mapM_map]
  exact hmap

theorem zipIdx_ofFn (f : Fin n → α) : (List.ofFn f).zipIdx = List.ofFn fun i => (f i, (i : Nat)) := by
  apply List.ext_getElem (by simp)
  intro i _ _
  simp

theorem toList_eq_ofFn (v : Vector α n) : v.toList = List.ofFn v.get := by
  apply List.ext_getElem (by simp)
  intro i _ _
  simp [Vector.get]

theorem getElem?_toList (v : Vector α n) (i : Fin n) : v.toList[(i : Nat)]? = some (v.get i) := by
  rw [toList_eq_ofFn, getElem?_ofFn_val]

def lookUp (l : List α) : Option Nat → Option (Option α)
  | none => some none
  | some i => l[i]?.map some

end places

section numbering
variable {α : Type} [DecidableEq α]

def enter (ids : OrderedMap α Nat) (v : α) : Nat × OrderedMap α Nat :=
  match ids.find? v with
  | some i => (i, ids)
  | none => (ids.entries.length, ids.insert v ids.entries.length)

def enterAll (ids : OrderedMap α Nat) : List α → List Nat × Nat
  | [] => ([], ids.entries.length)
  | v :: rest =>
    let (i, ids') := enter ids v
    let (numbers, count) := enterAll ids' rest
    (i :: numbers, count)

/-- The number of a value is its place. -/
def Counts (ids : OrderedMap α Nat) (s : OrderedSet α) : Prop := ids.entries = s.toList.zipIdx

variable {ids : OrderedMap α Nat} {s : OrderedSet α}

omit [DecidableEq α] in
theorem counts_empty : Counts (∅ : OrderedMap α Nat) ∅ := rfl

omit [DecidableEq α] in
theorem Counts.length_entries (h : Counts ids s) : ids.entries.length = s.size := by
  rw [h, List.length_zipIdx]
  rfl

omit [DecidableEq α] in
theorem Counts.keys_eq (h : Counts ids s) : ids.keys = s.toList := by
  rw [OrderedMap.keys, h, List.zipIdx_map_fst]

theorem Counts.find?_eq_some (h : Counts ids s) {v : α} (hv : v ∈ s) :
    ids.find? v = some (s.toList.idxOf v) := by
  rw [OrderedMap.find?_eq_some, h, List.mk_mem_zipIdx_iff_getElem?]
  exact List.getElem?_idxOf hv

theorem Counts.find?_eq_none (h : Counts ids s) {v : α} (hv : v ∉ s) : ids.find? v = none := by
  rw [OrderedMap.find?_eq_none, h.keys_eq]
  exact hv

theorem Counts.enter (h : Counts ids s) (v : α) :
    (enter ids v).1 = (s.insert v).toList.idxOf v ∧ Counts (enter ids v).2 (s.insert v) := by
  by_cases hv : v ∈ s
  · have hsame : s.insert v = s := OrderedSet.insert_of_mem hv
    rw [EpsilonAutomata.enter, h.find?_eq_some hv, hsame]
    exact ⟨rfl, h⟩
  · have hnew := s.toList_insert_of_not_mem hv
    rw [EpsilonAutomata.enter, h.find?_eq_none hv]
    constructor
    · rw [h.length_entries, hnew, List.idxOf_append_of_notMem hv]
      simp [OrderedSet.size]
    · have hkeys : v ∉ ids.entries.map Prod.fst := by
        rw [← OrderedMap.keys, h.keys_eq]
        exact hv
      have hinsert : (ids.insert v ids.entries.length).entries = ids.entries ++ [(v, ids.entries.length)] :=
        OrderedMap.alterEntries_of_not_mem v _ ids.entries hkeys
      rw [Counts, hinsert, hnew, List.zipIdx_append, h.length_entries, h]
      simp [OrderedSet.size]

theorem prefix_insertAll (s : OrderedSet α) (l : List α) : s.toList <+: (s.insertAll l).toList := by
  rw [OrderedSet.toList_insertAll_eq]
  exact List.prefix_append _ _

theorem idxOf_eq_of_prefix {l l' : List α} (h : l <+: l') {v : α} (hv : v ∈ l) : l.idxOf v = l'.idxOf v := by
  obtain ⟨rest, rfl⟩ := h
  rw [List.idxOf_append_of_mem hv]

theorem Counts.enterAll (h : Counts ids s) (values : List α) :
    enterAll ids values = (values.map (s.insertAll values).toList.idxOf, (s.insertAll values).size) := by
  induction values generalizing ids s with
  | nil => rw [EpsilonAutomata.enterAll, h.length_entries]; rfl
  | cons v values ih =>
    obtain ⟨hnumber, hcounts⟩ := h.enter v
    have hplace : (s.insert v).toList.idxOf v = (s.insertAll (v :: values)).toList.idxOf v :=
      idxOf_eq_of_prefix (prefix_insertAll (s.insert v) values) ((s.mem_insert v v).2 (.inr rfl))
    rw [EpsilonAutomata.enterAll]
    simp only [ih hcounts, hnumber, hplace, List.map_cons]
    rfl

theorem enterAll_eq (values : List α) :
    enterAll ∅ values = (values.map values.eraseDups.idxOf, values.eraseDups.length) := by
  have h := counts_empty.enterAll values
  rwa [show (∅ : OrderedSet α).insertAll values = .ofList values from rfl, OrderedSet.size,
    OrderedSet.toList_ofList_eq] at h

section injective
variable {β : Type} [DecidableEq β] {f : α → β}

theorem idxOf_map (hf : Function.Injective f) (l : List α) (v : α) :
    (l.map f).idxOf (f v) = l.idxOf v := by
  induction l with
  | nil => rfl
  | cons w l ih => rw [List.map_cons, List.idxOf_cons, List.idxOf_cons, hf.beq_eq, ih]

theorem eraseDups_map (l : List α) (hf : ∀ v ∈ l, ∀ w ∈ l, f v = f w → v = w) :
    (l.map f).eraseDups = l.eraseDups.map f := by
  match l with
  | [] => rfl
  | v :: rest =>
    have hfilter (w : α) (hw : w ∈ rest) : ((fun w => !w == f v) ∘ f) w = !w == v := by
      have hsame : f w = f v ↔ w = v :=
        ⟨hf w (List.mem_cons_of_mem v hw) v List.mem_cons_self, congrArg f⟩
      simp [hsame]
    have hrest := eraseDups_map (rest.filter fun w => !w == v) fun w hw u hu =>
      hf w (List.mem_cons_of_mem v (List.mem_of_mem_filter hw)) u
        (List.mem_cons_of_mem v (List.mem_of_mem_filter hu))
    rw [List.map_cons, List.eraseDups_cons, List.eraseDups_cons, List.map_cons, List.filter_map,
      List.filter_congr hfilter, hrest]
termination_by l.length
decreasing_by
  have := rest.length_filter_le fun w => !w == v
  simp only [List.length_cons]
  omega

theorem enterAll_map (hf : Function.Injective f) (values : List α) :
    enterAll ∅ (values.map f) = enterAll ∅ values := by
  rw [enterAll_eq, enterAll_eq, eraseDups_map values fun _ _ _ _ h => hf h, List.length_map, List.map_map]
  congr 2
  funext v
  exact idxOf_map hf _ v

end injective
end numbering
end EpsilonAutomata
