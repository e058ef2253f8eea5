import EpsilonAutomata.Proofs.Loop
import EpsilonAutomata.Proofs.Machine

/-! A search that numbers what it meets. Something new gets the next number and joins the queue at once,
not when it is taken off, so that the numbers in a row are known as the row is written. The numbers are
the places in the list of `Search.search`, which puts things on the list as they are taken off. -/

namespace EpsilonAutomata

namespace Search
variable {α : Type} [DecidableEq α] (next : α → List α) (starts : List α) (bounded : Bounded next starts)

/-- What has been listed and what waits will stand first on the list, in this order. -/
theorem prefix_visit (found : OrderedSet α) (pending : List α)
    (reachable : ∀ x ∈ pending, Reachable next starts x) :
    (found.insertAll pending).toList <+: visit next starts bounded found.toList pending reachable := by
  generalize hlist : found.toList = list
  fun_induction visit next starts bounded list pending reachable generalizing found with
  | case1 => exact hlist ▸ List.prefix_rfl
  | case2 list x rest _ hx _ ih =>
    have hmem : x ∈ found := (found.mem_toList x).1 (hlist ▸ hx)
    rw [OrderedSet.insertAll, List.foldl_cons, OrderedSet.insert_of_mem hmem]
    exact ih found hlist
  | case3 list x rest _ hx _ ih =>
    have hnew := found.toList_insert_of_not_mem fun h : x ∈ found => hx (hlist ▸ h)
    have hprefix := ih (found.insert x) (by rw [hnew, hlist])
    rw [OrderedSet.insertAll, List.foldl_append] at hprefix
    exact (prefix_insertAll _ _).trans hprefix

theorem exists_visit_eq (found : OrderedSet α) (pending : List α)
    (reachable : ∀ x ∈ pending, Reachable next starts x) {x : α} {rest : List α}
    (h : (found.insertAll pending).toList = found.toList ++ x :: rest) :
    ∃ (later : List α) (reachable' : ∀ y ∈ later ++ next x, Reachable next starts y),
      visit next starts bounded found.toList pending reachable =
          visit next starts bounded (found.insert x).toList (later ++ next x) reachable' ∧
        (found.insert x).insertAll later = found.insertAll pending ∧ Reachable next starts x := by
  induction pending with
  | nil =>
    have hlength := congrArg List.length h
    simp [OrderedSet.insertAll] at hlength
  | cons y pending ih =>
    rw [OrderedSet.insertAll, List.foldl_cons, ← OrderedSet.insertAll] at h ⊢
    by_cases hy : y ∈ found.toList
    · have hknown : found.insert y = found := OrderedSet.insert_of_mem hy
      rw [hknown] at h ⊢
      rw [visit, if_pos hy]
      exact ih _ h
    · have hnew := found.toList_insert_of_not_mem hy
      obtain rfl : y = x := by
        have hprefix := prefix_insertAll (found.insert y) pending
        rw [hnew, h, List.prefix_append_right_inj] at hprefix
        simpa using hprefix
      have hreach : Reachable next starts y := reachable y List.mem_cons_self
      have hlater (z : α) (hz : z ∈ pending ++ next y) : Reachable next starts z :=
        (List.mem_append.1 hz).elim (fun h => reachable z (List.mem_cons_of_mem y h)) (.step hreach)
      refine ⟨pending, hlater, ?_, rfl, hreach⟩
      rw [visit, if_neg hy]
      simp only [hnew]

theorem visit_eq_self (found : OrderedSet α) (pending : List α)
    (reachable : ∀ x ∈ pending, Reachable next starts x)
    (h : (found.insertAll pending).toList = found.toList) :
    visit next starts bounded found.toList pending reachable = found.toList := by
  have hknown (y : α) (hy : y ∈ pending) : y ∈ found.toList := by
    have hmem : y ∈ (found.insertAll pending).toList := (found.mem_insertAll pending y).2 (.inr hy)
    rwa [h] at hmem
  clear h
  induction pending with
  | nil => rw [visit]
  | cons y pending ih =>
    rw [visit, if_pos (hknown y List.mem_cons_self)]
    exact ih _ fun z hz => hknown z (List.mem_cons_of_mem y hz)

end Search

/-- What a search has met, each thing with its number, and what of it waits to be looked at. -/
structure Worklist (σ : Type) where
  numbers : OrderedMap σ Nat
  waiting : List σ

namespace Worklist
variable {σ : Type} [DecidableEq σ]

def meet (w : Worklist σ) (s : σ) : Nat × Worklist σ :=
  let (i, numbers) := enter w.numbers s
  (i, ⟨numbers, if s ∈ w.numbers.keys then w.waiting else w.waiting ++ [s]⟩)

def meetAll (w : Worklist σ) : List (Option σ) → List (Option Nat) × Worklist σ
  | [] => ([], w)
  | none :: rest =>
    let (row, w') := w.meetAll rest
    (none :: row, w')
  | some s :: rest =>
    let (i, w') := w.meet s
    let (row, w'') := w'.meetAll rest
    (some i :: row, w'')

/-- The numbers follow the order in which things were met; those not yet looked at come last. -/
structure Tracks (w : Worklist σ) (done : List σ) (met : OrderedSet σ) : Prop where
  counts : Counts w.numbers met
  toList_eq : met.toList = done ++ w.waiting

variable {w : Worklist σ} {done : List σ} {met : OrderedSet σ}

theorem Tracks.meet (h : w.Tracks done met) (s : σ) :
    (w.meet s).1 = (met.insert s).toList.idxOf s ∧ (w.meet s).2.Tracks done (met.insert s) := by
  obtain ⟨hnumber, hcounts⟩ := h.counts.enter s
  refine ⟨hnumber, hcounts, ?_⟩
  show (met.insert s).toList = done ++ if s ∈ w.numbers.keys then w.waiting else w.waiting ++ [s]
  rw [h.counts.keys_eq]
  by_cases hs : s ∈ met.toList
  · have hknown : met.insert s = met := OrderedSet.insert_of_mem hs
    rw [if_pos hs, hknown, h.toList_eq]
  · rw [if_neg hs, met.toList_insert_of_not_mem hs, h.toList_eq, List.append_assoc]

theorem Tracks.meetAll (h : w.Tracks done met) (targets : List (Option σ)) :
    (w.meetAll targets).1 =
        targets.map (Option.map (met.insertAll targets.reduceOption).toList.idxOf) ∧
      (w.meetAll targets).2.Tracks done (met.insertAll targets.reduceOption) := by
  induction targets generalizing w met with
  | nil => exact ⟨rfl, h⟩
  | cons target targets ih =>
    cases target with
    | none =>
      obtain ⟨hrow, hlater⟩ := ih h
      exact ⟨congrArg (none :: ·) hrow, hlater⟩
    | some s =>
      obtain ⟨hnumber, hnext⟩ := h.meet s
      obtain ⟨hrow, hlater⟩ := ih hnext
      -- what is met later leaves the number as it is
      have hplace : (met.insert s).toList.idxOf s =
          ((met.insert s).insertAll targets.reduceOption).toList.idxOf s :=
        idxOf_eq_of_prefix (prefix_insertAll _ _) ((met.mem_insert s s).2 (.inr rfl))
      rw [hplace] at hnumber
      refine ⟨?_, hlater⟩
      rw [Worklist.meetAll, List.reduceOption_cons_of_some, List.map_cons]
      exact congrArg₂ List.cons (congrArg some hnumber) hrow

end Worklist

section exploring
variable {σ : Type} [DecidableEq σ]

def exploreRound (targets : σ → Option (List (Option σ))) :
    Worklist σ × List (List (Option Nat)) →
      Option ((OrderedMap σ Nat × List (List (Option Nat))) ⊕ (Worklist σ × List (List (Option Nat))))
  | (⟨numbers, []⟩, rows) => some (.inl (numbers, rows))
  | (⟨numbers, s :: rest⟩, rows) => do
    let (row, w) := Worklist.meetAll ⟨numbers, rest⟩ (← targets s)
    return .inr (w, rows ++ [row])

noncomputable def explore (targets : σ → Option (List (Option σ))) (start : σ) :
    Option (OrderedMap σ Nat × List (List (Option Nat))) :=
  loop (exploreRound targets) (⟨.insert ∅ start 0, [start]⟩, [])

namespace Machine
variable {k : Nat}

def targets (m : Machine σ k) (s : σ) : List (Option σ) := (List.finRange k).map (m.step s)

def numberedRow (m : Machine σ k) (order : List σ) (s : σ) : List (Option Nat) :=
  (m.targets s).map (Option.map order.idxOf)

omit [DecidableEq σ] in
theorem reduceOption_targets (m : Machine σ k) (s : σ) : (m.targets s).reduceOption = m.successors s := by
  rw [List.reduceOption, targets, List.filterMap_map]
  rfl

/-- What every round of an exploration keeps: the search has got as far as `done`, and has `pending` in its queue. -/
structure Explored (m : Machine σ k) (bounded : m.Bounded) (w : Worklist σ)
    (rows : List (List (Option Nat))) (done : OrderedSet σ) (pending : List σ) : Prop where
  reachable : ∀ x ∈ pending, Search.Reachable m.successors [m.start] x
  visit_eq : Search.visit m.successors [m.start] bounded done.toList pending reachable = m.states bounded
  tracks : w.Tracks done.toList (done.insertAll pending)
  rows_eq : rows = done.toList.map (m.numberedRow (m.states bounded))

variable {m : Machine σ k} {bounded : m.Bounded} {w : Worklist σ} {rows : List (List (Option Nat))}
  {done : OrderedSet σ} {pending : List σ}

theorem Explored.length_rows (h : m.Explored bounded w rows done pending) :
    rows.length + w.waiting.length ≤ (m.states bounded).length := by
  have hprefix := Search.prefix_visit m.successors [m.start] bounded done pending h.reachable
  rw [h.visit_eq, h.tracks.toList_eq] at hprefix
  have hlength := hprefix.length_le
  rwa [h.rows_eq, List.length_map, ← List.length_append]

theorem Explored.round {numbers : OrderedMap σ Nat} {s : σ} {rest : List σ}
    (h : m.Explored bounded ⟨numbers, s :: rest⟩ rows done pending)
    {targets : σ → Option (List (Option σ))}
    (htargets : ∀ s, Search.Reachable m.successors [m.start] s → targets s = some (m.targets s)) :
    ∃ w' row pending', exploreRound targets (⟨numbers, s :: rest⟩, rows) = some (.inr (w', rows ++ [row])) ∧
      m.Explored bounded w' (rows ++ [row]) (done.insert s) pending' := by
  obtain ⟨later, hlater, hvisit, hmet, hs⟩ :=
    Search.exists_visit_eq m.successors [m.start] bounded done pending h.reachable h.tracks.toList_eq
  have hdone : s ∉ done := by
    have hnodup := (done.insertAll pending).nodup
    rw [h.tracks.toList_eq, List.nodup_append] at hnodup
    exact fun hs => hnodup.2.2 s hs s List.mem_cons_self rfl
  have hlisted := done.toList_insert_of_not_mem hdone
  have htracks : Worklist.Tracks ⟨numbers, rest⟩ (done.insert s).toList (done.insertAll pending) := by
    refine ⟨h.tracks.counts, ?_⟩
    rw [hlisted, h.tracks.toList_eq, List.append_assoc]
    rfl
  obtain ⟨hrow, hnext⟩ := htracks.meetAll (m.targets s)
  have hall : (done.insertAll pending).insertAll (m.targets s).reduceOption =
      (done.insert s).insertAll (later ++ m.successors s) := by
    rw [reduceOption_targets, ← hmet, OrderedSet.insertAll, OrderedSet.insertAll, OrderedSet.insertAll,
      List.foldl_append]
  rw [hall] at hrow hnext
  refine ⟨(Worklist.meetAll ⟨numbers, rest⟩ (m.targets s)).2, (Worklist.meetAll ⟨numbers, rest⟩ (m.targets s)).1,
    later ++ m.successors s, ?_, hlater, hvisit.symm.trans h.visit_eq, hnext, ?_⟩
  · rw [exploreRound, htargets s hs]
    rfl
  · -- the numbers in the row are places in what has been met so far, hence on the whole list
    have hprefix := Search.prefix_visit m.successors [m.start] bounded (done.insert s) _ hlater
    rw [← hvisit, h.visit_eq] at hprefix
    rw [hlisted, List.map_append, ← h.rows_eq, List.append_cancel_left_eq, hrow, List.map_singleton,
      List.singleton_inj, numberedRow, List.map_inj_left]
    intro target htarget
    cases target with
    | none => rfl
    | some d =>
      have hd : d ∈ m.successors s := by
        rw [← reduceOption_targets, List.reduceOption_mem_iff]
        exact htarget
      apply congrArg some
      apply idxOf_eq_of_prefix hprefix
      exact ((done.insert s).mem_insertAll _ d).2 (.inr (List.mem_append_right later hd))

theorem explored_start (m : Machine σ k) (bounded : m.Bounded) :
    m.Explored bounded ⟨.insert ∅ m.start 0, [m.start]⟩ [] ∅ [m.start] where
  reachable _ h := .start h
  visit_eq := rfl
  tracks := ⟨rfl, rfl⟩
  rows_eq := rfl

structure Listed (m : Machine σ k) (bounded : m.Bounded)
    (result : OrderedMap σ Nat × List (List (Option Nat))) : Prop where
  counts : Counts result.1 ⟨m.states bounded, m.nodup_states bounded⟩
  rows_eq : result.2 = (m.states bounded).map (m.numberedRow (m.states bounded))

theorem Explored.listed {numbers : OrderedMap σ Nat}
    (h : m.Explored bounded ⟨numbers, []⟩ rows done pending) : m.Listed bounded (numbers, rows) := by
  have hall : (done.insertAll pending).toList = done.toList := by
    rw [h.tracks.toList_eq, List.append_nil]
  have hdone : done.toList = m.states bounded :=
    (Search.visit_eq_self _ _ bounded done pending h.reachable hall).symm.trans h.visit_eq
  refine ⟨?_, hdone ▸ h.rows_eq⟩
  have hcounts := h.tracks.counts
  rwa [Counts, hall, hdone] at hcounts

theorem exploreRound_cases {q : Worklist σ × List (List (Option Nat))}
    (h : ∃ done pending, m.Explored bounded q.1 q.2 done pending)
    {targets : σ → Option (List (Option σ))}
    (htargets : ∀ s, Search.Reachable m.successors [m.start] s → targets s = some (m.targets s)) :
    (∃ result, exploreRound targets q = some (.inl result) ∧ m.Listed bounded result) ∨
      ∃ q', exploreRound targets q = some (.inr q') ∧
        (∃ done pending, m.Explored bounded q'.1 q'.2 done pending) ∧
        (m.states bounded).length - q'.2.length < (m.states bounded).length - q.2.length := by
  obtain ⟨⟨numbers, waiting⟩, rows⟩ := q
  obtain ⟨done, pending, h⟩ := h
  cases waiting with
  | nil => exact .inl ⟨_, rfl, h.listed⟩
  | cons s rest =>
    obtain ⟨w', row, pending', hround, hnext⟩ := h.round htargets
    have hlength := h.length_rows
    refine .inr ⟨_, hround, ⟨_, _, hnext⟩, ?_⟩
    simp only [List.length_append, List.length_cons, List.length_nil] at hlength ⊢
    omega

/-- An exploration ends, and with the states and the rows that a search would give. -/
theorem exists_explore_eq (m : Machine σ k) (bounded : m.Bounded)
    (targets : σ → Option (List (Option σ)))
    (htargets : ∀ s, Search.Reachable m.successors [m.start] s → targets s = some (m.targets s)) :
    ∃ result, explore targets m.start = some result ∧ m.Listed bounded result :=
  exists_loop_eq_some _ (fun q => (m.states bounded).length - q.2.length) _
    (fun _ h => exploreRound_cases h htargets) _ ⟨_, _, m.explored_start bounded⟩

end Machine
end exploring
end EpsilonAutomata
