import EpsilonAutomata.Search
import Mathlib.Data.List.Nodup

/-! What a breadth-first search finds, and in which order. It lists exactly the reachable things,
each once, and the list depends on the shape of the graph alone: an embedding of one graph into
another carries the list of the first to the list of the second. -/

namespace EpsilonAutomata.Search
variable {α β : Type} [DecidableEq α] [DecidableEq β]

/-- The loop invariant: a successor of what has been listed is listed or waits in the queue. -/
theorem closed_visit (next : α → List α) (starts : List α) (bounded : Bounded next starts)
    (found pending : List α) (reachable : ∀ x ∈ pending, Reachable next starts x)
    (hclosed : ∀ x ∈ found, ∀ y ∈ next x, y ∈ found ∨ y ∈ pending) :
    ∀ x ∈ visit next starts bounded found pending reachable,
      ∀ y ∈ next x, y ∈ visit next starts bounded found pending reachable := by
  fun_induction visit next starts bounded found pending reachable with
  | case1 found => simpa using hclosed
  | case2 found x rest _ hx _ ih =>
    apply ih
    intro z hz y hy
    rcases hclosed z hz y hy with h | h
    · exact .inl h
    · rcases List.mem_cons.1 h with rfl | h
      · exact .inl hx
      · exact .inr h
  | case3 found x rest _ hx _ ih =>
    apply ih
    intro z hz y hy
    rcases List.mem_append.1 hz with hz | hz
    · have known := hclosed z hz y hy
      simp only [List.mem_append, List.mem_cons] at known ⊢
      tauto
    · obtain rfl := List.mem_singleton.1 hz
      exact .inr (List.mem_append_right rest hy)

theorem nodup_visit (next : α → List α) (starts : List α) (bounded : Bounded next starts)
    (found pending : List α) (reachable : ∀ x ∈ pending, Reachable next starts x)
    (hfound : found.Nodup) : (visit next starts bounded found pending reachable).Nodup := by
  fun_induction visit next starts bounded found pending reachable with
  | case1 found => exact hfound
  | case2 found x rest _ _ _ ih => exact ih hfound
  | case3 found x rest _ hx _ ih =>
    apply ih
    exact List.nodup_append.2 ⟨hfound, List.nodup_singleton x, by grind⟩

theorem mem_search_iff (next : α → List α) (starts : List α) (bounded : Bounded next starts)
    (x : α) : x ∈ search next starts bounded ↔ Reachable next starts x := by
  refine ⟨reachable_of_mem_search next starts bounded x, fun h => ?_⟩
  induction h with
  | start hx => exact start_mem_search next starts bounded _ hx
  | step _ hy ih =>
    -- nothing has been listed when the loop begins
    have hclosed := closed_visit next starts bounded [] starts (fun _ h => .start h) (by simp)
    exact hclosed _ ih _ hy

theorem nodup_search (next : α → List α) (starts : List α) (bounded : Bounded next starts) :
    (search next starts bounded).Nodup :=
  nodup_visit next starts bounded [] starts _ List.nodup_nil

omit [DecidableEq α] [DecidableEq β] in
theorem exists_of_reachable_map {next : α → List α} {next' : β → List β} {starts : List α}
    (f : α → β) (hnext : ∀ x, next' (f x) = (next x).map f) {y : β}
    (h : Reachable next' (starts.map f) y) :
    ∃ x, Reachable next starts x ∧ f x = y := by
  induction h with
  | start hy =>
    obtain ⟨x, hx, rfl⟩ := List.mem_map.1 hy
    exact ⟨x, .start hx, rfl⟩
  | step _ hz ih =>
    obtain ⟨x, hx, rfl⟩ := ih
    rw [hnext] at hz
    obtain ⟨w, hw, rfl⟩ := List.mem_map.1 hz
    exact ⟨w, .step hx hw, rfl⟩

omit [DecidableEq α] [DecidableEq β] in
theorem Bounded.map {next : α → List α} {next' : β → List β} {starts : List α} (f : α → β)
    (hnext : ∀ x, next' (f x) = (next x).map f) (h : Bounded next starts) :
    Bounded next' (starts.map f) := by
  obtain ⟨bound, hbound⟩ := h
  refine ⟨bound.map f, fun y hy => ?_⟩
  obtain ⟨x, hx, rfl⟩ := exists_of_reachable_map f hnext hy
  exact List.mem_map_of_mem (hbound x hx)

/-- The two queues run in step as long as `f` keeps reachable things apart. -/
theorem visit_map (next : α → List α) (next' : β → List β) (starts : List α) (f : α → β)
    (hnext : ∀ x, next' (f x) = (next x).map f)
    (hinj : ∀ x y, Reachable next starts x → Reachable next starts y → f x = f y → x = y)
    (bounded : Bounded next starts) (bounded' : Bounded next' (starts.map f))
    (found pending : List α) (reachable : ∀ x ∈ pending, Reachable next starts x)
    (hfound : ∀ x ∈ found, Reachable next starts x) (found' pending' : List β)
    (reachable' : ∀ y ∈ pending', Reachable next' (starts.map f) y)
    (hfound' : found' = found.map f) (hpending' : pending' = pending.map f) :
    visit next' (starts.map f) bounded' found' pending' reachable' =
      (visit next starts bounded found pending reachable).map f := by
  fun_induction visit next starts bounded found pending reachable generalizing found' pending' with
  | case1 found =>
    rw [List.map_nil] at hpending'
    subst hpending' hfound'
    rw [visit]
  | case2 found x rest reachable hx _ ih =>
    rw [List.map_cons] at hpending'
    subst hpending' hfound'
    have hfx : f x ∈ found.map f := List.mem_map_of_mem hx
    rw [visit, if_pos hfx]
    exact ih hfound _ _ _ rfl rfl
  | case3 found x rest reachable hx _ ih =>
    rw [List.map_cons] at hpending'
    subst hpending' hfound'
    have hreach : Reachable next starts x := reachable x List.mem_cons_self
    -- what is new on the left is new on the right, or `f` would merge it with something found
    have hfx : f x ∉ found.map f := by
      intro h
      obtain ⟨y, hy, hyx⟩ := List.mem_map.1 h
      exact hx (hinj y x (hfound y hy) hreach hyx ▸ hy)
    rw [visit, if_neg hfx]
    apply ih
    · intro y hy
      rcases List.mem_append.1 hy with hy | hy
      · exact hfound y hy
      · exact List.mem_singleton.1 hy ▸ hreach
    · simp
    · simp [hnext]

theorem search_map (next : α → List α) (next' : β → List β) (starts : List α) (f : α → β)
    (hnext : ∀ x, next' (f x) = (next x).map f)
    (hinj : ∀ x y, Reachable next starts x → Reachable next starts y → f x = f y → x = y)
    (bounded : Bounded next starts) (bounded' : Bounded next' (starts.map f)) :
    search next' (starts.map f) bounded' = (search next starts bounded).map f :=
  visit_map next next' starts f hnext hinj bounded bounded' [] starts _ (by simp) [] _ _ rfl rfl

end EpsilonAutomata.Search
