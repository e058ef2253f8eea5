/-!
Breadth-first search. `search next starts` lists what can be reached from `starts` along `next`, each
thing once and in the order in which a queue meets it. It ends because what can be reached lies in one
finite list, which is all that `Bounded` asks.
-/
namespace EpsilonAutomata.Search
variable {α : Type} [DecidableEq α]

inductive Reachable {α : Type} (next : α → List α) (starts : List α) : α → Prop
  | start {x : α} : x ∈ starts → Reachable next starts x
  | step {x y : α} : Reachable next starts x → y ∈ next x → Reachable next starts y

def Bounded {α : Type} (next : α → List α) (starts : List α) : Prop :=
  ∃ bound : List α, ∀ x, Reachable next starts x → x ∈ bound

omit [DecidableEq α] in
theorem length_filter_lt {l : List α} {p q : α → Bool} {x : α} (hpq : ∀ y, q y = true → p y = true)
    (hx : x ∈ l) (hp : p x = true) (hq : ¬ q x = true) : (l.filter q).length < (l.filter p).length := by
  induction l with
  | nil => cases hx
  | cons y l ih =>
    have hle : (l.filter q).length ≤ (l.filter p).length := by
      simp only [← List.countP_eq_length_filter]
      exact List.countP_mono_left fun z _ => hpq z
    rcases List.mem_cons.1 hx with rfl | hx
    · simp [hp, hq]; omega
    · have shorter := ih hx
      have := hpq y
      simp only [List.filter_cons]
      split <;> split <;> grind

/-- Takes the first thing off the queue; a new one is listed and its successors join the queue. -/
def visit (next : α → List α) (starts : List α) (bounded : Bounded next starts) (found pending : List α)
    (reachable : ∀ x ∈ pending, Reachable next starts x) : List α :=
  match pending, reachable with
  | [], _ => found
  | x :: rest, reachable =>
    if x ∈ found then
      visit next starts bounded found rest fun y hy => reachable y (List.mem_cons_of_mem x hy)
    else
      visit next starts bounded (found ++ [x]) (rest ++ next x) fun y hy =>
        (List.mem_append.1 hy).elim (fun h => reachable y (List.mem_cons_of_mem x h))
          fun h => .step (reachable x List.mem_cons_self) h
termination_by ((bounded.choose.filter (· ∉ found)).length, pending.length)
decreasing_by
  · exact Prod.Lex.right _ (by simp)
  · refine Prod.Lex.left _ _ ?_
    refine length_filter_lt (x := x) (fun y hy => ?_) (bounded.choose_spec x (reachable x List.mem_cons_self)) ?_ ?_
    · simp_all
    · simpa
    · simp

def search (next : α → List α) (starts : List α) (bounded : Bounded next starts) : List α :=
  visit next starts bounded [] starts fun _ h => .start h

theorem found_subset_visit (next : α → List α) (starts : List α) (bounded : Bounded next starts)
    (found pending : List α) (reachable : ∀ x ∈ pending, Reachable next starts x) (y : α)
    (hy : y ∈ found ∨ y ∈ pending) : y ∈ visit next starts bounded found pending reachable := by
  fun_induction visit next starts bounded found pending reachable with
  | case1 => simpa using hy
  | case2 found x rest _ hx _ ih =>
    refine ih ?_
    rcases hy with h | h
    · exact .inl h
    · rcases List.mem_cons.1 h with rfl | h
      · exact .inl hx
      · exact .inr h
  | case3 found x rest _ hx _ ih =>
    refine ih ?_
    simp only [List.mem_append, List.mem_cons] at hy ⊢
    grind

theorem reachable_of_mem_visit (next : α → List α) (starts : List α) (bounded : Bounded next starts)
    (found pending : List α) (reachable : ∀ x ∈ pending, Reachable next starts x)
    (hfound : ∀ x ∈ found, Reachable next starts x) (y : α)
    (hy : y ∈ visit next starts bounded found pending reachable) : Reachable next starts y := by
  fun_induction visit next starts bounded found pending reachable with
  | case1 => exact hfound y hy
  | case2 found x rest _ _ _ ih => exact ih hfound hy
  | case3 found x rest reachable _ _ ih =>
    refine ih (fun z hz => ?_) hy
    rcases List.mem_append.1 hz with h | h
    · exact hfound z h
    · exact List.mem_singleton.1 h ▸ reachable x List.mem_cons_self

theorem reachable_of_mem_search (next : α → List α) (starts : List α) (bounded : Bounded next starts)
    (x : α) (hx : x ∈ search next starts bounded) : Reachable next starts x :=
  reachable_of_mem_visit next starts bounded [] starts _ (fun _ h => absurd h List.not_mem_nil) x hx

theorem start_mem_search (next : α → List α) (starts : List α) (bounded : Bounded next starts) (x : α)
    (hx : x ∈ starts) : x ∈ search next starts bounded :=
  found_subset_visit next starts bounded [] starts _ x (.inr hx)

end EpsilonAutomata.Search
