import EpsilonAutomata.Proofs.CoarsestPartition
import EpsilonAutomata.Proofs.ConversionInPlace

/-! What marking and trimming yield, said of rows of plain numbers. A state is marked exactly when some
transitions, or none, lead from it to an accepting state. Trimming drops the transitions into unmarked
states and no others. A way to an accepting state passes no unmarked state, so all of it stays: each
transition that is left can still be followed to an accepting state, and each word is accepted from the
same states as before. -/

namespace EpsilonAutomata

def AcceptsFrom {k : Nat} (rows : List (List (Option Nat))) (accepting : List Bool) (i : Nat)
    (w : List (Fin k)) : Prop :=
  ∃ d, runRows rows i w = some d ∧ accepting[d]? = some true

/-- There is a mark for each state, set exactly if an accepting state is reached. -/
structure LiveMarks (rows : List (List (Option Nat))) (accepting live : List Bool) : Prop where
  length_eq : live.length = rows.length
  marked_iff : ∀ i : Nat, live[i]? = some true ↔ ReachesAccepting rows accepting i

/-- Every row keeps its length, and of its transitions those that lead to where an accepting state is
reached. -/
structure DropsDeadEnds (rows : List (List (Option Nat))) (accepting : List Bool)
    (trimmed : List (List (Option Nat))) : Prop where
  lengths_eq : trimmed.map List.length = rows.map List.length
  step_eq_some_iff : ∀ i x d, stepRows trimmed i x = some d ↔
    stepRows rows i x = some d ∧ ReachesAccepting rows accepting d

structure Trims (rows : List (List (Option Nat))) (accepting : List Bool)
    (trimmed : List (List (Option Nat))) : Prop extends DropsDeadEnds rows accepting trimmed where
  reaches : ∀ i x d, stepRows trimmed i x = some d → ReachesAccepting trimmed accepting d
  acceptsFrom_iff : ∀ (k i : Nat) (w : List (Fin k)),
    AcceptsFrom trimmed accepting i w ↔ AcceptsFrom rows accepting i w

section rows
variable {k : Nat} {rows trimmed : List (List (Option Nat))} {accepting live : List Bool}

theorem exists_stepRows_eq_some_iff {i d : Nat} :
    (∃ x, stepRows rows i x = some d) ↔ ∃ row, rows[i]? = some row ∧ some d ∈ row := by
  simp only [stepRows, Option.join_eq_some_iff, Option.bind_eq_some_iff, List.mem_iff_getElem?]
  rw [exists_comm]
  exact exists_congr fun row => exists_and_left

theorem ReachesAccepting.of_step {i x d : Nat} (hd : ReachesAccepting rows accepting d)
    (hstep : stepRows rows i x = some d) : ReachesAccepting rows accepting i := by
  obtain ⟨row, hrow, hentry⟩ := exists_stepRows_eq_some_iff.1 ⟨x, hstep⟩
  exact .follow hrow hentry hd

theorem acceptsFrom_nil {i : Nat} :
    AcceptsFrom rows accepting i ([] : List (Fin k)) ↔ accepting[i]? = some true := by
  simp [AcceptsFrom, runRows]

theorem acceptsFrom_cons {i : Nat} (x : Fin k) (w : List (Fin k)) :
    AcceptsFrom rows accepting i (x :: w) ↔
      ∃ d, stepRows rows i x = some d ∧ AcceptsFrom rows accepting d w := by
  simp only [AcceptsFrom, runRows, Option.bind_eq_some_iff]
  constructor
  · rintro ⟨e, ⟨d, hd, hw⟩, he⟩
    exact ⟨d, hd, e, hw, he⟩
  · rintro ⟨d, hd, e, hw, he⟩
    exact ⟨e, ⟨d, hd, hw⟩, he⟩

theorem AcceptsFrom.reaches {i : Nat} {w : List (Fin k)} (h : AcceptsFrom rows accepting i w) :
    ReachesAccepting rows accepting i := by
  induction w generalizing i with
  | nil => exact .accepts (acceptsFrom_nil.1 h)
  | cons x w ih =>
    obtain ⟨d, hd, hw⟩ := (acceptsFrom_cons x w).1 h
    exact (ih hw).of_step hd

theorem DropsDeadEnds.reaches (h : DropsDeadEnds rows accepting trimmed) {i : Nat}
    (hi : ReachesAccepting rows accepting i) : ReachesAccepting trimmed accepting i := by
  induction hi with
  | accepts hi => exact .accepts hi
  | follow hrow hentry hd ih =>
    obtain ⟨x, hstep⟩ := exists_stepRows_eq_some_iff.2 ⟨_, hrow, hentry⟩
    exact ih.of_step ((h.step_eq_some_iff _ x _).2 ⟨hstep, hd⟩)

theorem DropsDeadEnds.acceptsFrom_iff (h : DropsDeadEnds rows accepting trimmed) {i : Nat}
    (w : List (Fin k)) : AcceptsFrom trimmed accepting i w ↔ AcceptsFrom rows accepting i w := by
  induction w generalizing i with
  | nil => rw [acceptsFrom_nil, acceptsFrom_nil]
  | cons x w ih =>
    rw [acceptsFrom_cons, acceptsFrom_cons]
    refine exists_congr fun d => ?_
    rw [h.step_eq_some_iff, ih, and_assoc]
    -- the rest of the word is accepted from no dead end
    exact and_congr_right fun _ => and_iff_right_of_imp AcceptsFrom.reaches

theorem DropsDeadEnds.trims (h : DropsDeadEnds rows accepting trimmed) :
    Trims rows accepting trimmed where
  toDropsDeadEnds := h
  reaches i x d hstep := h.reaches ((h.step_eq_some_iff i x d).1 hstep).2
  acceptsFrom_iff _ _ w := h.acceptsFrom_iff w

/-! The trimming itself, entry by entry. -/

theorem keepLive_eq {target : Option Nat} (h : ∀ d, target = some d → d < live.length) :
    keepLive live target = some (target.filter fun d => live[d]? == some true) := by
  cases target with
  | none => rfl
  | some d =>
    obtain ⟨mark, hmark⟩ : ∃ mark, live[d]? = some mark := ⟨_, List.getElem?_eq_getElem (h d rfl)⟩
    show live[d]?.map _ = some (if live[d]? == some true then some d else none)
    rw [hmark]
    cases mark <;> rfl

theorem stepRows_map_filter (keep : Nat → Bool) (i x : Nat) :
    stepRows (rows.map fun row => row.map (Option.filter keep)) i x =
      (stepRows rows i x).filter keep := by
  simp only [stepRows, List.getElem?_map]
  cases rows[i]? with
  | none => rfl
  | some row =>
    simp only [Option.map_some, Option.bind_some, List.getElem?_map]
    cases row[x]? <;> rfl

theorem LiveMarks.exists_trimRows_eq (h : LiveMarks rows accepting live) (hinside : Inside rows) :
    ∃ trimmed, trimRows rows live = some trimmed ∧ DropsDeadEnds rows accepting trimmed := by
  let keep (d : Nat) : Bool := live[d]? == some true
  have htrim : trimRows rows live = some (rows.map fun row => row.map (Option.filter keep)) := by
    apply mapM_eq_some_map
    intro row hrow
    apply mapM_eq_some_map
    intro target htarget
    apply keepLive_eq
    rintro d rfl
    rw [h.length_eq]
    exact hinside row hrow d htarget
  refine ⟨_, htrim, ?_, fun i x d => ?_⟩
  · simp
  · rw [stepRows_map_filter, Option.filter_eq_some_iff, beq_iff_eq, h.marked_iff]

end rows

/-- For rows that lead nowhere outside, the marking ends and marks just the states from which an accepting
one is reached. The trimming of a minimisation then goes through, and it leaves no dead end and every
accepted word. For a table with these rows, marks and trimmed rows are those of the table; so they are for
the table of subsets of an automaton, which its minimisation trims. -/
theorem liveStates_exact {rows : List (List (Option Nat))} {accepting : List Bool} (hinside : Inside rows)
    (hmarks : accepting.length = rows.length) :
    ∃ live trimmed, liveStates rows accepting = some live ∧ LiveMarks rows accepting live ∧
      Grid.trimmed ⟨rows, accepting⟩ = some ⟨trimmed, accepting⟩ ∧ Trims rows accepting trimmed ∧
      (∀ (n k : Nat) (t : Table n k), t.rows = rows → t.accepting.toList = accepting →
        t.live.toList = live ∧ t.trim.rows = trimmed) ∧
      ∀ a : Automaton, a.subsetGrid = some ⟨rows, accepting⟩ →
        a.subsetTable.trim.grid = ⟨trimmed, accepting⟩ := by
  obtain ⟨live, hlive, hlength, hmarked⟩ := exists_liveStates_eq hinside hmarks
  have hexact : LiveMarks rows accepting live := ⟨hlength, hmarked⟩
  obtain ⟨trimmed, htrim, hdrops⟩ := hexact.exists_trimRows_eq hinside
  have hgrid : Grid.trimmed ⟨rows, accepting⟩ = some ⟨trimmed, accepting⟩ := by
    simp only [Grid.trimmed, hlive, htrim, Option.bind_eq_bind, Option.bind_some]
    rfl
  refine ⟨live, trimmed, hlive, hexact, hgrid, hdrops.trims, ?_, fun a ha => ?_⟩
  · rintro n k t rfl rfl
    obtain rfl := Option.some.inj (t.liveStates_rows.symm.trans hlive)
    exact ⟨rfl, Option.some.inj (t.trimRows_rows.symm.trans htrim)⟩
  · have htable := Option.some.inj (a.subsetGrid_eq.symm.trans ha)
    have htrimmed := a.subsetTable.trimmed_grid
    rw [htable, hgrid] at htrimmed
    exact (Option.some.inj htrimmed).symm

/-- State 4 is a dead end. The first pass marks state 2 and, because of it, state 3; state 0 has to wait
for the second pass. -/
def deadEndRows : List (List (Option Nat)) :=
  [[some 3, some 4], [some 4], [none, some 1], [some 2, some 4], [some 4, some 4]]

theorem liveStates_deadEnd :
    liveStates deadEndRows [false, true, false, false, false] = some [true, true, true, true, false] := by
  have hfirst : markRound deadEndRows [false, true, false, false, false] =
      some (.inr [false, true, true, true, false]) := rfl
  have hsecond : markRound deadEndRows [false, true, true, true, false] =
      some (.inr [true, true, true, true, false]) := rfl
  have hlast : markRound deadEndRows [true, true, true, true, false] =
      some (.inl [true, true, true, true, false]) := rfl
  exact ((loop_of_next hfirst).trans (loop_of_next hsecond)).trans (loop_of_last hlast)

theorem liveStates_exact_deadEnd :
    Inside deadEndRows ∧ [false, true, false, false, false].length = deadEndRows.length ∧
      LiveMarks deadEndRows [false, true, false, false, false] [true, true, true, true, false] ∧
      Trims deadEndRows [false, true, false, false, false]
        [[some 3, none], [none], [none, some 1], [some 2, none], [none, none]] := by
  have hinside : Inside deadEndRows := by
    simp [Inside, deadEndRows]
  have hmarks : [false, true, false, false, false].length = deadEndRows.length := rfl
  obtain ⟨live, trimmed, hlive, hexact, hgrid, htrims, _⟩ := liveStates_exact hinside hmarks
  obtain rfl := Option.some.inj (hlive.symm.trans liveStates_deadEnd)
  have hrows : Grid.trimmed ⟨deadEndRows, [false, true, false, false, false]⟩ =
      some ⟨[[some 3, none], [none], [none, some 1], [some 2, none], [none, none]],
        [false, true, false, false, false]⟩ := by
    rw [Grid.trimmed, liveStates_deadEnd]
    rfl
  obtain rfl := congrArg Grid.rows (Option.some.inj (hgrid.symm.trans hrows))
  exact ⟨hinside, hmarks, hexact, htrims⟩

end EpsilonAutomata
