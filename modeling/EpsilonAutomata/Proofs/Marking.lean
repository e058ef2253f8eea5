import EpsilonAutomata.Proofs.Loop
import EpsilonAutomata.Proofs.Trimming

/-! Live states marked in place. The rows are gone through again and again, a mark counting for all rows
that come after it, until one pass sets no mark. Each mark is then on a state from which an accepting one
is reached, and no such state is left out: the last pass found no row that leads from an unmarked state to
a marked one. The rows are lists of numbers that nothing has checked. -/

namespace EpsilonAutomata

inductive ReachesAccepting (rows : List (List (Option Nat))) (accepting : List Bool) : Nat → Prop
  | accepts {i : Nat} : accepting[i]? = some true → ReachesAccepting rows accepting i
  | follow {i d : Nat} {row : List (Option Nat)} : rows[i]? = some row → some d ∈ row →
      ReachesAccepting rows accepting d → ReachesAccepting rows accepting i

def markRow (live : List Bool) (changed : Bool) (row : List (Option Nat)) (state : Nat) :
    Option (List Bool × Bool) := do
  if ← live[state]? then return (live, changed)
  if ← row.reduceOption.anyM (live[·]?) then return (live.set state true, true)
  return (live, changed)

def markRows (live : List Bool) (changed : Bool) : List (List (Option Nat) × Nat) → Option (List Bool × Bool)
  | [] => some (live, changed)
  | (row, state) :: rest => do
    let (live, changed) ← markRow live changed row state
    markRows live changed rest

def markRound (rows : List (List (Option Nat))) (live : List Bool) : Option (List Bool ⊕ List Bool) := do
  let (live, changed) ← markRows live false rows.zipIdx
  return if changed then .inr live else .inl live

noncomputable def liveStates (rows : List (List (Option Nat))) (accepting : List Bool) : Option (List Bool) :=
  loop (markRound rows) accepting

def keepLive (live : List Bool) : Option Nat → Option (Option Nat)
  | none => some none
  | some d => live[d]?.map fun mark => if mark then some d else none

def trimRows (rows : List (List (Option Nat))) (live : List Bool) : Option (List (List (Option Nat))) :=
  rows.mapM (·.mapM (keepLive live))

section marking
variable {rows : List (List (Option Nat))} {accepting live live' live'' : List Bool}

def Inside (rows : List (List (Option Nat))) : Prop := ∀ row ∈ rows, ∀ d, some d ∈ row → d < rows.length

/-- There is a mark for each state, all accepting ones are set, and no mark is on a state from which none
is reached. -/
structure SoundMarks (rows : List (List (Option Nat))) (accepting live : List Bool) : Prop where
  length_eq : live.length = rows.length
  covers : ∀ i : Nat, accepting[i]? = some true → live[i]? = some true
  reaches : ∀ i : Nat, live[i]? = some true → ReachesAccepting rows accepting i

def Settled (live : List Bool) (row : List (Option Nat)) (state : Nat) : Prop :=
  live[state]? = some true ∨ ∀ d, some d ∈ row → live[d]? ≠ some true

theorem exists_anyM_eq {α : Type} {f : α → Option Bool} {l : List α} (h : ∀ x ∈ l, ∃ b, f x = some b) :
    ∃ b, l.anyM f = some b ∧ (b = true ↔ ∃ x ∈ l, f x = some true) := by
  induction l with
  | nil => exact ⟨false, rfl, by simp⟩
  | cons x l ih =>
    obtain ⟨b, hb⟩ := h x List.mem_cons_self
    rw [List.anyM_cons, hb]
    cases b with
    | true => exact ⟨true, rfl, by simp [hb]⟩
    | false =>
      obtain ⟨b', hb', hiff⟩ := ih fun y hy => h y (List.mem_cons_of_mem x hy)
      refine ⟨b', hb', hiff.trans ?_⟩
      simp [hb]

theorem SoundMarks.set (h : SoundMarks rows accepting live) {i : Nat} (hi : i < live.length)
    (hreaches : ReachesAccepting rows accepting i) : SoundMarks rows accepting (live.set i true) where
  length_eq := by rw [List.length_set, h.length_eq]
  covers j hj := by
    rw [List.getElem?_set]
    split
    · rfl
    · exact h.covers j hj
  reaches j hj := by
    rw [List.getElem?_set] at hj
    split at hj
    · next hij => exact hij ▸ hreaches
    · exact h.reaches j hj

theorem count_set_true {i : Nat} (hi : live[i]? = some false) :
    (live.set i true).count true = live.count true + 1 := by
  obtain ⟨hlt, hi⟩ := List.getElem?_eq_some_iff.1 hi
  rw [List.count_set hlt, hi]
  rfl

theorem SoundMarks.markRow (h : SoundMarks rows accepting live) (hinside : Inside rows) (changed : Bool)
    {row : List (Option Nat)} {state : Nat} (hrow : rows[state]? = some row) :
    (markRow live changed row state = some (live, changed) ∧ Settled live row state) ∨
      ∃ live', markRow live changed row state = some (live', true) ∧ SoundMarks rows accepting live' ∧
        live.count true < live'.count true := by
  have hlt : state < live.length := by
    rw [h.length_eq]
    exact (List.getElem?_eq_some_iff.1 hrow).1
  obtain ⟨any, hany, hiff⟩ : ∃ b, row.reduceOption.anyM (live[·]?) = some b ∧
      (b = true ↔ ∃ d ∈ row.reduceOption, live[d]? = some true) := by
    apply exists_anyM_eq
    intro d hd
    have hd : d < live.length := by
      rw [h.length_eq]
      exact hinside row (List.mem_of_getElem? hrow) d (List.reduceOption_mem_iff.1 hd)
    exact ⟨_, List.getElem?_eq_getElem hd⟩
  simp only [List.reduceOption_mem_iff] at hiff
  have hmark := List.getElem?_eq_getElem hlt
  cases hmarked : live[state] with
  | true =>
    rw [hmarked] at hmark
    refine .inl ⟨?_, .inl hmark⟩
    simp [EpsilonAutomata.markRow, hmark]
  | false =>
    rw [hmarked] at hmark
    cases any with
    | true =>
      obtain ⟨d, hd, hlive⟩ := hiff.1 rfl
      refine .inr ⟨live.set state true, ?_, h.set hlt (.follow hrow hd (h.reaches d hlive)), ?_⟩
      · simp [EpsilonAutomata.markRow, hmark, hany]
      · rw [count_set_true hmark]
        exact Nat.lt_succ_self _
    | false =>
      refine .inl ⟨?_, .inr fun d hd hlive => ?_⟩
      · simp [EpsilonAutomata.markRow, hmark, hany]
      · cases hiff.2 ⟨d, hd, hlive⟩

/-- A pass either finds all rows settled or sets at least one mark. -/
theorem SoundMarks.markRows (h : SoundMarks rows accepting live) (hinside : Inside rows) (changed : Bool)
    (l : List (List (Option Nat) × Nat)) (hl : ∀ e ∈ l, rows[e.2]? = some e.1) :
    (markRows live changed l = some (live, changed) ∧ ∀ e ∈ l, Settled live e.1 e.2) ∨
      ∃ live', markRows live changed l = some (live', true) ∧ SoundMarks rows accepting live' ∧
        live.count true < live'.count true := by
  induction l generalizing live changed with
  | nil => exact .inl ⟨rfl, by simp⟩
  | cons e l ih =>
    have hlater (e') (he' : e' ∈ l) := hl e' (List.mem_cons_of_mem e he')
    rcases h.markRow hinside changed (hl e List.mem_cons_self) with
      ⟨hrow, hsettled⟩ | ⟨live', hrow, hsound, hmore⟩
    · rw [EpsilonAutomata.markRows, hrow]
      rcases ih h changed hlater with ⟨hrest, hall⟩ | hrest
      · exact .inl ⟨hrest, List.forall_mem_cons.2 ⟨hsettled, hall⟩⟩
      · exact .inr hrest
    · rw [EpsilonAutomata.markRows, hrow]
      rcases ih hsound true hlater with ⟨hrest, _⟩ | ⟨live'', hrest, hsound', hmore'⟩
      · exact .inr ⟨live', hrest, hsound, hmore⟩
      · exact .inr ⟨live'', hrest, hsound', hmore.trans hmore'⟩

theorem SoundMarks.getElem?_eq_some_iff (h : SoundMarks rows accepting live)
    (hsettled : ∀ e ∈ rows.zipIdx, Settled live e.1 e.2) (i : Nat) :
    live[i]? = some true ↔ ReachesAccepting rows accepting i := by
  refine ⟨h.reaches i, fun hi => ?_⟩
  induction hi with
  | accepts hi => exact h.covers _ hi
  | follow hrow hd _ ih =>
    have hrow := hsettled _ (List.mk_mem_zipIdx_iff_getElem?.2 hrow)
    exact hrow.resolve_right fun hno => hno _ hd ih

/-- The marking ends, and marks exactly the states from which an accepting one is reached. -/
theorem exists_liveStates_eq (hinside : Inside rows) (hlength : accepting.length = rows.length) :
    ∃ live, liveStates rows accepting = some live ∧ live.length = rows.length ∧
      ∀ i : Nat, live[i]? = some true ↔ ReachesAccepting rows accepting i := by
  refine exists_loop_eq_some (SoundMarks rows accepting) (fun live => rows.length - live.count true) _ ?_
    accepting ⟨hlength, fun _ h => h, fun _ h => .accepts h⟩
  intro live h
  rcases h.markRows hinside false rows.zipIdx fun _ he => List.mem_zipIdx_iff_getElem?.1 he with
    ⟨hpass, hsettled⟩ | ⟨live', hpass, hsound, hmore⟩
  · refine .inl ⟨live, ?_, h.length_eq, h.getElem?_eq_some_iff hsettled⟩
    rw [markRound, hpass]
    rfl
  · have hbound : live'.count true ≤ rows.length := hsound.length_eq ▸ List.count_le_length
    refine .inr ⟨live', ?_, hsound, by omega⟩
    rw [markRound, hpass]
    rfl

end marking

namespace Table
variable {n k : Nat}

def row (t : Table n k) (i : Fin n) : List (Option Nat) :=
  List.ofFn fun j => (t.machine.step i j).map Fin.val

def rows (t : Table n k) : List (List (Option Nat)) := List.ofFn t.row

theorem inside_rows (t : Table n k) : Inside t.rows := by
  intro row hrow d hd
  obtain ⟨i, rfl⟩ := List.mem_ofFn.1 hrow
  obtain ⟨j, hj⟩ := List.mem_ofFn.1 hd
  obtain ⟨e, _, rfl⟩ := Option.map_eq_some_iff.1 hj
  rw [rows, List.length_ofFn]
  exact e.isLt

theorem reachesAccepting_iff (t : Table n k) (i : Fin n) :
    ReachesAccepting t.rows t.accepting.toList i ↔ ∃ w, t.machine.language i w = true := by
  constructor
  · intro h
    generalize hi : (i : Nat) = state at h
    induction h generalizing i with
    | accepts h =>
      subst hi
      rw [getElem?_toList, Option.some.injEq] at h
      exact ⟨[], h⟩
    | follow hrow hd _ ih =>
      subst hi
      rw [rows, getElem?_ofFn_val, Option.some.injEq] at hrow
      obtain ⟨j, hj⟩ := List.mem_ofFn.1 (hrow ▸ hd)
      obtain ⟨e, he, rfl⟩ := Option.map_eq_some_iff.1 hj
      obtain ⟨w, hw⟩ := ih e rfl
      refine ⟨j :: w, ?_⟩
      rw [Machine.language_cons, he]
      exact hw
  · rintro ⟨w, hw⟩
    induction w generalizing i with
    | nil =>
      apply ReachesAccepting.accepts
      rw [getElem?_toList]
      exact congrArg some hw
    | cons j w ih =>
      rw [Machine.language_cons, Option.any_eq_true] at hw
      obtain ⟨d, hd, hw⟩ := hw
      refine .follow (getElem?_ofFn_val t.row i) ?_ (ih d hw)
      exact List.mem_ofFn.2 ⟨j, by rw [hd]; rfl⟩

theorem liveStates_rows (t : Table n k) :
    liveStates t.rows t.accepting.toList = some t.live.toList := by
  have hmarks : t.accepting.toList.length = t.rows.length := by simp [rows]
  obtain ⟨live, hlive, hlength, hiff⟩ := exists_liveStates_eq t.inside_rows hmarks
  rw [hlive]
  apply congrArg some
  rw [rows, List.length_ofFn] at hlength
  apply List.ext_getElem (by simp [hlength])
  intro i hi hi'
  have hmark := hiff i
  rw [List.getElem?_eq_getElem hi, Option.some.injEq] at hmark
  rw [Bool.eq_iff_iff, hmark]
  exact (t.reachesAccepting_iff ⟨i, hlength ▸ hi⟩).trans (t.live_get_iff _).symm

theorem trimRows_rows (t : Table n k) : trimRows t.rows t.live.toList = some t.trim.rows := by
  apply mapM_ofFn
  intro i
  apply mapM_ofFn
  intro j
  rw [trim_step]
  cases t.machine.step i j with
  | none => rfl
  | some d =>
    show (t.live.toList[(d : Nat)]?).map _ = _
    rw [getElem?_toList]
    cases hd : t.live.get d <;> simp [hd]

end Table
end EpsilonAutomata
