import EpsilonAutomata.Deterministic.Subsets
import EpsilonAutomata.Proofs.Check
import EpsilonAutomata.Proofs.Machine
import Mathlib

/-! The automaton that is written down from a table. It passes the check, its states are the
numbered names, and its transitions are the entries of the table, so a word is accepted exactly when
it is made of the letters and the table accepts it. -/

namespace EpsilonAutomata

theorem stateName_injective : Function.Injective stateName := by
  intro m n h
  exact Nat.repr_injective ((String.append_right_inj "q").1 h)

/-- What the automaton of a table is, read off its parts. -/
structure Realises (m : Automaton) {n : Nat} (letters : List Symbol)
    (t : Table n letters.length) : Prop where
  states : m.states.toList = (List.finRange n).map fun i : Fin n => stateName i
  alphabet : m.alphabet.toList = letters
  initial : m.initial = stateName t.start
  accepting : ∀ r, r ∈ m.accepting ↔ ∃ i : Fin n, r = stateName i ∧ t.machine.accepting i = true
  transition : ∀ p x r, m.HasTransition p x r ↔
    ∃ (i d : Fin n) (j : Fin letters.length),
      p = stateName i ∧ x = letters.get j ∧ r = stateName d ∧ t.machine.step i j = some d

theorem Realises.mem_states_iff {m : Automaton} {n : Nat} {letters : List Symbol}
    {t : Table n letters.length} (h : Realises m letters t) (r : String) :
    r ∈ m.states ↔ ∃ i : Fin n, r = stateName i := by
  rw [← OrderedSet.mem_toList, h.states]
  simp [eq_comm]

theorem Realises.size_states {m : Automaton} {n : Nat} {letters : List Symbol}
    {t : Table n letters.length} (h : Realises m letters t) : m.states.size = n := by
  rw [OrderedSet.size, h.states, List.length_map, List.length_finRange]

namespace Table
variable {n : Nat} {letters : List Symbol}

theorem mem_rowEntries (t : Table n letters.length) (i : Fin n) (x : Symbol)
    (s : OrderedSet String) :
    (x, s) ∈ t.rowEntries letters i ↔
      ∃ (j : Fin letters.length) (d : Fin n),
        x = letters.get j ∧ t.machine.step i j = some d ∧ s = .ofList [stateName d] := by
  rw [rowEntries, List.mem_filterMap]
  simp only [id_eq, exists_eq_right, List.mem_iff_getElem]
  constructor
  · rintro ⟨j, hj, h⟩
    rw [List.getElem_zipWith, entry, Option.map_eq_some_iff] at h
    obtain ⟨d, hd, h⟩ := h
    obtain ⟨rfl, rfl⟩ := Prod.mk.inj h
    rw [List.length_zipWith, Vector.length_toList, min_self] at hj
    exact ⟨⟨j, hj⟩, d, rfl, hd, rfl⟩
  · rintro ⟨j, d, rfl, hd, rfl⟩
    refine ⟨j, by simp, ?_⟩
    rw [List.getElem_zipWith, entry, Option.map_eq_some_iff]
    exact ⟨d, hd, rfl⟩

theorem keys_entries_sublist (letters : List Symbol) (targets : List (Option (Fin n))) :
    ((letters.zipWith entry targets).filterMap id |>.map Prod.fst).Sublist letters := by
  induction letters generalizing targets with
  | nil => simp
  | cons x letters ih =>
    cases targets with
    | nil => simp
    | cons target targets =>
      cases target with
      | none => exact (ih targets).cons x
      | some d => exact (ih targets).cons_cons x

theorem nodup_rowEntries (t : Table n letters.length) (i : Fin n) (h : letters.Nodup) :
    ((t.rowEntries letters i).map Prod.fst).Nodup :=
  h.sublist (keys_entries_sublist letters _)

def written (letters : List Symbol) (t : Table n letters.length) : Automaton where
  states := .ofList ((List.finRange n).map fun i : Fin n => stateName i)
  alphabet := .ofList letters
  delta :=
    .ofList ((List.finRange n).map fun i : Fin n => (stateName i, .ofList (t.rowEntries letters i)))
  initial := stateName t.start
  accepting :=
    .ofList (((List.finRange n).filter fun i => t.accepting.get i).map fun i : Fin n => stateName i)

theorem nodup_names (n : Nat) : ((List.finRange n).map fun i : Fin n => stateName i).Nodup := by
  apply (List.nodup_finRange n).map
  intro i j h
  exact Fin.ext (stateName_injective h)

theorem entries_written (t : Table n letters.length) :
    (t.written letters).delta.entries =
      (List.finRange n).map fun i : Fin n => (stateName i, .ofList (t.rowEntries letters i)) := by
  apply OrderedMap.entries_ofList
  rw [List.map_map]
  exact nodup_names n

theorem transition_written (t : Table n letters.length) (h : letters.Nodup) (p : String)
    (x : Symbol) (s : OrderedSet String) :
    (t.written letters).destinations? p x = some s ↔
      ∃ (i d : Fin n) (j : Fin letters.length),
        p = stateName i ∧ x = letters.get j ∧ s = .ofList [stateName d] ∧
          t.machine.step i j = some d := by
  rw [Automaton.destinations?_eq_some_iff, entries_written]
  simp only [List.mem_map, List.mem_finRange, true_and, Prod.mk.injEq]
  constructor
  · rintro ⟨_, ⟨i, rfl, rfl⟩, hrow⟩
    rw [OrderedMap.entries_ofList _ (t.nodup_rowEntries i h), mem_rowEntries] at hrow
    obtain ⟨j, d, hx, hd, hs⟩ := hrow
    exact ⟨i, d, j, rfl, hx, hs, hd⟩
  · rintro ⟨i, d, j, rfl, hx, hs, hd⟩
    refine ⟨_, ⟨i, rfl, rfl⟩, ?_⟩
    rw [OrderedMap.entries_ofList _ (t.nodup_rowEntries i h), mem_rowEntries]
    exact ⟨j, d, hx, hd, hs⟩

theorem realises_written (t : Table n letters.length) (h : letters.Nodup) :
    Realises (t.written letters) letters t where
  states := OrderedSet.toList_ofList _ (nodup_names n)
  alphabet := OrderedSet.toList_ofList letters h
  initial := rfl
  accepting r := by
    rw [written, OrderedSet.mem_ofList, List.mem_map]
    simp only [List.mem_filter, List.mem_finRange, true_and, machine]
    constructor
    · rintro ⟨i, hi, rfl⟩
      exact ⟨i, rfl, hi⟩
    · rintro ⟨i, rfl, hi⟩
      exact ⟨i, hi, rfl⟩
  transition p x r := by
    simp only [Automaton.hasTransition_iff, t.transition_written h]
    constructor
    · rintro ⟨_, ⟨i, d, j, hp, hx, rfl, hd⟩, hr⟩
      exact ⟨i, d, j, hp, hx, by simpa using hr, hd⟩
    · rintro ⟨i, d, j, hp, hx, rfl, hd⟩
      exact ⟨_, ⟨i, d, j, hp, hx, rfl, hd⟩, by simp⟩

theorem wellFormed_written (t : Table n letters.length) (h : letters.Nodup) :
    (t.written letters).WellFormed := by
  have hrealises := t.realises_written h
  have hkeys (r : String) : r ∈ (t.written letters).delta.keys ↔ ∃ i : Fin n, r = stateName i := by
    rw [OrderedMap.keys, entries_written]
    simp [eq_comm]
  refine ⟨⟨?_, ?_, ?_, ?_, ?_, ?_⟩, ?_⟩
  · exact (hrealises.mem_states_iff _).2 ⟨t.start, rfl⟩
  · intro r hr
    obtain ⟨i, hi, _⟩ := (hrealises.accepting r).1 hr
    exact (hrealises.mem_states_iff r).2 ⟨i, hi⟩
  · intro r hr
    exact (hrealises.mem_states_iff r).2 ((hkeys r).1 hr)
  · intro p x r hr
    obtain ⟨i, d, j, _, _, hd, _⟩ := (hrealises.transition p x r).1 hr
    exact (hrealises.mem_states_iff r).2 ⟨d, hd⟩
  · intro p x r hr
    obtain ⟨i, d, j, _, rfl, _, _⟩ := (hrealises.transition p x r).1 hr
    right
    rw [← OrderedSet.mem_toList, hrealises.alphabet]
    exact List.get_mem letters j
  · intro p x s hs hempty
    obtain ⟨i, d, j, _, _, rfl, _⟩ := (t.transition_written h p x s).1 hs
    have hd : stateName d ∈ OrderedSet.ofList [stateName d] := by simp
    rw [hempty] at hd
    exact OrderedSet.not_mem_empty _ hd
  · intro r hr
    exact (hkeys r).2 ((hrealises.mem_states_iff r).1 hr)

theorem toAutomaton_eq_ok (t : Table n letters.length) (h : letters.Nodup) :
    t.toAutomaton letters = .ok (t.written letters) :=
  Automaton.ofParts_eq_ok (t.written letters) (t.wellFormed_written h)

end Table

namespace Realises
variable {m : Automaton} {n : Nat} {letters : List Symbol} {t : Table n letters.length}

theorem path_of_run (h : Realises m letters t) (i d : Fin n) (v : List (Fin letters.length))
    (hv : t.machine.run i v = some d) : m.Path (stateName i) (v.map letters.get) (stateName d) := by
  induction v generalizing i with
  | nil =>
    obtain rfl := Option.some.inj hv
    exact .stop _
  | cons j v ih =>
    rw [Machine.run, Option.bind_eq_some_iff] at hv
    obtain ⟨e, he, hv⟩ := hv
    have step : m.HasTransition (stateName i) (letters.get j) (stateName e) :=
      (h.transition _ _ _).2 ⟨i, e, j, rfl, rfl, rfl, he⟩
    exact .read ((m.mem_transitions _ _ _).2 step) (ih e hv)

theorem exists_run_of_path (h : Realises m letters t) (hepsilon : .epsilon ∉ letters) {p r : String}
    {w : Word} (hw : m.Path p w r) (i : Fin n) (hp : p = stateName i) :
    ∃ (v : List (Fin letters.length)) (d : Fin n),
      w = v.map letters.get ∧ r = stateName d ∧ t.machine.run i v = some d := by
  induction hw generalizing i with
  | stop => exact ⟨[], i, rfl, hp, rfl⟩
  | silent ht =>
    -- a silent transition would make epsilon one of the letters
    obtain ⟨_, _, j, _, hj, _⟩ := (h.transition _ _ _).1 ((m.mem_transitions _ _ _).1 ht)
    exact absurd (hj ▸ List.get_mem letters j) hepsilon
  | read ht _ ih =>
    obtain ⟨i', e, j, rfl, rfl, rfl, he⟩ := (h.transition _ _ _).1 ((m.mem_transitions _ _ _).1 ht)
    obtain rfl : i' = i := Fin.ext (stateName_injective hp)
    obtain ⟨v, d, rfl, rfl, hv⟩ := ih e rfl
    refine ⟨j :: v, d, rfl, rfl, ?_⟩
    rw [Machine.run, he, Option.bind_some, hv]

theorem accepts_iff_language (h : Realises m letters t) (hepsilon : .epsilon ∉ letters) (w : Word) :
    m.accepts w = true ↔ ∃ v, w = v.map letters.get ∧ t.machine.language t.start v = true := by
  rw [Automaton.accepts_eq_acceptsIn, Automaton.acceptsIn_iff]
  simp only [Automaton.mem_after_start_iff, h.initial]
  constructor
  · rintro ⟨r, hr, hacc⟩
    obtain ⟨v, d, rfl, rfl, hv⟩ := h.exists_run_of_path hepsilon hr t.start rfl
    obtain ⟨d', hd', hacc⟩ := (h.accepting _).1 hacc
    obtain rfl : d = d' := Fin.ext (stateName_injective hd')
    refine ⟨v, rfl, ?_⟩
    rw [Machine.language, hv]
    exact hacc
  · rintro ⟨v, rfl, hv⟩
    rw [Machine.language, Option.any_eq_true] at hv
    obtain ⟨d, hd, hacc⟩ := hv
    exact ⟨stateName d, h.path_of_run t.start d v hd, (h.accepting _).2 ⟨d, rfl, hacc⟩⟩

end Realises
end EpsilonAutomata
