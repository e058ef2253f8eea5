import EpsilonAutomata.Proofs.Analysis
import EpsilonAutomata.Proofs.Edit

/-! Automata written as specifications. What is written is read back with nothing lost, and in the same
order but for the sources, which come back in the order of the states; from then on nothing changes any
more. -/

namespace EpsilonAutomata

theorem Targets.toList_ofSet (s : OrderedSet String) : (Targets.ofSet s).toList = s.toList := by
  unfold Targets.ofSet
  split
  · next hs => exact hs.symm
  · rfl

theorem Spec.mem_entries (s : Spec) (e : Entry) :
    e ∈ s.entries ↔ ∃ row, (e.source, row) ∈ s.delta.entries ∧ (e.symbol, e.targets) ∈ row.entries := by
  simp only [entries, List.mem_flatMap, List.mem_map]
  constructor
  · rintro ⟨⟨source, row⟩, hrow, ⟨x, targets⟩, htargets, rfl⟩
    exact ⟨row, hrow, htargets⟩
  · rintro ⟨row, hrow, htargets⟩
    exact ⟨(e.source, row), hrow, (e.symbol, e.targets), htargets, rfl⟩

def Spec.transitions (s : Spec) : List Automaton.Transition :=
  s.entries.flatMap fun e => e.targets.toList.map fun r => ⟨e.source, e.symbol, r⟩

theorem Spec.undeclaredSymbols_eq_nil {s : Spec}
    (h : ∀ e ∈ s.entries, e.symbol = .epsilon ∨ e.symbol ∈ s.alphabet) : s.undeclaredSymbols = [] := by
  have hused : ((s.delta.values.flatMap OrderedMap.keys).filter
      fun x => !x.isEpsilon && !s.alphabet.contains x) = [] := by
    rw [List.filter_eq_nil_iff]
    intro x hx
    obtain ⟨row, hrow, hkey⟩ := List.mem_flatMap.1 hx
    obtain ⟨⟨source, row⟩, hsource, rfl⟩ := List.mem_map.1 hrow
    obtain ⟨⟨x, targets⟩, htargets, rfl⟩ := List.mem_map.1 hkey
    have hx := h ⟨source, x, targets⟩ ((s.mem_entries _).2 ⟨row, hsource, htargets⟩)
    rw [← Symbol.isEpsilon_iff] at hx
    rcases hx with hx | hx <;> simp [hx]
  rw [undeclaredSymbols, hused]
  rfl

namespace Automaton
variable {a : Automaton}

def row (a : Automaton) (state : String) : Row := (a.delta.find? state).getD ∅

/-- The same automaton with its rows in the order of the states. -/
def arranged (a : Automaton) : Automaton :=
  { a with delta := .ofList (a.states.toList.map fun s => (s, a.row s)) }

theorem nodup_fst_map {ν : Type} (a : Automaton) (f : String → ν) :
    ((a.states.toList.map fun s => (s, f s)).map Prod.fst).Nodup := by
  simpa [Function.comp_def] using a.states.nodup

theorem entries_arranged (a : Automaton) :
    a.arranged.delta.entries = a.states.toList.map fun s => (s, a.row s) :=
  OrderedMap.entries_ofList _ (a.nodup_fst_map a.row)

theorem entries_toSpec (a : Automaton) :
    a.toSpec.delta.entries = a.states.toList.map fun s => (s, (a.row s).map Targets.ofSet) :=
  OrderedMap.entries_ofList _ (a.nodup_fst_map fun s => (a.row s).map Targets.ofSet)

theorem keys_toSpec (a : Automaton) : a.toSpec.delta.keys = a.states.toList := by
  rw [OrderedMap.keys, entries_toSpec]
  simp [Function.comp_def]

theorem find?_arranged (h : a.WellFormed) (s : String) : a.arranged.delta.find? s = a.delta.find? s := by
  by_cases hs : s ∈ a.states
  · have hentry : (s, a.row s) ∈ a.arranged.delta.entries := by
      rw [entries_arranged]
      exact List.mem_map.2 ⟨s, hs, rfl⟩
    rw [OrderedMap.find?_eq_some.2 hentry, row]
    obtain ⟨r, hr⟩ := OrderedMap.mem_keys_iff.1 (h.entry_of_mem s hs)
    rw [hr]
    rfl
  · have hkeys : s ∉ a.arranged.delta.keys := by
      rw [OrderedMap.keys, entries_arranged]
      simpa [Function.comp_def, OrderedSet.mem_toList] using hs
    rw [(OrderedMap.find?_eq_none _ _).2 hkeys,
      (OrderedMap.find?_eq_none _ _).2 fun hkey => hs (h.source_mem s hkey)]

theorem destinations?_arranged (h : a.WellFormed) (p : String) (x : Symbol) :
    a.arranged.destinations? p x = a.destinations? p x := by
  rw [destinations?, destinations?, find?_arranged h]

theorem hasTransition_arranged (h : a.WellFormed) (p : String) (x : Symbol) (r : String) :
    a.arranged.HasTransition p x r ↔ a.HasTransition p x r := by
  simp only [hasTransition_iff, destinations?_arranged h]

theorem wellFormed_arranged (h : a.WellFormed) : a.arranged.WellFormed := by
  have htransition := hasTransition_arranged h
  have hkeys (s : String) : s ∈ a.arranged.delta.keys ↔ s ∈ a.states := by
    rw [OrderedMap.keys, entries_arranged]
    simp [Function.comp_def, OrderedSet.mem_toList]
  refine ⟨⟨h.initial_mem, h.accepting_mem, ?_, ?_, ?_, ?_⟩, ?_⟩
  · exact fun s hs => (hkeys s).1 hs
  · exact fun p x r hr => h.destination_mem p x r ((htransition p x r).1 hr)
  · exact fun p x r hr => h.symbol_mem p x r ((htransition p x r).1 hr)
  · intro p x s hs
    rw [destinations?_arranged h] at hs
    exact h.destinations_ne_empty p x s hs
  · exact fun s hs => (hkeys s).2 hs

theorem arranged_equiv (h : a.WellFormed) : a.arranged ≈ a := by
  refine ⟨OrderedSet.equiv_refl _, OrderedSet.equiv_refl _, ?_, rfl, OrderedSet.equiv_refl _⟩
  intro s
  rw [find?_arranged h]
  exact OrderedMap.equiv_refl (OrderedMap.equiv_refl OrderedSet.equiv_refl) a.delta s

theorem toSpec_arranged (h : a.WellFormed) : a.arranged.toSpec = a.toSpec := by
  simp only [toSpec, find?_arranged h]
  rfl

theorem delta_toSpec (a : Automaton) :
    a.toSpec.delta = a.arranged.delta.map fun row => row.map Targets.ofSet := by
  apply OrderedMap.eq_of_entries_eq
  rw [entries_toSpec, OrderedMap.entries_map, entries_arranged, List.map_map]
  rfl

theorem transitions_toSpec (a : Automaton) : a.toSpec.transitions = a.arranged.transitions := by
  simp only [Spec.transitions, Spec.entries, delta_toSpec, OrderedMap.entries_map, transitions,
    List.flatMap_map, List.flatMap_assoc, Targets.toList_ofSet]

theorem mem_entries_toSpec (h : a.WellFormed) (e : Spec.Entry) :
    e ∈ a.toSpec.entries ↔
      ∃ s, a.destinations? e.source e.symbol = some s ∧ e.targets = Targets.ofSet s := by
  simp only [← destinations?_arranged h, destinations?_eq_some_iff, Spec.mem_entries, delta_toSpec,
    OrderedMap.map, List.mem_map, Prod.exists, Prod.mk.injEq]
  constructor
  · rintro ⟨_, ⟨source, row, hrow, rfl, rfl⟩, hentry⟩
    obtain ⟨⟨x, s⟩, hs, heq⟩ := List.mem_map.1 hentry
    obtain ⟨rfl, ht⟩ := Prod.mk.inj heq
    exact ⟨s, ⟨row, hrow, hs⟩, ht.symm⟩
  · rintro ⟨s, ⟨row, hrow, hs⟩, ht⟩
    refine ⟨_, ⟨e.source, row, hrow, rfl, rfl⟩, ?_⟩
    exact List.mem_map.2 ⟨(e.symbol, s), hs, by rw [ht]⟩

theorem coherent_toSpec (h : a.WellFormed) : a.toSpec.Coherent where
  states_ne_nil := List.ne_nil_of_mem h.initial_mem
  nodup_states := a.states.nodup
  initial_mem := h.initial_mem
  accepting_mem := h.accepting_mem
  source_mem := by
    intro p hp
    rwa [keys_toSpec] at hp
  destinations_ne_nil := by
    intro e he hempty
    obtain ⟨s, hs, ht⟩ := (mem_entries_toSpec h e).1 he
    rw [ht, Targets.toList_ofSet] at hempty
    exact h.destinations_ne_empty _ _ s hs ((OrderedSet.isEmpty_toList_iff s).1 (by simp [hempty]))
  destination_mem := by
    intro e he r hr
    obtain ⟨s, hs, ht⟩ := (mem_entries_toSpec h e).1 he
    rw [ht, Targets.toList_ofSet] at hr
    exact h.destination_mem _ _ r ((a.hasTransition_iff _ _ r).2 ⟨s, hs, hr⟩)

theorem undeclaredSymbols_toSpec (h : a.WellFormed) : a.toSpec.undeclaredSymbols = [] := by
  apply Spec.undeclaredSymbols_eq_nil
  intro e he
  obtain ⟨s, hs, _⟩ := (mem_entries_toSpec h e).1 he
  have hne : s.toList ≠ [] := fun hnil =>
    h.destinations_ne_empty _ _ s hs ((OrderedSet.isEmpty_toList_iff s).1 (by simp [hnil]))
  obtain ⟨r, hr⟩ := List.exists_mem_of_ne_nil s.toList hne
  exact h.symbol_mem _ _ r ((a.hasTransition_iff _ _ r).2 ⟨s, hs, hr⟩)

/-- Writing an automaton and reading it again only puts its rows in the order of the states. -/
theorem toAutomaton_toSpec (h : a.WellFormed) : a.toSpec.toAutomaton = .ok a.arranged := by
  have hset (s : OrderedSet String) : OrderedSet.ofList (Targets.ofSet s).toList = s := by
    rw [Targets.toList_ofSet, OrderedSet.ofList_toList]
  have hrow (row : Row) :
      (row.map Targets.ofSet).map (fun targets => OrderedSet.ofList targets.toList) = row :=
    OrderedMap.map_map_eq_self Targets.ofSet _ hset row
  have hdelta : (a.toSpec.delta.map fun row => row.map fun targets => OrderedSet.ofList targets.toList) =
      a.arranged.delta := by
    rw [delta_toSpec]
    exact OrderedMap.map_map_eq_self (OrderedMap.map Targets.ofSet) _ hrow a.arranged.delta
  have hstates : OrderedSet.ofList a.toSpec.states = a.states := a.states.ofList_toList
  have halphabet : (OrderedSet.ofList a.toSpec.alphabet).insertAll a.toSpec.undeclaredSymbols =
      a.alphabet := by
    rw [undeclaredSymbols_toSpec h]
    exact a.alphabet.ofList_toList
  have haccepting : OrderedSet.ofList a.toSpec.accepting = a.accepting := a.accepting.ofList_toList
  rw [Spec.toAutomaton, (Spec.finding?_eq_none_iff _).2 (coherent_toSpec h)]
  simp only [hdelta, hstates, halphabet, haccepting]
  exact (mapError_eq_ok_iff _ _ _).2 (ofParts_eq_ok a.arranged (wellFormed_arranged h))

end Automaton
end EpsilonAutomata
