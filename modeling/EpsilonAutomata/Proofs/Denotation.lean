import EpsilonAutomata.Proofs.Export

/-! The automaton that a specification denotes. A specification yields an automaton exactly when it is
coherent, and then the one with the states in their order and with the transitions that are written; the
check of the assembled parts never finds anything that the analysis has let pass. -/

namespace EpsilonAutomata

namespace Spec

def targets? (s : Spec) (p : String) (x : Symbol) : Option Targets := (s.delta.find? p).bind (·.find? x)

def used (s : Spec) : List Symbol := s.entries.map Entry.symbol

/-- What the automaton of a specification is, read off the specification. -/
structure Denotes (s : Spec) (a : Automaton) : Prop where
  states : a.states.toList = s.states
  alphabet : a.alphabet.toList =
    s.alphabet.eraseDups ++ (s.used.filter fun x => x ≠ .epsilon ∧ x ∉ s.alphabet).eraseDups
  initial : a.initial = s.initial
  accepting : ∀ p, p ∈ a.accepting ↔ p ∈ s.accepting
  sources : ∀ p, p ∈ a.delta.keys ↔ p ∈ s.states
  transition : ∀ p x r, a.HasTransition p x r ↔ ∃ targets, s.targets? p x = some targets ∧ r ∈ targets.toList

/-- The parts that are put together, before they are checked. -/
def parts (s : Spec) : Automaton where
  states := .ofList s.states
  alphabet := (OrderedSet.ofList s.alphabet).insertAll s.undeclaredSymbols
  delta := Automaton.completeRows (.ofList s.states)
    (s.delta.map fun row => row.map fun targets => OrderedSet.ofList targets.toList)
  initial := s.initial
  accepting := .ofList s.accepting

variable {s : Spec}

theorem mem_entries_iff_targets? (s : Spec) (e : Entry) :
    e ∈ s.entries ↔ s.targets? e.source e.symbol = some e.targets := by
  simp only [mem_entries, targets?, Option.bind_eq_some_iff, OrderedMap.find?_eq_some]

theorem used_eq (s : Spec) : s.used = s.delta.values.flatMap OrderedMap.keys := by
  simp [used, entries, OrderedMap.values, OrderedMap.keys, List.map_flatMap, List.flatMap_map,
    Function.comp_def]

theorem undeclaredSymbols_eq (s : Spec) :
    s.undeclaredSymbols = (s.used.filter fun x => x ≠ .epsilon ∧ x ∉ s.alphabet).eraseDups := by
  rw [undeclaredSymbols, OrderedSet.toList_ofList_eq, used_eq]
  congr 2
  funext x
  cases x <;> simp [Symbol.isEpsilon]

theorem mem_undeclaredSymbols (s : Spec) (x : Symbol) :
    x ∈ s.undeclaredSymbols ↔ x ∈ s.used ∧ x ≠ .epsilon ∧ x ∉ s.alphabet := by
  simp [undeclaredSymbols_eq]

theorem alphabet_parts (s : Spec) :
    s.parts.alphabet.toList = s.alphabet.eraseDups ++ s.undeclaredSymbols := by
  have hdisjoint : ((OrderedSet.ofList s.alphabet).toList ++ s.undeclaredSymbols).Nodup := by
    refine List.nodup_append.2 ⟨OrderedSet.nodup _, OrderedSet.nodup _, ?_⟩
    rintro x hx y hy rfl
    have hdeclared := (OrderedSet.mem_ofList s.alphabet x).1 hx
    exact ((s.mem_undeclaredSymbols x).1 hy).2.2 hdeclared
  rw [parts, OrderedSet.toList_insertAll _ _ hdisjoint, OrderedSet.toList_ofList_eq]

end Spec

namespace Automaton

theorem find?_completeRows (states : OrderedSet String) (delta : OrderedMap String Row) (p : String) :
    (completeRows states delta).find? p =
      if p ∈ states then some ((delta.find? p).getD ∅) else delta.find? p := by
  have hall (l : List String) (m : OrderedMap String Row) :
      (l.foldl (fun m s => m.alter s fun row => row.getD ∅) m).find? p =
        if p ∈ l then some ((m.find? p).getD ∅) else m.find? p := by
    induction l generalizing m with
    | nil => simp
    | cons q l ih =>
      rw [List.foldl_cons, ih, OrderedMap.find?_alter]
      by_cases hq : p = q
      · subst hq
        simp
      · simp [hq]
  exact hall states.toList delta

end Automaton

namespace Spec
variable {s : Spec}

theorem destinations?_parts (s : Spec) (p : String) (x : Symbol) :
    s.parts.destinations? p x = (s.targets? p x).map fun targets => .ofList targets.toList := by
  rw [Automaton.destinations?, parts, targets?, Automaton.find?_completeRows, OrderedMap.find?_map]
  cases s.delta.find? p with
  | none => split <;> rfl
  | some row => split <;> exact row.find?_map (fun targets => OrderedSet.ofList targets.toList) x

theorem hasTransition_parts (s : Spec) (p : String) (x : Symbol) (r : String) :
    s.parts.HasTransition p x r ↔ ∃ targets, s.targets? p x = some targets ∧ r ∈ targets.toList := by
  simp only [Automaton.hasTransition_iff, destinations?_parts, Option.map_eq_some_iff]
  constructor
  · rintro ⟨_, ⟨targets, htargets, rfl⟩, hr⟩
    exact ⟨targets, htargets, (OrderedSet.mem_ofList _ r).1 hr⟩
  · rintro ⟨targets, htargets, hr⟩
    exact ⟨_, ⟨targets, htargets, rfl⟩, (OrderedSet.mem_ofList _ r).2 hr⟩

theorem mem_keys_parts (h : s.Coherent) (p : String) : p ∈ s.parts.delta.keys ↔ p ∈ s.states := by
  have hdeclared : p ∈ OrderedSet.ofList s.states ↔ p ∈ s.states := OrderedSet.mem_ofList _ p
  rw [OrderedMap.mem_keys_iff, parts, Automaton.find?_completeRows, OrderedMap.find?_map]
  split
  · next hp => simp [← hdeclared, hp]
  · next hp =>
    have hsource : s.delta.find? p = none := (OrderedMap.find?_eq_none _ _).2 fun hkey =>
      hp (hdeclared.2 (h.source_mem p hkey))
    simp [hsource, ← hdeclared, hp]

theorem denotes_parts (h : s.Coherent) : s.Denotes s.parts where
  states := OrderedSet.toList_ofList _ h.nodup_states
  alphabet := by rw [alphabet_parts, undeclaredSymbols_eq]
  initial := rfl
  accepting := OrderedSet.mem_ofList s.accepting
  sources := mem_keys_parts h
  transition := s.hasTransition_parts

theorem wellFormed_parts (h : s.Coherent) : s.parts.WellFormed := by
  have hdenotes := denotes_parts h
  have hstate (p : String) : p ∈ s.parts.states ↔ p ∈ s.states := OrderedSet.mem_ofList s.states p
  refine ⟨⟨(hstate _).2 h.initial_mem, ?_, ?_, ?_, ?_, ?_⟩, ?_⟩
  · intro p hp
    exact (hstate p).2 (h.accepting_mem p ((hdenotes.accepting p).1 hp))
  · intro p hp
    exact (hstate p).2 ((hdenotes.sources p).1 hp)
  · intro p x r hr
    obtain ⟨targets, htargets, hr⟩ := (hdenotes.transition p x r).1 hr
    have hentry : ⟨p, x, targets⟩ ∈ s.entries := (s.mem_entries_iff_targets? _).2 htargets
    exact (hstate r).2 (h.destination_mem _ hentry r hr)
  · intro p x r hr
    obtain ⟨targets, htargets, _⟩ := (hdenotes.transition p x r).1 hr
    have hentry : ⟨p, x, targets⟩ ∈ s.entries := (s.mem_entries_iff_targets? _).2 htargets
    have hused : x ∈ s.used := List.mem_map.2 ⟨_, hentry, rfl⟩
    -- a symbol that the alphabet lacks is one of those that join it
    rw [← OrderedSet.mem_toList, alphabet_parts, List.mem_append, List.mem_eraseDups,
      mem_undeclaredSymbols]
    by_cases hx : x = .epsilon
    · exact .inl hx
    · by_cases hletter : x ∈ s.alphabet
      · exact .inr (.inl hletter)
      · exact .inr (.inr ⟨hused, hx, hletter⟩)
  · intro p x t ht hempty
    rw [destinations?_parts, Option.map_eq_some_iff] at ht
    obtain ⟨targets, htargets, rfl⟩ := ht
    have hentry : ⟨p, x, targets⟩ ∈ s.entries := (s.mem_entries_iff_targets? _).2 htargets
    obtain ⟨r, hr⟩ := List.exists_mem_of_ne_nil _ (h.destinations_ne_nil _ hentry)
    have hmem := (OrderedSet.mem_ofList targets.toList r).2 hr
    rw [hempty] at hmem
    exact OrderedSet.not_mem_empty r hmem
  · intro p hp
    exact (hdenotes.sources p).2 ((hstate p).1 hp)

theorem toAutomaton_of_coherent (h : s.Coherent) : s.toAutomaton = .ok s.parts := by
  have hcheck := s.parts.defect?_eq_none_iff.2 (wellFormed_parts h).toConsistent
  rw [toAutomaton, s.finding?_eq_none_iff.2 h]
  refine (mapError_eq_ok_iff _ _ _).2 ?_
  simp only [Automaton.ofParts]
  rw [← parts, hcheck]

theorem toAutomaton_of_finding {f : Finding} (h : s.finding? = some f) :
    s.toAutomaton = .error (.finding f) := by
  rw [toAutomaton, h]

end Spec

namespace Automaton
variable {a b : Automaton}

theorem exists_destinations_of_transition (ha : a.Consistent)
    (htransition : ∀ p x r, a.HasTransition p x r ↔ b.HasTransition p x r) {p : String} {x : Symbol}
    {t : OrderedSet String} (ht : a.destinations? p x = some t) :
    ∃ t', b.destinations? p x = some t' ∧ t ≈ t' := by
  have hne : t.toList ≠ [] := fun hnil =>
    ha.destinations_ne_empty p x t ht ((OrderedSet.isEmpty_toList_iff t).1 (by simp [hnil]))
  obtain ⟨r, hr⟩ := List.exists_mem_of_ne_nil t.toList hne
  have hb : b.HasTransition p x r := (htransition p x r).1 ((a.hasTransition_iff p x r).2 ⟨t, ht, hr⟩)
  obtain ⟨t', ht', _⟩ := (b.hasTransition_iff p x r).1 hb
  refine ⟨t', ht', fun y => ?_⟩
  have hsame := htransition p x y
  simpa [hasTransition_iff, ht, ht'] using hsame

theorem delta_equiv (ha : a.WellFormed) (hb : b.WellFormed) (hstates : a.states ≈ b.states)
    (htransition : ∀ p x r, a.HasTransition p x r ↔ b.HasTransition p x r) : a.delta ≈ b.delta := by
  have hagrees {p : String} {row row' : Row} (hrow : a.delta.find? p = some row)
      (hrow' : b.delta.find? p = some row') : row ≈ row' := by
    have hdestinations (x : Symbol) : a.destinations? p x = row.find? x := by simp [destinations?, hrow]
    have hdestinations' (x : Symbol) : b.destinations? p x = row'.find? x := by simp [destinations?, hrow']
    intro x
    rw [OrderedMap.agrees_iff]
    constructor
    · intro t ht
      obtain ⟨t', ht', heq⟩ :=
        exists_destinations_of_transition ha.toConsistent htransition ((hdestinations x).trans ht)
      exact ⟨t', (hdestinations' x).symm.trans ht', heq⟩
    · intro t' ht'
      obtain ⟨t, ht, heq⟩ := exists_destinations_of_transition hb.toConsistent
        (fun p x r => (htransition p x r).symm) ((hdestinations' x).trans ht')
      exact ⟨t, (hdestinations x).symm.trans ht, fun y => (heq y).symm⟩
  intro p
  rw [OrderedMap.agrees_iff]
  constructor
  · intro row hrow
    have hstate := ha.source_mem p (OrderedMap.mem_keys_iff.2 ⟨row, hrow⟩)
    obtain ⟨row', hrow'⟩ := OrderedMap.mem_keys_iff.1 (hb.entry_of_mem p ((hstates p).1 hstate))
    exact ⟨row', hrow', hagrees hrow hrow'⟩
  · intro row' hrow'
    have hstate := hb.source_mem p (OrderedMap.mem_keys_iff.2 ⟨row', hrow'⟩)
    obtain ⟨row, hrow⟩ := OrderedMap.mem_keys_iff.1 (ha.entry_of_mem p ((hstates p).2 hstate))
    exact ⟨row, hrow, hagrees hrow hrow'⟩

end Automaton

namespace Spec
variable {s : Spec}

theorem Denotes.equiv {a b : Automaton} (ha : s.Denotes a) (hb : s.Denotes b) (hwell : a.WellFormed)
    (hwell' : b.WellFormed) : a ≈ b := by
  have hstates : a.states ≈ b.states := by
    intro p
    rw [← OrderedSet.mem_toList, ← OrderedSet.mem_toList, ha.states, hb.states]
  have halphabet : a.alphabet ≈ b.alphabet := by
    intro x
    rw [← OrderedSet.mem_toList, ← OrderedSet.mem_toList, ha.alphabet, hb.alphabet]
  have haccepting : a.accepting ≈ b.accepting := fun p => (ha.accepting p).trans (hb.accepting p).symm
  have hdelta : a.delta ≈ b.delta := Automaton.delta_equiv hwell hwell' hstates fun p x r =>
    (ha.transition p x r).trans (hb.transition p x r).symm
  exact ⟨hstates, halphabet, hdelta, ha.initial.trans hb.initial.symm, haccepting⟩

/-- A specification is accepted exactly when it is coherent, is refused for what the analysis finds and
for nothing else, and yields the one automaton that it denotes. -/
theorem toAutomaton_denotes (s : Spec) :
    ((∃ a, s.toAutomaton = .ok a) ↔ s.Coherent) ∧
      (∀ fault, s.toAutomaton = .error fault ↔ ∃ f, s.finding? = some f ∧ fault = .finding f) ∧
      ∀ a, s.toAutomaton = .ok a → s.Denotes a ∧ ∀ b, b.WellFormed → s.Denotes b → b ≈ a := by
  by_cases h : s.Coherent
  · have hparts := toAutomaton_of_coherent h
    have hnone := s.finding?_eq_none_iff.2 h
    refine ⟨⟨fun _ => h, fun _ => ⟨_, hparts⟩⟩, ?_, ?_⟩
    · intro fault
      simp [hparts, hnone]
    · intro a ha
      obtain rfl := Except.ok.inj (hparts.symm.trans ha)
      exact ⟨denotes_parts h, fun b hwell hb => hb.equiv (denotes_parts h) hwell (wellFormed_parts h)⟩
  · obtain ⟨f, hf⟩ := Option.ne_none_iff_exists'.1 fun hnone => h (s.finding?_eq_none_iff.1 hnone)
    have herror := toAutomaton_of_finding hf
    refine ⟨?_, ?_, ?_⟩
    · simp [herror, h]
    · intro fault
      simp [herror, hf, eq_comm]
    · intro a ha
      rw [herror] at ha
      cases ha

def sparse : Spec where
  states := ["end", "start", "rest"]
  alphabet := [.ofKey "1", .ofKey "0", .ofKey "1"]
  delta := .ofList [
    ("start", .ofList [(.epsilon, .many ["rest", "rest"]), (.ofKey "x", .one "end")]),
    ("rest", .ofList [(.ofKey "y", .many ["end", "start"]), (.ofKey "x", .many ["start"]), (.ofKey "0", .one "rest")])]
  initial := "start"
  accepting := ["end", "end"]

theorem coherent_sparse : sparse.Coherent := sparse.finding?_eq_none_iff.1 (by decide)

theorem toAutomaton_denotes_sparse :
    sparse.Coherent ∧ ∃ a, sparse.toAutomaton = .ok a ∧ sparse.Denotes a ∧
      a.alphabet.toList = [.ofKey "1", .ofKey "0", .ofKey "x", .ofKey "y"] ∧
      a.delta.keys = ["start", "rest", "end"] := by
  obtain ⟨hiff, _, hdenotes⟩ := toAutomaton_denotes sparse
  obtain ⟨a, ha⟩ := hiff.2 coherent_sparse
  have hparts := Except.ok.inj ((toAutomaton_of_coherent coherent_sparse).symm.trans ha)
  refine ⟨coherent_sparse, a, ha, (hdenotes a ha).1, ?_, ?_⟩ <;> rw [← hparts] <;> decide +kernel

end Spec
end EpsilonAutomata
