import EpsilonAutomata.Automaton.Edit
import EpsilonAutomata.Proofs.Check
import EpsilonAutomata.Spec.Conversion

/-! What an automaton is after a state or a transition has been added to it. A new state brings no
transition, a new transition brings itself alone, and neither spoils a well-formed automaton. What is
put together from parts or from a specification is well formed to begin with. -/

namespace EpsilonAutomata

theorem mapError_eq_ok_iff {ε δ α : Type} (f : ε → δ) (result : Except ε α) (x : α) :
    result.mapError f = .ok x ↔ result = .ok x := by
  cases result <;> simp [Except.mapError]

theorem map_eq_ok_iff {ε α β : Type} (f : α → β) (result : Except ε α) (y : β) :
    result.map f = .ok y ↔ ∃ x, result = .ok x ∧ f x = y := by
  cases result <;> simp [Except.map]

namespace Automaton
variable {a b : Automaton}

theorem Consistent.source_mem_of_hasTransition {p r : String} {x : Symbol} (h : a.Consistent)
    (ht : a.HasTransition p x r) : p ∈ a.states := by
  obtain ⟨s, hs, _⟩ := (a.hasTransition_iff p x r).1 ht
  obtain ⟨row, hrow, _⟩ := (a.destinations?_eq_some_iff p x s).1 hs
  exact h.source_mem p (List.mem_map.2 ⟨(p, row), hrow, rfl⟩)

theorem addState_eq_ok_iff (state : String) (accepting : Bool) :
    a.addState state accepting = .ok b ↔
      state ∉ a.states ∧
        b = { a with
          states := a.states.insert state
          delta := a.delta.insert state ∅
          accepting := if accepting then a.accepting.insert state else a.accepting } := by
  unfold addState
  split
  · next h => simp [h]
  · next h => simp [h, eq_comm]

theorem destinations?_addState {state : String} {accepting : Bool} (h : a.Consistent)
    (hb : a.addState state accepting = .ok b) (p : String) (x : Symbol) :
    b.destinations? p x = a.destinations? p x := by
  obtain ⟨hstate, rfl⟩ := (addState_eq_ok_iff state accepting).1 hb
  have hrow : a.delta.find? state = none :=
    (a.delta.find?_eq_none state).2 fun hkey => hstate (h.source_mem state hkey)
  simp only [destinations?, OrderedMap.insert, OrderedMap.find?_alter]
  split
  · next hp =>
    rw [hp, hrow]
    rfl
  · rfl

theorem hasTransition_addState {state : String} {accepting : Bool} (h : a.Consistent)
    (hb : a.addState state accepting = .ok b) (p : String) (x : Symbol) (r : String) :
    b.HasTransition p x r ↔ a.HasTransition p x r := by
  simp only [hasTransition_iff, destinations?_addState h hb]

theorem isAccepting_addState {state : String} {accepting : Bool} (h : a.Consistent)
    (hb : a.addState state accepting = .ok b) (s : String) :
    b.isAccepting s = if s = state then accepting else a.isAccepting s := by
  obtain ⟨hfresh, rfl⟩ := (addState_eq_ok_iff state accepting).1 hb
  have hunaccepted : state ∉ a.accepting := fun hacc => hfresh (h.accepting_mem state hacc)
  by_cases hs : s = state
  · cases accepting <;> simp [isAccepting, hs, hunaccepted]
  · cases accepting <;> simp [isAccepting, hs]

theorem WellFormed.addState {state : String} {accepting : Bool} (h : a.WellFormed)
    (hb : a.addState state accepting = .ok b) : b.WellFormed := by
  have htransition := hasTransition_addState h.toConsistent hb
  have hdestinations := destinations?_addState h.toConsistent hb
  obtain ⟨_, rfl⟩ := (addState_eq_ok_iff state accepting).1 hb
  have hkeys (s : String) : s ∈ (a.delta.insert state ∅).keys ↔ s ∈ a.delta.keys ∨ s = state := by
    rw [OrderedMap.insert, OrderedMap.keys_alter]
    split
    · next hkey => exact ⟨Or.inl, fun hs => hs.elim id fun heq => heq ▸ hkey⟩
    · simp
  refine ⟨⟨?_, ?_, ?_, ?_, ?_, ?_⟩, ?_⟩
  · exact (OrderedSet.mem_insert _ _ _).2 (.inl h.initial_mem)
  · intro s hs
    cases accepting with
    | false => exact (OrderedSet.mem_insert _ _ _).2 (.inl (h.accepting_mem s hs))
    | true =>
      rcases (OrderedSet.mem_insert _ _ _).1 hs with hs | rfl
      · exact (OrderedSet.mem_insert _ _ _).2 (.inl (h.accepting_mem s hs))
      · exact (OrderedSet.mem_insert _ _ _).2 (.inr rfl)
  · intro s hs
    exact (OrderedSet.mem_insert _ _ _).2 (((hkeys s).1 hs).imp_left (h.source_mem s))
  · intro p x r hr
    exact (OrderedSet.mem_insert _ _ _).2 (.inl (h.destination_mem p x r ((htransition p x r).1 hr)))
  · intro p x r hr
    exact h.symbol_mem p x r ((htransition p x r).1 hr)
  · intro p x s hs
    rw [hdestinations] at hs
    exact h.destinations_ne_empty p x s hs
  · intro s hs
    exact (hkeys s).2 (((OrderedSet.mem_insert _ _ _).1 hs).imp_left (h.entry_of_mem s))

theorem destinations?_insertTransition (a : Automaton) (source : String) (y : Symbol)
    (destination p : String) (x : Symbol) :
    (a.insertTransition source y destination).destinations? p x =
      if p = source ∧ x = y then some (((a.destinations? source y).getD ∅).insert destination)
      else a.destinations? p x := by
  simp only [destinations?, insertTransition, OrderedMap.find?_alter]
  by_cases hp : p = source
  · subst hp
    rw [if_pos rfl, Option.bind_some, OrderedMap.find?_alter]
    cases a.delta.find? p with
    | none => by_cases hx : x = y <;> simp [hx] <;> rfl
    | some row => by_cases hx : x = y <;> simp [hx]
  · simp [hp]

theorem hasTransition_insertTransition (a : Automaton) (source : String) (y : Symbol)
    (destination p : String) (x : Symbol) (r : String) :
    (a.insertTransition source y destination).HasTransition p x r ↔
      a.HasTransition p x r ∨ p = source ∧ x = y ∧ r = destination := by
  simp only [hasTransition_iff, destinations?_insertTransition]
  split
  · next h =>
    obtain ⟨rfl, rfl⟩ := h
    cases a.destinations? p x <;> simp
  · next h =>
    constructor
    · exact Or.inl
    · rintro (hr | ⟨hp, hx, _⟩)
      · exact hr
      · exact absurd ⟨hp, hx⟩ h

theorem WellFormed.insertTransition {source destination : String} (h : a.WellFormed)
    (hsource : source ∈ a.states) (y : Symbol) (hdestination : destination ∈ a.states) :
    (a.insertTransition source y destination).WellFormed := by
  have hkeys : (a.insertTransition source y destination).delta.keys = a.delta.keys := by
    simp only [Automaton.insertTransition, OrderedMap.keys_alter, if_pos (h.entry_of_mem source hsource)]
  have htransition := hasTransition_insertTransition a source y destination
  have hsymbol (x : Symbol) :
      x ∈ (a.insertTransition source y destination).alphabet ↔ x ∈ a.alphabet ∨ x = y :=
    OrderedSet.mem_insert _ _ _
  refine ⟨⟨h.initial_mem, h.accepting_mem, ?_, ?_, ?_, ?_⟩, ?_⟩
  · intro s hs
    rw [hkeys] at hs
    exact h.source_mem s hs
  · intro p x r hr
    rcases (htransition p x r).1 hr with hr | ⟨_, _, rfl⟩
    · exact h.destination_mem p x r hr
    · exact hdestination
  · intro p x r hr
    rw [hsymbol]
    rcases (htransition p x r).1 hr with hr | ⟨_, hx, _⟩
    · exact (h.symbol_mem p x r hr).imp_right .inl
    · exact .inr (.inr hx)
  · intro p x s hs
    rw [destinations?_insertTransition] at hs
    split at hs
    · obtain rfl := Option.some.inj hs
      intro hempty
      have hmem := (OrderedSet.mem_insert ((a.destinations? source y).getD ∅) destination destination).2 (.inr rfl)
      rw [hempty] at hmem
      exact OrderedSet.not_mem_empty _ hmem
    · exact h.destinations_ne_empty p x s hs
  · intro s hs
    rw [hkeys]
    exact h.entry_of_mem s hs

theorem addTransition_eq_ok_iff (source destination : String) (x : Symbol) (new : Bool) :
    a.addTransition source destination x = .ok (b, new) ↔
      destination ∈ a.states ∧ source ∈ a.delta.keys ∧ b = a.insertTransition source x destination ∧
        new = decide ¬ a.HasTransition source x destination := by
  unfold addTransition
  split
  · next hdestination => simp [hdestination]
  · next hdestination =>
    split
    · next hsource => simp [hsource]
    · next hsource =>
      rw [not_not] at hdestination hsource
      simp [hdestination, hsource, eq_comm]

theorem WellFormed.addTransition_eq_ok {source destination : String} (h : a.WellFormed)
    (hsource : source ∈ a.states) (x : Symbol) (hdestination : destination ∈ a.states) :
    a.addTransition source destination x =
      .ok (a.insertTransition source x destination, decide ¬ a.HasTransition source x destination) :=
  (addTransition_eq_ok_iff source destination x _).2 ⟨hdestination, h.entry_of_mem source hsource, rfl, rfl⟩

/-- Adding a transition that is there already touches nothing but the alphabet. -/
theorem insertTransition_of_hasTransition {p r : String} {x : Symbol} (h : a.HasTransition p x r) :
    a.insertTransition p x r = { a with alphabet := a.alphabet.insert x } := by
  obtain ⟨s, hs, hr⟩ := (a.hasTransition_iff p x r).1 h
  obtain ⟨row, hrow, hs⟩ := Option.bind_eq_some_iff.1 hs
  have hset : s.insert r = s := OrderedSet.insert_of_mem hr
  have hentry : row.alter x (fun old => (old.getD ∅).insert r) = row := by
    apply row.alter_eq_self
    · exact List.mem_map.2 ⟨(x, s), OrderedMap.find?_eq_some.1 hs, rfl⟩
    · intro t ht
      obtain rfl := Option.some.inj (hs.symm.trans ht)
      exact hset
  have hdelta : a.delta.alter p (fun old => (old.getD ∅).alter x fun old => (old.getD ∅).insert r) =
      a.delta := by
    apply a.delta.alter_eq_self
    · exact List.mem_map.2 ⟨(p, row), OrderedMap.find?_eq_some.1 hrow, rfl⟩
    · intro t ht
      obtain rfl := Option.some.inj (hrow.symm.trans ht)
      exact hentry
  simp only [insertTransition, hdelta]

theorem insertTransition_idem (a : Automaton) (p : String) (x : Symbol) (r : String) :
    (a.insertTransition p x r).insertTransition p x r = a.insertTransition p x r := by
  have ht : (a.insertTransition p x r).HasTransition p x r :=
    (hasTransition_insertTransition a p x r p x r).2 (.inr ⟨rfl, rfl, rfl⟩)
  have hx : x ∈ (a.insertTransition p x r).alphabet := (OrderedSet.mem_insert _ _ _).2 (.inr rfl)
  rw [insertTransition_of_hasTransition ht, OrderedSet.insert_of_mem hx]

theorem wellFormed_new : Automaton.new.WellFormed where
  toConsistent := (defect?_eq_none_iff _).1 (by decide)
  entry_of_mem := by
    intro s hs
    obtain rfl := List.mem_singleton.1 hs
    decide

theorem mem_keys_completeRows (states : OrderedSet String) (delta : OrderedMap String Row) {s : String}
    (hs : s ∈ states) : s ∈ (completeRows states delta).keys := by
  have hall (l : List String) (m : OrderedMap String Row) (h : s ∈ l ∨ s ∈ m.keys) :
      s ∈ (l.foldl (fun m s => m.alter s fun row => row.getD ∅) m).keys := by
    induction l generalizing m with
    | nil => simpa using h
    | cons r l ih =>
      rw [List.foldl_cons]
      apply ih
      rw [OrderedMap.keys_alter, List.mem_cons] at *
      split
      · next hr => grind
      · next hr => grind
  exact hall states.toList delta (.inl hs)

theorem wellFormed_of_ofParts {states : OrderedSet String} {alphabet : OrderedSet Symbol}
    {delta : OrderedMap String Row} {initial : String} {accepting : OrderedSet String}
    (h : ofParts states alphabet delta initial accepting = .ok a) : a.WellFormed := by
  simp only [ofParts] at h
  split at h
  · cases h
  · next hdefect =>
    cases h
    exact ⟨(defect?_eq_none_iff _).1 hdefect, fun s hs => mem_keys_completeRows states delta hs⟩

theorem wellFormed_of_toAutomaton {s : Spec} (h : s.toAutomaton = .ok a) : a.WellFormed := by
  unfold Spec.toAutomaton at h
  split at h
  · cases h
  · exact wellFormed_of_ofParts ((mapError_eq_ok_iff _ _ _).1 h)

end Automaton
end EpsilonAutomata
