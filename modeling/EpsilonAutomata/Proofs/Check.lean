import EpsilonAutomata.Automaton.Check
import EpsilonAutomata.Proofs.Paths

/-! The check of an automaton finds nothing exactly when the automaton is consistent. -/

namespace EpsilonAutomata.Automaton

theorem destinations?_eq_some_iff (a : Automaton) (p : String) (x : Symbol)
    (s : OrderedSet String) :
    a.destinations? p x = some s ↔ ∃ row, (p, row) ∈ a.delta.entries ∧ (x, s) ∈ row.entries := by
  rw [destinations?, Option.bind_eq_some_iff]
  constructor
  · rintro ⟨row, hrow, hs⟩
    exact ⟨row, OrderedMap.find?_eq_some.1 hrow, OrderedMap.find?_eq_some.1 hs⟩
  · rintro ⟨row, hrow, hs⟩
    exact ⟨row, OrderedMap.find?_eq_some.2 hrow, OrderedMap.find?_eq_some.2 hs⟩

theorem hasTransition_iff (a : Automaton) (p : String) (x : Symbol) (r : String) :
    a.HasTransition p x r ↔ ∃ s, a.destinations? p x = some s ∧ r ∈ s := by
  rw [HasTransition, destinations]
  cases a.destinations? p x with
  | none => simp
  | some s => simp [OrderedSet.mem_toList]

theorem emptyEntries_eq_nil_iff (a : Automaton) :
    a.emptyEntries = [] ↔ ∀ p x s, a.destinations? p x = some s → s ≠ ∅ := by
  simp only [emptyEntries, List.flatMap_eq_nil_iff, List.map_eq_nil_iff, List.filter_eq_nil_iff,
    Prod.forall, destinations?_eq_some_iff, OrderedSet.isEmpty_toList_iff]
  constructor
  · rintro h p x s ⟨row, hrow, hs⟩
    exact h p row hrow x s hs
  · intro h p row hrow x s hs
    exact h p x s ⟨row, hrow, hs⟩

theorem undeclaredTarget?_eq_none_iff (a : Automaton) (t : Transition) :
    a.undeclaredTarget? t = none ↔
      t.destination ∈ a.states ∧ (t.symbol = .epsilon ∨ t.symbol ∈ a.alphabet) := by
  unfold undeclaredTarget?
  split
  · next hdestination => simp [hdestination]
  · next hdestination =>
    have hknown : t.destination ∈ a.states := not_not.1 hdestination
    split
    · next hsymbol => simp [hsymbol]
    · next hsymbol =>
      rw [not_and_or, not_not, not_not] at hsymbol
      exact ⟨fun _ => ⟨hknown, hsymbol⟩, fun _ => rfl⟩

theorem defect?_eq_none_iff (a : Automaton) : a.defect? = none ↔ a.Consistent := by
  have haccepting : a.accepting.toList.find? (· ∉ a.states) = none ↔
      ∀ s ∈ a.accepting, s ∈ a.states := by
    simp [List.find?_eq_none, OrderedSet.mem_toList]
  have hsource : a.delta.keys.find? (· ∉ a.states) = none ↔
      ∀ s ∈ a.delta.keys, s ∈ a.states := by
    simp [List.find?_eq_none]
  have htarget : a.transitions.findSome? a.undeclaredTarget? = none ↔
      ∀ p x r, a.HasTransition p x r → r ∈ a.states ∧ (x = .epsilon ∨ x ∈ a.alphabet) := by
    simp only [List.findSome?_eq_none_iff, undeclaredTarget?_eq_none_iff, ← mem_transitions]
    exact ⟨fun h p x r => h ⟨p, x, r⟩, fun h t => h t.source t.symbol t.destination⟩
  have hempty := a.emptyEntries_eq_nil_iff
  unfold defect?
  constructor
  · intro h
    split at h
    · cases h
    · next h₁ =>
    split at h
    · cases h
    · next h₂ =>
    split at h
    · cases h
    · next h₃ =>
    split at h
    · cases h
    · next h₄ =>
    split at h
    · cases h
    · next h₅ =>
    -- every check was passed, each by the equivalence above
    exact ⟨not_not.1 h₁, haccepting.1 h₂, hsource.1 h₃, fun p x r hr => (htarget.1 h₄ p x r hr).1,
      fun p x r hr => (htarget.1 h₄ p x r hr).2, hempty.1 h₅⟩
  · intro h
    rw [if_neg (not_not.2 h.initial_mem), haccepting.2 h.accepting_mem, hsource.2 h.source_mem,
      htarget.2 fun p x r hr => ⟨h.destination_mem p x r hr, h.symbol_mem p x r hr⟩,
      hempty.2 h.destinations_ne_empty]

theorem completeRows_of_forall_mem (states : OrderedSet String) (delta : OrderedMap String Row)
    (h : ∀ s ∈ states, s ∈ delta.keys) : completeRows states delta = delta := by
  have hall : ∀ l : List String, (∀ s ∈ l, s ∈ delta.keys) →
      l.foldl (fun m s => m.alter s fun row => row.getD ∅) delta = delta := by
    intro l hl
    induction l with
    | nil => rfl
    | cons s l ih =>
      have hs : delta.alter s (fun row => row.getD ∅) = delta :=
        delta.alter_eq_self s _ (hl s List.mem_cons_self) fun _ _ => rfl
      rw [List.foldl_cons, hs]
      exact ih fun r hr => hl r (List.mem_cons_of_mem s hr)
  exact hall states.toList h

theorem ofParts_eq_ok (a : Automaton) (h : a.WellFormed) :
    ofParts a.states a.alphabet a.delta a.initial a.accepting = .ok a := by
  have hrows := completeRows_of_forall_mem a.states a.delta h.entry_of_mem
  have hcheck := a.defect?_eq_none_iff.2 h.toConsistent
  simp only [ofParts, hrows]
  rw [hcheck]

end EpsilonAutomata.Automaton
