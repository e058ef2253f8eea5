import EpsilonAutomata.Proofs.Construction
import EpsilonAutomata.Proofs.Drawing

/-! Transitions that are added one after the other. What comes of them depends on which ones they are, and
not on their order nor on how often each is added; an addition answers that its transition is new exactly
when it makes the automaton larger. -/

namespace EpsilonAutomata.Automaton

/-- Adds transitions in turn, up to the first that fails, and keeps what each addition answered. -/
def addAll (a : Automaton) : List Transition → Except UnknownState (Automaton × List Bool)
  | [] => .ok (a, [])
  | t :: ts => do
    let (b, new) ← a.addTransition t.source t.destination t.symbol
    let (c, answers) ← b.addAll ts
    return (c, new :: answers)

/-- The automaton with further transitions and their symbols, and with nothing else. -/
structure Extends (a : Automaton) (ts : List Transition) (b : Automaton) : Prop where
  states_eq : b.states = a.states
  initial_eq : b.initial = a.initial
  accepting_eq : b.accepting = a.accepting
  mem_alphabet_iff : ∀ x, x ∈ b.alphabet ↔ x ∈ a.alphabet ∨ ∃ t ∈ ts, t.symbol = x
  mem_transitions_iff : ∀ t, t ∈ b.transitions ↔ t ∈ a.transitions ∨ t ∈ ts

variable {a b c : Automaton}

theorem mem_transitions_insertTransition (a : Automaton) (t u : Transition) :
    u ∈ (a.insertTransition t.source t.symbol t.destination).transitions ↔ u ∈ a.transitions ∨ u = t := by
  rcases t with ⟨source, y, destination⟩
  rcases u with ⟨p, x, r⟩
  have hiff := hasTransition_insertTransition a source y destination p x r
  simpa only [mem_transitions, Transition.mk.injEq] using hiff

theorem transitionCount_insertTransition (a : Automaton) (p : String) (x : Symbol) (r : String) :
    (a.insertTransition p x r).transitionCount = a.transitionCount + if a.HasTransition p x r then 0 else 1 := by
  split
  · next ht =>
    rw [insertTransition_of_hasTransition ht]
    rfl
  · next ht =>
    have hmem := mem_transitions_insertTransition a ⟨p, x, r⟩
    have hnew : ⟨p, x, r⟩ ∉ a.transitions := fun hold => ht ((a.mem_transitions p x r).1 hold)
    have hnodup : (⟨p, x, r⟩ :: a.transitions).Nodup := List.nodup_cons.2 ⟨hnew, a.nodup_transitions⟩
    have hperm : (a.insertTransition p x r).transitions.Perm (⟨p, x, r⟩ :: a.transitions) :=
      (List.perm_ext_iff_of_nodup (nodup_transitions _) hnodup).2 fun u => by
        rw [hmem, List.mem_cons, or_comm]
    exact hperm.length_eq

namespace Extends

theorem nil (a : Automaton) : a.Extends [] a := ⟨rfl, rfl, rfl, by simp, by simp⟩

theorem insertTransition (a : Automaton) (t : Transition) :
    a.Extends [t] (a.insertTransition t.source t.symbol t.destination) where
  states_eq := rfl
  initial_eq := rfl
  accepting_eq := rfl
  mem_alphabet_iff x := by
    rw [Automaton.insertTransition, OrderedSet.mem_insert]
    simp [eq_comm]
  mem_transitions_iff u := by
    rw [mem_transitions_insertTransition, List.mem_singleton]

theorem trans {ts us : List Transition} (hb : a.Extends ts b) (hc : b.Extends us c) :
    a.Extends (ts ++ us) c where
  states_eq := hc.states_eq.trans hb.states_eq
  initial_eq := hc.initial_eq.trans hb.initial_eq
  accepting_eq := hc.accepting_eq.trans hb.accepting_eq
  mem_alphabet_iff x := by
    rw [hc.mem_alphabet_iff, hb.mem_alphabet_iff]
    simp only [List.mem_append, or_and_right, exists_or, or_assoc]
  mem_transitions_iff t := by
    rw [hc.mem_transitions_iff, hb.mem_transitions_iff, List.mem_append, or_assoc]

theorem equiv {ts us : List Transition} (hb : a.Extends ts b) (hc : a.Extends us c) (hwell : b.WellFormed)
    (hwell' : c.WellFormed) (hsame : ∀ t, t ∈ ts ↔ t ∈ us) : b ≈ c := by
  have hstates : b.states ≈ c.states := by
    rw [hb.states_eq, hc.states_eq]
    exact OrderedSet.equiv_refl a.states
  have halphabet : b.alphabet ≈ c.alphabet := by
    intro x
    rw [hb.mem_alphabet_iff, hc.mem_alphabet_iff]
    simp only [hsame]
  have htransition (p : String) (x : Symbol) (r : String) : b.HasTransition p x r ↔ c.HasTransition p x r := by
    rw [← mem_transitions, ← mem_transitions, hb.mem_transitions_iff, hc.mem_transitions_iff, hsame]
  have haccepting : b.accepting ≈ c.accepting := by
    rw [hb.accepting_eq, hc.accepting_eq]
    exact OrderedSet.equiv_refl a.accepting
  exact ⟨hstates, halphabet, delta_equiv hwell hwell' hstates htransition,
    hb.initial_eq.trans hc.initial_eq.symm, haccepting⟩

end Extends

def Joins (a : Automaton) (ts : List Transition) : Prop :=
  ∀ t ∈ ts, t.source ∈ a.states ∧ t.destination ∈ a.states

instance (a : Automaton) (ts : List Transition) : Decidable (a.Joins ts) :=
  inferInstanceAs (Decidable (∀ t ∈ ts, t.source ∈ a.states ∧ t.destination ∈ a.states))

theorem WellFormed.addAll (h : a.WellFormed) {ts : List Transition} (hts : a.Joins ts) :
    ∃ b answers, a.addAll ts = .ok (b, answers) ∧ b.WellFormed ∧ a.Extends ts b ∧
      b.transitionCount = a.transitionCount + answers.count true := by
  induction ts generalizing a with
  | nil => exact ⟨a, [], rfl, h, .nil a, rfl⟩
  | cons t ts ih =>
    obtain ⟨hsource, hdestination⟩ := hts t List.mem_cons_self
    have hadd := h.addTransition_eq_ok hsource t.symbol hdestination
    have hgrow := a.transitionCount_insertTransition t.source t.symbol t.destination
    obtain ⟨c, answers, hrest, hwell, hextends, hcount⟩ :=
      ih (h.insertTransition hsource t.symbol hdestination) fun u hu => hts u (List.mem_cons_of_mem t hu)
    refine ⟨c, (decide ¬ a.HasTransition t.source t.symbol t.destination) :: answers, ?_, hwell,
      (Extends.insertTransition a t).trans hextends, ?_⟩
    · rw [Automaton.addAll, hadd]
      simp only [bind, Except.bind, hrest]
      rfl
    · rw [hcount, hgrow, List.count_cons]
      by_cases ht : a.HasTransition t.source t.symbol t.destination
      · simp [ht]
      · simp [ht, Nat.add_assoc, Nat.add_comm 1]

/-- Two lists of the same transitions between states, in whatever order and however often each is listed,
lead to the same automaton up to order: it has the listed transitions and their symbols besides its own. -/
theorem addAll_of_same_transitions (a : Automaton) (h : a.defect? = none)
    (hentries : ∀ s ∈ a.states, s ∈ a.delta.keys) (ts us : List Transition) (hts : a.Joins ts)
    (hsame : ∀ t, t ∈ ts ↔ t ∈ us) :
    ∃ b answers c answers', a.addAll ts = .ok (b, answers) ∧ a.addAll us = .ok (c, answers') ∧ b ≈ c ∧
      a.Extends ts b ∧ a.Extends us c ∧
      b.transitionCount = a.transitionCount + answers.count true ∧
      c.transitionCount = a.transitionCount + answers'.count true := by
  have hwell : a.WellFormed := ⟨a.defect?_eq_none_iff.1 h, hentries⟩
  have hus : a.Joins us := fun t ht => hts t ((hsame t).2 ht)
  obtain ⟨b, answers, hb, hwellb, hextends, hcount⟩ := hwell.addAll hts
  obtain ⟨c, answers', hc, hwellc, hextends', hcount'⟩ := hwell.addAll hus
  exact ⟨b, answers, c, answers', hb, hc, hextends.equiv hextends' hwellb hwellc hsame, hextends, hextends',
    hcount, hcount'⟩

def detours : List Transition :=
  [⟨"start", .ofKey "x", "end"⟩, ⟨"rest", .ofKey "z", "end"⟩, ⟨"end", .epsilon, "end"⟩]

theorem addAll_of_same_transitions_sparse :
    Spec.sparse.parts.defect? = none ∧ (∀ s ∈ Spec.sparse.parts.states, s ∈ Spec.sparse.parts.delta.keys) ∧
      Spec.sparse.parts.Joins (detours ++ detours) ∧ (∀ t, t ∈ detours ++ detours ↔ t ∈ detours.reverse) ∧
      ∃ b answers c answers', Spec.sparse.parts.addAll (detours ++ detours) = .ok (b, answers) ∧
        answers = [false, true, true, false, false, false] ∧
        Spec.sparse.parts.addAll detours.reverse = .ok (c, answers') ∧ answers' = [true, true, false] ∧ b ≈ c ∧
        Spec.sparse.parts.Extends detours.reverse c ∧ .epsilon ∈ c.alphabet ∧
        c.transitionCount = Spec.sparse.parts.transitionCount + 2 := by
  have hwell := Spec.wellFormed_parts Spec.coherent_sparse
  have hdefect := (defect?_eq_none_iff _).2 hwell.toConsistent
  have hjoins : Spec.sparse.parts.Joins (detours ++ detours) := by decide +kernel
  have hsame (t : Transition) : t ∈ detours ++ detours ↔ t ∈ detours.reverse := by simp
  obtain ⟨b, answers, c, answers', hb, hc, hequiv, _, hextends, _, hcount⟩ :=
    addAll_of_same_transitions _ hdefect hwell.entry_of_mem _ _ hjoins hsame
  have htwice : (Spec.sparse.parts.addAll (detours ++ detours)).map Prod.snd =
      .ok [false, true, true, false, false, false] := by decide +kernel
  have hback : (Spec.sparse.parts.addAll detours.reverse).map Prod.snd = .ok [true, true, false] := by
    decide +kernel
  rw [hb] at htwice
  rw [hc] at hback
  obtain rfl := Except.ok.inj htwice
  obtain rfl := Except.ok.inj hback
  have hsilent : .epsilon ∈ c.alphabet :=
    (hextends.mem_alphabet_iff _).2 (.inr ⟨⟨"end", .epsilon, "end"⟩, by decide, rfl⟩)
  exact ⟨hdefect, hwell.entry_of_mem, hjoins, hsame, b, _, c, _, hb, rfl, hc, rfl, hequiv, hextends, hsilent, hcount⟩

end EpsilonAutomata.Automaton
