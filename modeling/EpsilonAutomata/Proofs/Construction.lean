import EpsilonAutomata.Deterministic.Minimal
import EpsilonAutomata.Proofs.Denotation
import EpsilonAutomata.Proofs.InPlace

/-! Automata with a past. However an automaton came about and whatever was added to it since, with or
without success, the check finds nothing in it and its rows are those of its states. -/

namespace EpsilonAutomata.Automaton

def leftBy (a : Automaton) (addition : Addition) : Automaton :=
  match (carryOut addition).run a with
  | .ok _ b => b
  | .error _ b => b

/-- The automata that are new, put together from parts, read from a specification or converted from
another automaton, and those that additions make of them. -/
inductive Constructed : Automaton → Prop
  | new : Constructed .new
  | assembled {states : OrderedSet String} {alphabet : OrderedSet Symbol} {delta : OrderedMap String Row}
    {initial : String} {accepting : OrderedSet String} {a : Automaton} :
    ofParts states alphabet delta initial accepting = .ok a → Constructed a
  | imported {s : Spec} {a : Automaton} : s.toAutomaton = .ok a → Constructed a
  | determinised {a b : Automaton} : a.determinise = .ok b → Constructed b
  | minimised {a b : Automaton} : a.minimise = .ok b → Constructed b
  | extended {a : Automaton} (addition : Addition) : Constructed a → Constructed (a.leftBy addition)

variable {a b : Automaton}

theorem WellFormed.addTransition {source destination : String} {x : Symbol} {new : Bool} (h : a.WellFormed)
    (hb : a.addTransition source destination x = .ok (b, new)) : b.WellFormed := by
  obtain ⟨hdestination, hsource, rfl, _⟩ := (addTransition_eq_ok_iff source destination x new).1 hb
  exact h.insertTransition (h.source_mem source hsource) x hdestination

theorem WellFormed.attempt {addition : Addition} (h : a.WellFormed) (hb : a.attempt addition = .ok b) :
    b.WellFormed := by
  cases addition with
  | state name accepting => exact h.addState ((mapError_eq_ok_iff _ _ _).1 hb)
  | transition source destination x =>
    obtain ⟨⟨c, new⟩, hc, rfl⟩ := (map_eq_ok_iff _ _ _).1 ((mapError_eq_ok_iff _ _ _).1 hb)
    exact h.addTransition hc

theorem WellFormed.leftBy (h : a.WellFormed) (addition : Addition) : (a.leftBy addition).WellFormed := by
  have hrun := a.run_carryOut addition
  unfold Automaton.leftBy
  split
  · next b hok => exact h.attempt ((settled_eq_ok_iff a b _).1 (hrun.symm.trans hok))
  · next error b herror =>
    obtain ⟨_, rfl⟩ := (settled_eq_error_iff a b _ error).1 (hrun.symm.trans herror)
    exact h

theorem Constructed.wellFormed (h : a.Constructed) : a.WellFormed := by
  induction h with
  | new => exact wellFormed_new
  | assembled hparts => exact wellFormed_of_ofParts hparts
  | imported hspec => exact wellFormed_of_toAutomaton hspec
  | determinised hb => exact wellFormed_of_ofParts hb
  | minimised hb => exact wellFormed_of_ofParts hb
  | extended addition _ ih => exact ih.leftBy addition

theorem Constructed.foldl_leftBy (h : a.Constructed) (additions : List Addition) :
    (additions.foldl Automaton.leftBy a).Constructed := by
  induction additions generalizing a with
  | nil => exact h
  | cons addition additions ih => exact ih (h.extended addition)

/-- Nothing that was done to an automaton shows in a fault of it, and what fails has done nothing. -/
theorem Constructed.sound (h : a.Constructed) :
    a.defect? = none ∧ (∀ s, s ∈ a.delta.keys ↔ s ∈ a.states) ∧
      ∀ addition error b, (carryOut addition).run a = .error error b ↔
        a.attempt addition = .error error ∧ b = a := by
  have hwell := h.wellFormed
  refine ⟨a.defect?_eq_none_iff.2 hwell.toConsistent, ?_, ?_⟩
  · exact fun s => ⟨hwell.source_mem s, hwell.entry_of_mem s⟩
  · intro addition error b
    rw [run_carryOut, settled_eq_error_iff]

def outgrown : Automaton :=
  [.state "later" true, .state "rest" true, .transition "later" "end" (.ofKey "z"),
    .transition "never" "end" (.ofKey "w")].foldl leftBy Spec.sparse.parts

theorem sound_outgrown :
    outgrown.Constructed ∧ outgrown.states.toList = ["end", "start", "rest", "later"] ∧
      .ofKey "z" ∈ outgrown.alphabet ∧ .ofKey "w" ∉ outgrown.alphabet ∧ outgrown.defect? = none ∧
      (∀ s, s ∈ outgrown.delta.keys ↔ s ∈ outgrown.states) ∧
      (carryOut (.transition "never" "end" (.ofKey "w"))).run outgrown =
        .error (.unknownState "never") outgrown := by
  have himport := Spec.toAutomaton_of_coherent Spec.coherent_sparse
  have hconstructed : outgrown.Constructed := (Constructed.imported himport).foldl_leftBy _
  obtain ⟨hdefect, hkeys, hfails⟩ := hconstructed.sound
  exact ⟨hconstructed, by decide +kernel, by decide +kernel, by decide +kernel, hdefect, hkeys,
    (hfails _ _ _).2 ⟨by decide +kernel, rfl⟩⟩

end EpsilonAutomata.Automaton
