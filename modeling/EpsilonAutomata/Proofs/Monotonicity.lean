import EpsilonAutomata.Proofs.Edit
import EpsilonAutomata.Proofs.Minimality
import EpsilonAutomata.Proofs.Runs

/-! What additions do to the words that are accepted. A new state is reached by no word, so it changes
nothing. A new transition takes nothing away: two simulators that are treated alike, one with the
transition and one without, never differ but by states that the first one has besides. -/

namespace EpsilonAutomata.Automaton
variable {a b : Automaton}

section Larger
variable (h : ∀ p x r, a.HasTransition p x r → b.HasTransition p x r)
include h

theorem closure_mono {s t : NameSet} (hst : ∀ r ∈ s, r ∈ t) : ∀ r ∈ a.closure s, r ∈ b.closure t := by
  intro r hr
  obtain ⟨p, hp, hpath⟩ := (mem_closure_iff s r).1 hr
  exact (mem_closure_iff t r).2 ⟨p, hst p hp, hpath.mono h⟩

theorem move_mono {s t : NameSet} (hst : ∀ r ∈ s, r ∈ t) (x : Symbol) : ∀ r ∈ a.move s x, r ∈ b.move t x := by
  apply closure_mono h
  intro r hr
  obtain ⟨p, hp, ht⟩ := (mem_reached_iff s x r).1 hr
  rw [mem_transitions] at ht
  exact (mem_reached_iff t x r).2 ⟨p, hst p hp, (b.mem_transitions p x r).2 (h p x r ht)⟩

theorem start_mono (hinitial : a.initial = b.initial) : ∀ r ∈ a.start, r ∈ b.start := by
  apply closure_mono h
  rw [hinitial]
  exact fun r hr => hr

theorem after_mono {s t : NameSet} (hst : ∀ r ∈ s, r ∈ t) (w : Word) : ∀ r ∈ a.after s w, r ∈ b.after t w := by
  induction w generalizing s t with
  | nil => exact hst
  | cons x w ih => exact ih (move_mono h hst x)

end Larger

end Automaton

namespace Simulator

def Follows (t s : Simulator) : Prop := ∀ r ∈ s.current, r ∈ t.current

variable {s t : Simulator}
  (h : ∀ p x r, s.automaton.HasTransition p x r → t.automaton.HasTransition p x r)
include h

theorem Follows.run (hst : t.Follows s) (w : Word) : (t.run w).Follows (s.run w) := by
  -- where the smaller run has stopped early, reading on leaves it empty
  unfold Follows
  rw [current_run, current_run]
  exact Automaton.after_mono h hst w

theorem Follows.perform (hinitial : s.automaton.initial = t.automaton.initial) (hst : t.Follows s)
    (call : Call) : (t.perform call).Follows (s.perform call) := by
  cases call with
  | step x => exact Automaton.move_mono h hst x
  | run w => exact hst.run h w
  | reset => exact Automaton.start_mono h hinitial

theorem Follows.foldl_perform (hinitial : s.automaton.initial = t.automaton.initial) (hst : t.Follows s)
    (calls : List Call) : (calls.foldl Simulator.perform t).Follows (calls.foldl Simulator.perform s) := by
  induction calls generalizing s t with
  | nil => exact hst
  | cons call calls ih =>
    have hs := s.automaton_perform call
    have ht := t.automaton_perform call
    apply ih
    · rwa [hs, ht]
    · rwa [hs, ht]
    · exact hst.perform h hinitial call

end Simulator

namespace Automaton
variable {a b : Automaton}

theorem hasTransition_of_addTransition {source destination : String} {y : Symbol} {new : Bool}
    (hb : a.addTransition source destination y = .ok (b, new)) (p : String) (x : Symbol) (r : String)
    (ht : a.HasTransition p x r) : b.HasTransition p x r := by
  obtain ⟨_, _, rfl, _⟩ := (addTransition_eq_ok_iff source destination y new).1 hb
  exact (hasTransition_insertTransition a source y destination p x r).2 (.inl ht)

theorem accepts_addState (h : a.Consistent) {state : String} {accepting : Bool}
    (hb : a.addState state accepting = .ok b) (w : Word) : b.accepts w = a.accepts w := by
  have htransition := hasTransition_addState h hb
  have hsame (r : String) (hr : r ≠ state) : r ∈ b.accepting ↔ r ∈ a.accepting := by
    have haccepting := isAccepting_addState h hb r
    rwa [if_neg hr, isAccepting, isAccepting, decide_eq_decide] at haccepting
  obtain ⟨hnew, heq⟩ := (addState_eq_ok_iff state accepting).1 hb
  have hinitial : b.initial = a.initial := by rw [heq]
  have hold (r : String) (hr : r ∈ a.states) : r ≠ state := by
    rintro rfl
    exact hnew hr
  rw [Bool.eq_iff_iff]
  constructor
  · intro hw
    rw [accepts_eq_acceptsIn, acceptsIn_iff] at hw ⊢
    obtain ⟨r, hr, hacc⟩ := hw
    -- the path of an accepted word is one of the smaller automaton and ends in a state of it
    have hpath := ((mem_after_start_iff w r).1 hr).mono fun p x r => (htransition p x r).1
    rw [hinitial] at hpath
    have hstate := hold r (hpath.mem_states h h.initial_mem)
    exact ⟨r, (mem_after_start_iff w r).2 hpath, (hsame r hstate).1 hacc⟩
  · have haccepting (s : String) (hs : s ∈ a.accepting) : s ∈ b.accepting :=
      (hsame s (hold s (h.accepting_mem s hs))).2 hs
    exact accepts_mono hinitial.symm haccepting (fun p x r => (htransition p x r).2) w

/-- A state more changes no verdict. A transition more loses no word, and whatever is done to two
simulators, with the transition and without, every state that the second may be in is one that the first
may be in. -/
theorem additions_lose_nothing (a : Automaton) (h : a.defect? = none) :
    (∀ state accepting b, a.addState state accepting = .ok b → ∀ w, b.accepts w = a.accepts w) ∧
      ∀ source destination x b new, a.addTransition source destination x = .ok (b, new) →
        (∀ w, a.accepts w = true → b.accepts w = true) ∧
          ∀ calls : List Simulator.Call, ∀ s ∈ (calls.foldl Simulator.perform (.new a)).current,
            s ∈ (calls.foldl Simulator.perform (.new b)).current := by
  refine ⟨fun state accepting b hb => accepts_addState (a.defect?_eq_none_iff.1 h) hb, ?_⟩
  intro source destination x b new hb
  have htransition := hasTransition_of_addTransition hb
  obtain ⟨_, _, heq, _⟩ := (addTransition_eq_ok_iff source destination x new).1 hb
  have hinitial : a.initial = b.initial := by rw [heq]; rfl
  have haccepting : a.accepting = b.accepting := by rw [heq]; rfl
  refine ⟨accepts_mono hinitial (fun s hs => haccepting ▸ hs) htransition, fun calls => ?_⟩
  have hfollows : (Simulator.new b).Follows (.new a) := start_mono htransition hinitial
  exact hfollows.foldl_perform htransition hinitial calls

theorem additions_lose_nothing_lastOne :
    lastOne.defect? = none ∧
      (∃ b, lastOne.addState "rest" true = .ok b ∧
        b.accepts [.ofKey "0", .ofKey "1"] = lastOne.accepts [.ofKey "0", .ofKey "1"]) ∧
      ∃ b, lastOne.addTransition "zero" "start" .epsilon = .ok (b, true) ∧
        lastOne.accepts [.ofKey "1"] = true ∧ b.accepts [.ofKey "1"] = true ∧
        ((Simulator.new lastOne).run [.ofKey "0", .ofKey "0", .ofKey "1"]).isDead = true ∧
        b.accepts [.ofKey "0", .ofKey "0", .ofKey "1"] = true ∧
        ∀ s ∈ ((Simulator.new lastOne).run [.ofKey "0"]).current, s ∈ ((Simulator.new b).run [.ofKey "0"]).current := by
  have hdefect : lastOne.defect? = none := by decide
  obtain ⟨hstate, htransition⟩ := additions_lose_nothing lastOne hdefect
  have hadd : lastOne.addState "rest" true = .ok _ := (addState_eq_ok_iff "rest" true).2 ⟨by decide, rfl⟩
  have hback : lastOne.addTransition "zero" "start" .epsilon =
      .ok (lastOne.insertTransition "zero" .epsilon "start", true) := by decide
  obtain ⟨hwords, hsets⟩ := htransition _ _ _ _ _ hback
  have haccepted : lastOne.accepts [.ofKey "1"] = true := by cbv
  exact ⟨hdefect, ⟨_, hadd, hstate _ _ _ hadd _⟩, _, hback, haccepted, hwords _ haccepted, by cbv, by cbv,
    hsets [.run [.ofKey "0"]]⟩

end Automaton
end EpsilonAutomata
