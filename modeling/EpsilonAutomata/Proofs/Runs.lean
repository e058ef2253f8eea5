import EpsilonAutomata.Proofs.Paths
import Mathlib

/-! Runs as they are seen from outside. A run stops where no state is left, but only the count of symbols
tells: the states and the verdict are those of reading symbol by symbol, in whatever pieces the word comes
and whatever was read before. -/

namespace EpsilonAutomata

theorem NameSet.eq_of_isEmpty {s t : NameSet} (hs : s.isEmpty = true) (ht : t.isEmpty = true) : s = t := by
  apply NameSet.ext
  intro x
  have hx := Automaton.not_mem_of_isEmpty s hs x
  have hy := Automaton.not_mem_of_isEmpty t ht x
  exact ⟨fun h => absurd h hx, fun h => absurd h hy⟩

namespace Simulator

inductive Call where
  | step (x : Symbol)
  | run (w : Word)
  | reset

def perform (s : Simulator) : Call → Simulator
  | .step x => s.step x
  | .run w => s.run w
  | .reset => s.reset

def feed (s : Simulator) (w : Word) : Simulator := w.foldl step s

/-- Reads a word in place and tells whether it is accepted. It is not, once no state is left. -/
def answer : Word → StateM Simulator Bool
  | [] => return (← get).isAccepting
  | x :: rest => do
    modify (·.step x)
    if (← get).isDead then return false
    answer rest

/-- How many symbols a run consumes: those up to the first that leaves no state, or all of them. -/
def span (s : Simulator) (w : Word) : Nat :=
  match (List.range w.length).find? fun k => (s.feed (w.take (k + 1))).isDead with
  | some k => k + 1
  | none => w.length

variable {s : Simulator}

theorem isAccepting_of_isDead (h : s.isDead = true) : s.isAccepting = false :=
  Automaton.acceptsIn_of_isEmpty s.current h

theorem isDead_step (h : s.isDead = true) (x : Symbol) : (s.step x).isDead = true :=
  Automaton.isEmpty_move s.current h x

theorem run_cons (s : Simulator) (x : Symbol) (w : Word) :
    s.run (x :: w) = if (s.step x).isDead then s.step x else (s.step x).run w := rfl

theorem feed_cons (s : Simulator) (x : Symbol) (w : Word) : s.feed (x :: w) = (s.step x).feed w := rfl

theorem automaton_run (s : Simulator) (w : Word) : (s.run w).automaton = s.automaton := by
  induction w generalizing s with
  | nil => rfl
  | cons x w ih =>
    rw [run_cons]
    split
    · rfl
    · exact ih (s.step x)

theorem automaton_feed (s : Simulator) (w : Word) : (s.feed w).automaton = s.automaton := by
  induction w generalizing s with
  | nil => rfl
  | cons x w ih => exact ih (s.step x)

theorem current_feed (s : Simulator) (w : Word) : (s.feed w).current = s.automaton.after s.current w := by
  induction w generalizing s with
  | nil => rfl
  | cons x w ih => exact ih (s.step x)

/-- Where a run stops early, reading on would leave no state either. -/
theorem current_run (s : Simulator) (w : Word) : (s.run w).current = s.automaton.after s.current w := by
  induction w generalizing s with
  | nil => rfl
  | cons x w ih =>
    rw [run_cons]
    split
    · next hdead =>
      have hlater : (s.automaton.after s.current (x :: w)).isEmpty = true :=
        Automaton.isEmpty_after (s.step x).current hdead w
      exact NameSet.eq_of_isEmpty hdead hlater
    · exact ih (s.step x)

theorem current_run_append (s : Simulator) (u v : Word) :
    (s.run (u ++ v)).current = ((s.run u).run v).current :=
  calc
    (s.run (u ++ v)).current = s.automaton.after s.current (u ++ v) := s.current_run (u ++ v)
    _ = s.automaton.after (s.automaton.after s.current u) v := List.foldl_append
    _ = (s.run u).automaton.after (s.run u).current v := by rw [automaton_run, current_run]
    _ = ((s.run u).run v).current := ((s.run u).current_run v).symm

theorem isDead_run (h : s.isDead = true) (w : Word) : (s.run w).isDead = true := by
  have hcurrent := s.current_run w
  rw [isDead, hcurrent]
  exact Automaton.isEmpty_after s.current h w

theorem isAccepting_congr {t : Simulator} (hautomaton : s.automaton = t.automaton)
    (hcurrent : s.current = t.current) : s.isAccepting = t.isAccepting := by
  rw [isAccepting, isAccepting, hautomaton, hcurrent]

theorem answer_run (s : Simulator) (w : Word) :
    (answer w).run s = pure ((s.run w).isAccepting, s.run w) := by
  induction w generalizing s with
  | nil => rfl
  | cons x w ih =>
    have hstep : (answer (x :: w)).run s =
        if (s.step x).isDead then pure (false, s.step x) else (answer w).run (s.step x) := by
      by_cases hdead : (s.step x).isDead = true
      · simp [answer, hdead]
      · simp [answer, hdead]
    rw [hstep, run_cons]
    split
    · next hdead => rw [isAccepting_of_isDead hdead]
    · exact ih (s.step x)

theorem span_cons (s : Simulator) (x : Symbol) (w : Word) :
    s.span (x :: w) = if (s.step x).isDead then 1 else (s.step x).span w + 1 := by
  have hrange : List.range (x :: w).length = 0 :: (List.range w.length).map (· + 1) := by
    rw [List.length_cons, List.range_succ_eq_map]
  rw [span, span, hrange]
  by_cases hdead : (s.step x).isDead = true
  · rw [List.find?_cons_of_pos (by simpa [feed] using hdead), if_pos hdead]
  · rw [List.find?_cons_of_neg (by simpa [feed] using hdead), if_neg hdead, List.find?_map]
    simp only [Function.comp_def, List.take_succ_cons, feed_cons]
    cases (List.range w.length).find? fun k => ((s.step x).feed (w.take (k + 1))).isDead <;> rfl

theorem steps_run (s : Simulator) (w : Word) : (s.run w).steps = s.steps + s.span w := by
  induction w generalizing s with
  | nil => rfl
  | cons x w ih =>
    rw [run_cons, span_cons]
    split
    · rfl
    · have hrest := ih (s.step x)
      have hstep : (s.step x).steps = s.steps + 1 := rfl
      omega

structure Seamless (a : Automaton) (s : Simulator) : Prop where
  answer_run : ∀ w, (answer w).run s = pure ((s.run w).isAccepting, s.run w)
  current_append : ∀ u v, (s.run (u ++ v)).current = ((s.run u).run v).current
  isAccepting_append : ∀ u v, (s.run (u ++ v)).isAccepting = ((s.run u).run v).isAccepting
  current_feed : ∀ w, (s.run w).current = (s.feed w).current
  isAccepting_feed : ∀ w, (s.run w).isAccepting = (s.feed w).isAccepting
  steps_run : ∀ w, (s.run w).steps = s.steps + s.span w
  stays_dead : s.isDead = true → ∀ calls : List Call, .reset ∉ calls →
    (calls.foldl perform s).isDead = true ∧ (calls.foldl perform s).isAccepting = false
  reset_eq_new : s.reset = new a

theorem automaton_perform (s : Simulator) (call : Call) : (s.perform call).automaton = s.automaton := by
  cases call with
  | step x => rfl
  | run w => exact s.automaton_run w
  | reset => rfl

theorem automaton_foldl_perform (s : Simulator) (calls : List Call) :
    (calls.foldl perform s).automaton = s.automaton := by
  induction calls generalizing s with
  | nil => rfl
  | cons call calls ih => exact (ih (s.perform call)).trans (s.automaton_perform call)

theorem isDead_perform (h : s.isDead = true) (call : Call) (hcall : call ≠ .reset) :
    (s.perform call).isDead = true := by
  cases call with
  | step x => exact isDead_step h x
  | run w => exact isDead_run h w
  | reset => exact absurd rfl hcall

theorem isDead_foldl_perform (h : s.isDead = true) (calls : List Call) (hcalls : .reset ∉ calls) :
    (calls.foldl perform s).isDead = true := by
  induction calls generalizing s with
  | nil => exact h
  | cons call calls ih =>
    rw [List.mem_cons, not_or] at hcalls
    exact ih (isDead_perform h call (Ne.symm hcalls.1)) hcalls.2

/-- Whatever was done to a simulator before, neither stopping early nor cutting the word in pieces shows in
where a run ends. -/
theorem seamless_foldl_perform (a : Automaton) (calls : List Call) :
    Seamless a (calls.foldl perform (new a)) := by
  generalize hs : calls.foldl perform (new a) = s
  have hautomaton : s.automaton = a := hs ▸ automaton_foldl_perform (new a) calls
  have hfeed (w : Word) : (s.run w).current = (s.feed w).current :=
    (s.current_run w).trans (s.current_feed w).symm
  refine ⟨s.answer_run, s.current_run_append, ?_, hfeed, ?_, s.steps_run, ?_, ?_⟩
  · intro u v
    apply isAccepting_congr
    · rw [automaton_run, automaton_run, automaton_run]
    · exact s.current_run_append u v
  · intro w
    apply isAccepting_congr
    · rw [automaton_run, automaton_feed]
    · exact hfeed w
  · intro hdead further hfurther
    have hstays := isDead_foldl_perform hdead further hfurther
    exact ⟨hstays, isAccepting_of_isDead hstays⟩
  · rw [reset, hautomaton]

def stranded : Simulator := (new .new).perform (.run [.ofKey "0"])

theorem seamless_stranded :
    stranded.isDead = true ∧ stranded.steps = 1 ∧ (stranded.run [.ofKey "1"]).steps = 2 ∧
      ((new .new).run [.ofKey "0", .ofKey "1"]).steps = 1 ∧
      ((new .new).run [.ofKey "0", .ofKey "1"]).current = (stranded.run [.ofKey "1"]).current ∧
      ((stranded.step .epsilon).run [.ofKey "1"]).isAccepting = false ∧ stranded.reset = new .new := by
  have hnew := seamless_foldl_perform .new []
  have hstranded := seamless_foldl_perform .new [.run [.ofKey "0"]]
  have hdead : stranded.isDead = true := by cbv
  have hstays := hstranded.stays_dead hdead [.step .epsilon, .run [.ofKey "1"]] (by simp)
  exact ⟨hdead, by cbv, by cbv, by cbv, hnew.current_append [.ofKey "0"] [.ofKey "1"], hstays.2,
    hstranded.reset_eq_new⟩

end Simulator
end EpsilonAutomata
