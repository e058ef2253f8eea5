import EpsilonAutomata.Proofs.NamedLanguages
import EpsilonAutomata.Proofs.Piping
import EpsilonAutomata.Proofs.Runs
import Mathlib

/-! Runs that print each moment. Such a run stops at the first symbol that leaves no state, and asks only
then whether it accepts. It says the same as a silent run, and the lines in between are told apart from the
verdicts by their first character. -/

namespace EpsilonAutomata

namespace Simulator
variable {s : Simulator} {w : Word}

theorem steps_feed (s : Simulator) (w : Word) : (s.feed w).steps = s.steps + w.length := by
  induction w generalizing s with
  | nil => rfl
  | cons x w ih =>
    have hrest := ih (s.step x)
    have hstep : (s.step x).steps = s.steps + 1 := rfl
    rw [feed_cons, hrest, hstep, List.length_cons]
    omega

theorem span_le_length (s : Simulator) (w : Word) : s.span w ≤ w.length := by
  induction w generalizing s with
  | nil => exact Nat.le_refl 0
  | cons x w ih =>
    have hrest := ih (s.step x)
    rw [span_cons, List.length_cons]
    split <;> omega

theorem isDead_feed_of_lt_span (h : s.isDead = false) {k : Nat} (hk : k < s.span w) :
    (s.feed (w.take k)).isDead = false := by
  induction w generalizing s k with
  | nil => exact absurd hk (Nat.not_lt_zero k)
  | cons x w ih =>
    cases k with
    | zero => exact h
    | succ k =>
      rw [span_cons] at hk
      split at hk
      · omega
      · next halive =>
        have hstep : (s.step x).isDead = false := by simpa using halive
        exact ih hstep (by omega)

theorem isDead_feed_span (h : s.span w < w.length) : (s.feed (w.take (s.span w))).isDead = true := by
  induction w generalizing s with
  | nil => exact absurd h (Nat.not_lt_zero _)
  | cons x w ih =>
    rw [span_cons, List.length_cons] at h
    rw [span_cons]
    split at h
    · next hdead =>
      rw [if_pos hdead]
      exact hdead
    · next halive =>
      rw [if_neg halive]
      exact ih (by omega)

theorem isDead_eq_true_iff (s : Simulator) : s.isDead = true ↔ s.current.names = [] := List.isEmpty_iff

theorem isDead_eq_false_iff (s : Simulator) : s.isDead = false ↔ s.current.names ≠ [] := by
  rw [← Bool.not_eq_true, isDead_eq_true_iff]

theorem isDead_new (a : Automaton) : (new a).isDead = false := by
  have hinitial : a.initial ∈ a.start := (Automaton.mem_after_start_iff [] a.initial).2 (.stop _)
  rw [Bool.eq_false_iff]
  exact fun h => Automaton.not_mem_of_isEmpty _ h _ hinitial

end Simulator

namespace CommandLine
variable {s : Simulator}

def deathLine (x : Symbol) : String := "No state left after '" ++ x.glyph ++ "'."

/-- A line for the present and one behind each of the next symbols. -/
def moments (s : Simulator) (w : Word) (n : Nat) : List String :=
  (List.range (n + 1)).map fun k => stepLine (s.feed (w.take k))

inductive Closes (s : Simulator) : Word → List String → Prop
  | alive {w : Word} : s.isDead = false → Closes s w []
  | dead {w : Word} {x : Symbol} : s.isDead = true → Closes s (w ++ [x]) [deathLine x]

theorem Closes.cons {w : Word} {closing : List String} (h : Closes s w closing) (x : Symbol) :
    Closes s (x :: w) closing := by
  cases h with
  | alive halive => exact .alive halive
  | dead hdead => exact .dead (w := x :: _) hdead

theorem moments_zero (s : Simulator) (w : Word) : moments s w 0 = [stepLine s] := rfl

theorem moments_cons (s : Simulator) (x : Symbol) (w : Word) (n : Nat) :
    moments s (x :: w) (n + 1) = stepLine s :: moments (s.step x) w n := by
  rw [moments, moments, List.range_succ_eq_map, List.map_cons, List.map_map]
  rfl

theorem trace_cons_of_isDead {x : Symbol} (h : (s.step x).isDead = true) (w : Word) :
    trace s (x :: w) = ([stepLine (s.step x), deathLine x], (s.step x).isAccepting) := by
  rw [trace]
  simp only [h, if_true]
  rfl

theorem trace_cons_of_not_isDead {x : Symbol} (h : (s.step x).isDead = false) (w : Word) :
    trace s (x :: w) = (stepLine (s.step x) :: (trace (s.step x) w).1, (trace (s.step x) w).2) := by
  rw [trace]
  simp [h]

theorem accepted_trace (s : Simulator) (w : Word) : (trace s w).2 = (s.run w).isAccepting := by
  induction w generalizing s with
  | nil => rfl
  | cons x w ih =>
    rw [Simulator.run_cons]
    cases hdead : (s.step x).isDead with
    | true => rw [trace_cons_of_isDead hdead, if_pos rfl]
    | false => rw [trace_cons_of_not_isDead hdead, if_neg Bool.false_ne_true, ih]

theorem lines_trace (h : s.isDead = false) (w : Word) :
    ∃ closing, Closes (s.feed (w.take (s.span w))) (w.take (s.span w)) closing ∧
      stepLine s :: (trace s w).1 = moments s w (s.span w) ++ closing := by
  -- on the word, from any run that is alive, because only such runs go on
  induction w generalizing s with
  | nil => exact ⟨[], .alive h, rfl⟩
  | cons x w ih =>
    rw [Simulator.span_cons]
    cases hdead : (s.step x).isDead with
    | true =>
      refine ⟨[deathLine x], .dead (w := []) hdead, ?_⟩
      rw [trace_cons_of_isDead hdead, if_pos rfl, moments_cons, moments_zero]
      rfl
    | false =>
      obtain ⟨closing, hcloses, hlines⟩ := ih hdead
      refine ⟨closing, hcloses.cons x, ?_⟩
      rw [trace_cons_of_not_isDead hdead, if_neg Bool.false_ne_true, moments_cons, hlines]
      rfl

/-- What a traced run prints about a word of which it reads the first `n` symbols; `held k` are the states
that the automaton can be in behind `k` of them. -/
structure Narrates (a : Automaton) (w : Word) (n : Nat) (held : Nat → List String)
    (lines : List String) : Prop where
  le_length : n ≤ w.length
  ascending : ∀ k, (held k).Pairwise (· < ·)
  mem_held : ∀ k r, r ∈ held k ↔ a.Path a.initial (w.take k) r
  alive : ∀ k < n, held k ≠ []
  dead : n < w.length → held n = []
  lines_eq : ∃ closing,
    lines = (List.range (n + 1)).map (fun k =>
      "Step: " ++ toString k ++ ", States: \x7b" ++ ", ".intercalate (held k) ++ "\x7d") ++ closing ∧
    (held n ≠ [] ∧ closing = [] ∨
      held n = [] ∧ ∃ u x, w.take n = u ++ [x] ∧ closing = ["No state left after '" ++ x.glyph ++ "'."])

theorem moments_new (a : Automaton) {w : Word} {n : Nat} (hn : n ≤ w.length) :
    moments (.new a) w n = (List.range (n + 1)).map fun k => "Step: " ++ toString k ++ ", States: \x7b" ++
      ", ".intercalate ((Simulator.new a).feed (w.take k)).current.names ++ "\x7d" := by
  refine List.map_congr_left fun k hk => ?_
  have hsteps : ((Simulator.new a).feed (w.take k)).steps = k := by
    have hk := List.mem_range.1 hk
    rw [Simulator.steps_feed, List.length_take_of_le (by omega)]
    exact Nat.zero_add k
  rw [stepLine, hsteps]

theorem narrates_traceRun (a : Automaton) (w : Word) :
    ∃ n held, Narrates a w n held (traceRun a w).1 := by
  let s := Simulator.new a
  have hs : s.isDead = false := Simulator.isDead_new a
  have hspan := s.span_le_length w
  refine ⟨s.span w, fun k => (s.feed (w.take k)).current.names, hspan, ?_, ?_, ?_, ?_, ?_⟩
  · exact fun k => (s.feed (w.take k)).current.ascending
  · intro k r
    rw [NameSet.mem_names, Simulator.current_feed]
    exact Automaton.mem_after_start_iff (w.take k) r
  · exact fun k hk => (Simulator.isDead_eq_false_iff _).1 (Simulator.isDead_feed_of_lt_span hs hk)
  · exact fun hn => (Simulator.isDead_eq_true_iff _).1 (Simulator.isDead_feed_span hn)
  · obtain ⟨closing, hcloses, hlines⟩ := lines_trace hs w
    rw [moments_new a hspan] at hlines
    refine ⟨closing, hlines, ?_⟩
    generalize s.feed (w.take (s.span w)) = t at *
    generalize w.take (s.span w) = v at *
    cases hcloses with
    | alive halive => exact .inl ⟨t.isDead_eq_false_iff.1 halive, rfl⟩
    | dead hdead => exact .inr ⟨t.isDead_eq_true_iff.1 hdead, _, _, rfl, rfl⟩

theorem accepted_traceRun (a : Automaton) (w : Word) : (traceRun a w).2 = a.accepts w :=
  accepted_trace (.new a) w

/-- The run that returns at once when no state is left agrees with the one that stops and then asks. -/
theorem answer_run_new (a : Automaton) (w : Word) :
    (Simulator.answer w).run (.new a) = pure ((traceRun a w).2, (Simulator.new a).run w) := by
  rw [Simulator.answer_run, accepted_traceRun]
  rfl

/-! Verdicts. -/

def isVerdict (line : String) : Bool := line.toList.head? == some '"'

theorem isVerdict_verdictLine (text : String) (accepted : Bool) :
    isVerdict (verdictLine text accepted) = true := by
  simp [isVerdict, verdictLine, Text.quote]

theorem isVerdict_append {opening : String} (h : opening ≠ "") (rest : String) :
    isVerdict (opening ++ rest) = isVerdict opening := by
  rw [isVerdict, String.toList_append, List.head?_append_of_ne_nil _ (by simpa using h), isVerdict]

theorem isVerdict_stepLine (s : Simulator) : isVerdict (stepLine s) = false := by
  simp only [stepLine, String.append_assoc]
  rw [isVerdict_append (by simp)]
  simp [isVerdict]

theorem isVerdict_deathLine (x : Symbol) : isVerdict (deathLine x) = false := by
  unfold deathLine
  rw [String.append_assoc, isVerdict_append (by simp)]
  simp [isVerdict]

theorem isVerdict_of_mem_trace (s : Simulator) (w : Word) :
    ∀ line ∈ (trace s w).1, isVerdict line = false := by
  induction w generalizing s with
  | nil => exact List.forall_mem_nil _
  | cons x w ih =>
    cases hdead : (s.step x).isDead with
    | true =>
      rw [trace_cons_of_isDead hdead]
      simp [isVerdict_stepLine, isVerdict_deathLine]
    | false =>
      rw [trace_cons_of_not_isDead hdead]
      exact List.forall_mem_cons.2 ⟨isVerdict_stepLine _, ih (s.step x)⟩

theorem filter_traceRun (a : Automaton) (w : Word) : (traceRun a w).1.filter isVerdict = [] := by
  have hnone : ∀ line ∈ (traceRun a w).1, isVerdict line = false :=
    List.forall_mem_cons.2 ⟨isVerdict_stepLine _, isVerdict_of_mem_trace (.new a) w⟩
  exact List.filter_eq_nil_iff.2 fun line hline => by simp [hnone line hline]

theorem filter_runLines (a : Automaton) (separator : Option String) (text : String) :
    (runLines a separator true text).filter isVerdict = runLines a separator false text := by
  simp only [runLines, if_true, Bool.false_eq_true, if_false, List.filter_append, filter_traceRun,
    accepted_traceRun, List.nil_append, List.filter_cons, isVerdict_verdictLine, List.filter_nil]

theorem lines_run_traced (load : Source → Except Error Editor) (source : Source) (inputs : List String)
    (separator : Option String) :
    (Command.run source inputs separator false).lines load =
      ((Command.run source inputs separator true).lines load).map fun lines => lines.filter isVerdict := by
  simp only [Command.lines, bind, Except.bind]
  cases load source with
  | error error => rfl
  | ok e =>
    have hfilter : inputs.flatMap (runLines e.automaton separator false) =
        (inputs.flatMap (runLines e.automaton separator true)).filter isVerdict := by
      rw [List.filter_flatMap]
      exact congrArg inputs.flatMap (funext fun text => (filter_runLines _ separator text).symm)
    exact congrArg Except.ok hfilter

/-! The request for a trace. -/

def Options.withTrace (o : Options) : Options := { o with traced := true }

theorem Options.take_cases {o next : Options} {item : Item} (h : o.take item = .ok next) :
    next = o.withTrace ∨ next.traced = o.traced ∧ o.withTrace.take item = .ok next.withTrace := by
  cases item with
  | flag switch =>
    cases switch with
    | help =>
      cases h
      exact .inr ⟨rfl, rfl⟩
    | _ =>
      simp only [take] at h
      split at h
      · cases h
      · cases h
        exact .inl rfl
  | input text =>
    cases h
    exact .inr ⟨rfl, rfl⟩
  | value switch text =>
    refine .inr ?_
    cases switch with
    | traced => cases h
    | help => cases h
    | transition =>
      simp only [take] at h ⊢
      split at h
      · cases h
      · cases h
        exact ⟨rfl, rfl⟩
    | _ =>
      simp only [take, map_eq_ok_iff] at h ⊢
      obtain ⟨v, hv, rfl⟩ := h
      exact ⟨rfl, v, hv, rfl⟩

theorem foldlM_take_withTrace {items : List Item} {o last : Options}
    (h : items.foldlM Options.take o = .ok last) (hlast : last.traced = false) :
    o.traced = false ∧ items.foldlM Options.take o.withTrace = .ok last.withTrace := by
  induction items generalizing o with
  | nil =>
    cases h
    exact ⟨hlast, rfl⟩
  | cons item items ih =>
    cases hnext : o.take item with
    | error fault =>
      rw [List.foldlM_cons, hnext] at h
      cases h
    | ok next =>
      rw [foldlM_take_cons hnext] at h
      obtain ⟨hoff, hon⟩ := ih h
      obtain rfl | ⟨hsame, htake⟩ := Options.take_cases hnext
      · cases hoff
      · exact ⟨hsame ▸ hoff, by rw [foldlM_take_cons htake, hon]⟩

def traceFlags : List String := ["-d", "--debug"]

theorem shapeOf_traceFlag {flag : String} (h : flag ∈ traceFlags) :
    shapeOf Subcommand.run.grammar flag = .cluster ⟨[.traced], none⟩ := by
  obtain rfl | rfl : flag = "-d" ∨ flag = "--debug" := by simpa [traceFlags] using h
  · rfl
  · rfl

theorem split_traceFlag {flag : String} (h : flag ∈ traceFlags) (args : List String) :
    split Subcommand.run.grammar [] (flag :: args) =
      (split Subcommand.run.grammar [] args).after [.flag .traced] := by
  rw [split]
  simp [shapeOf_traceFlag h]

theorem parseOptions_eq_ok_iff (g : Grammar) (args : List String) (o : Options) :
    parseOptions g args = .ok o ↔ (split g [] args).complete = true ∧
      (split g [] args).items.foldlM Options.take .empty = .ok o := by
  rw [parseOptions]
  cases (split g [] args).items.foldlM Options.take .empty with
  | error fault => simp [bind, Except.bind]
  | ok last =>
    cases (split g [] args).complete with
    | true => simp [bind, Except.bind, pure, Except.pure]
    | false => simp [bind, Except.bind, throw, throwThe, MonadExceptOf.throw]

theorem parseOptions_traceFlag {flag : String} (h : flag ∈ traceFlags) {args : List String} {o : Options}
    (hargs : parseOptions Subcommand.run.grammar args = .ok o) (ho : o.traced = false) :
    parseOptions Subcommand.run.grammar (flag :: args) = .ok o.withTrace := by
  rw [parseOptions_eq_ok_iff] at hargs ⊢
  rw [split_traceFlag h]
  exact ⟨hargs.1, (foldlM_take_withTrace hargs.2 ho).2⟩

theorem command_withTrace {o : Options} {source : Source} {inputs : List String} {separator : Option String}
    (h : Subcommand.run.command o = .ok (.run source inputs separator false)) :
    o.traced = false ∧ Subcommand.run.command o.withTrace = .ok (.run source inputs separator true) := by
  have hsource : o.withTrace.source = o.source := rfl
  have hinputs : o.withTrace.inputs = o.inputs := rfl
  simp only [Subcommand.command, bind, Except.bind, hsource, hinputs] at h ⊢
  cases hfound : o.source with
  | error fault =>
    rw [hfound] at h
    cases h
  | ok found =>
    simp only [hfound] at h ⊢
    split at h
    · cases h
    · next hsome =>
      simp only [pure, Except.pure, Except.ok.injEq, Command.run.injEq] at h
      obtain ⟨rfl, rfl, rfl, htraced⟩ := h
      exact ⟨htraced, if_neg hsome⟩

theorem parse_traceFlag {flag : String} (hflag : flag ∈ traceFlags) {args : List String} {source : Source}
    {inputs : List String} {separator : Option String}
    (h : parse ("run" :: args) = .ok (.run source inputs separator false)) :
    parse ("run" :: flag :: args) = .ok (.run source inputs separator true) := by
  have hparse (args : List String) : parse ("run" :: args) = Subcommand.run.parse args := rfl
  rw [hparse, Subcommand.parse] at h ⊢
  cases ho : parseOptions Subcommand.run.grammar args with
  | error fault =>
    rw [ho] at h
    cases h
  | ok o =>
    simp only [ho, bind, Except.bind] at h
    split at h
    · cases h
    · next hhelped =>
      obtain ⟨htraced, hcommand⟩ := command_withTrace h
      rw [parseOptions_traceFlag hflag ho htraced, ← hcommand]
      exact if_neg hhelped

/-- A traced run decides like a silent one and tells how it got there; what the program prints then has the
same verdicts in it. -/
theorem trace_agrees :
    (∀ (a : Automaton) (w : Word), (traceRun a w).2 = a.accepts w ∧
      (Simulator.answer w).run (.new a) = pure ((traceRun a w).2, (Simulator.new a).run w) ∧
      ∃ n held, Narrates a w n held (traceRun a w).1) ∧
    ∀ (files : Files) (piped : Option ByteArray) (args : List String) (source : Source) (inputs : List String)
      (separator : Option String), parse ("run" :: args) = .ok (.run source inputs separator false) →
      (∀ flag ∈ traceFlags, parse ("run" :: flag :: args) = .ok (.run source inputs separator true)) ∧
      ∀ traced, parse traced = .ok (.run source inputs separator true) →
        let printed := (Command.run source inputs separator true).lines (Source.load files piped)
        execute files piped traced = .ofResult printed ∧
          execute files piped ("run" :: args) =
            .ofResult (printed.map fun lines => lines.filter isVerdict) := by
  refine ⟨fun a w => ⟨accepted_traceRun a w, answer_run_new a w, narrates_traceRun a w⟩, ?_⟩
  intro files piped args source inputs separator hargs
  refine ⟨fun flag hflag => parse_traceFlag hflag hargs, fun traced htraced => ?_⟩
  refine ⟨execute_of_parse htraced files piped, ?_⟩
  rw [execute_of_parse hargs, lines_run_traced]

theorem trace_agrees_zerosThenOnes :
    let args := ["--example", "Zeros then ones", "01", "10", ""]
    let printed := ["Step: 0, States: \x7bq0, q1, q2\x7d", "Step: 1, States: \x7bq0, q1, q2\x7d",
      "Step: 2, States: \x7bq1, q2\x7d", "\"01\": accepted", "Step: 0, States: \x7bq0, q1, q2\x7d",
      "Step: 1, States: \x7bq1, q2\x7d", "Step: 2, States: \x7b\x7d", "No state left after '0'.",
      "\"10\": rejected", "Step: 0, States: \x7bq0, q1, q2\x7d", "\"\": accepted"]
    execute .empty none ("run" :: "--debug" :: args) = .success printed ∧
      execute .empty none ("run" :: args) =
        .success ["\"01\": accepted", "\"10\": rejected", "\"\": accepted"] ∧
      let command := Command.run (.catalogue "Zeros then ones") ["01", "10", ""] none true
      execute .empty none ("run" :: args) =
        .ofResult ((command.lines (Source.load .empty none)).map fun lines => lines.filter isVerdict) := by
  intro args printed
  have hsilent : parse ("run" :: args) =
      .ok (.run (.catalogue "Zeros then ones") ["01", "10", ""] none false) := by decide +kernel
  obtain ⟨hflags, hruns⟩ := trace_agrees.2 .empty none args _ _ _ hsilent
  have htraced := hflags "--debug" (by simp [traceFlags])
  have hload : Source.load .empty none (.catalogue "Zeros then ones") =
      .ok (.ofAutomaton Catalogue.zerosThenOnes.parts) := by
    have hcount : Options.count? "Zeros then ones" = none := by decide
    have hnamed : Catalogue.byName "Zeros then ones" = .ok ⟨_, Catalogue.zerosThenOnes.parts⟩ :=
      Catalogue.byName_of_mem (by simp [Catalogue.specs])
    simp only [Source.load, pick, hcount, hnamed]
    rfl
  have hprinted : ["01", "10", ""].flatMap (runLines Catalogue.zerosThenOnes.parts none true) = printed := by
    cbv
  refine ⟨?_, ?_, (hruns _ htraced).2⟩
  · rw [execute_of_parse htraced, Command.lines, hload, ← hprinted]
    rfl
  · rw [execute_of_parse hsilent, Command.lines, hload]
    cbv

end CommandLine
end EpsilonAutomata
