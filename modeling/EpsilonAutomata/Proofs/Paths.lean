import EpsilonAutomata.Proofs.Search
import EpsilonAutomata.Simulator

/-! The language of an automaton, read off its transitions alone. A path is a chain of transitions;
silent ones read nothing and may stand anywhere between the others. A word is accepted exactly when
some path from the initial state to an accepting one reads it, although a run keeps sets of states,
closes them with a search and stops at the first symbol that leaves none. -/

namespace EpsilonAutomata.Automaton

theorem mem_transitions (a : Automaton) (p : String) (x : Symbol) (r : String) :
    ⟨p, x, r⟩ ∈ a.transitions ↔ a.HasTransition p x r := by
  simp only [transitions, List.mem_flatMap, List.mem_map, Prod.exists, HasTransition, destinations,
    destinations?, Transition.mk.injEq]
  constructor
  · rintro ⟨p', row, hrow, x', s, hs, r', hr, rfl, rfl, rfl⟩
    rw [OrderedMap.find?_eq_some.2 hrow, Option.bind_some, OrderedMap.find?_eq_some.2 hs]
    exact hr
  · intro h
    split at h
    · next s hs =>
      obtain ⟨row, hrow, hs⟩ := Option.bind_eq_some_iff.1 hs
      have hp := OrderedMap.find?_eq_some.1 hrow
      exact ⟨p, row, hp, x, s, OrderedMap.find?_eq_some.1 hs, r, h, rfl, rfl, rfl⟩
    · cases h

/-- A chain of transitions from one state to another and the word that it reads. Epsilon as a symbol
of the word is read by an epsilon transition. -/
inductive Path (a : Automaton) : String → Word → String → Prop
  | stop (p : String) : Path a p [] p
  | silent {p q r : String} {w : Word} :
    ⟨p, .epsilon, q⟩ ∈ a.transitions → Path a q w r → Path a p w r
  | read {p q r : String} {x : Symbol} {w : Word} :
    ⟨p, x, q⟩ ∈ a.transitions → Path a q w r → Path a p (x :: w) r

/-- The states in which a run may be once a word is read, without stopping early. -/
def after (a : Automaton) (current : NameSet) (w : Word) : NameSet := w.foldl a.move current

variable {a : Automaton}

theorem Path.append {p q r : String} {v w : Word} (hv : a.Path p v q) (hw : a.Path q w r) :
    a.Path p (v ++ w) r := by
  induction hv with
  | stop => exact hw
  | silent ht _ ih => exact .silent ht (ih hw)
  | read ht _ ih => exact .read ht (ih hw)

theorem Path.mono {b : Automaton} (h : ∀ p x r, a.HasTransition p x r → b.HasTransition p x r)
    {p r : String} {w : Word} (hw : a.Path p w r) : b.Path p w r := by
  simp only [← mem_transitions] at h
  induction hw with
  | stop p => exact .stop p
  | silent ht _ ih => exact .silent (h _ _ _ ht) ih
  | read ht _ ih => exact .read (h _ _ _ ht) ih

theorem path_cons_iff (p r : String) (x : Symbol) (w : Word) :
    a.Path p (x :: w) r ↔
      ∃ s q, a.Path p [] s ∧ ⟨s, x, q⟩ ∈ a.transitions ∧ a.Path q w r := by
  constructor
  · intro h
    generalize hv : x :: w = v at h
    induction h with
    | stop => cases hv
    | silent ht _ ih =>
      obtain ⟨s, q, hs, hq, hr⟩ := ih hv
      exact ⟨s, q, .silent ht hs, hq, hr⟩
    | read ht hr =>
      obtain ⟨rfl, rfl⟩ := List.cons.inj hv
      exact ⟨_, _, .stop _, ht, hr⟩
  · rintro ⟨s, q, hs, ht, hr⟩
    exact hs.append (.read ht hr)

theorem path_of_reachable {seed : List String} {r : String}
    (h : Search.Reachable a.silentSuccessors seed r) : ∃ p ∈ seed, a.Path p [] r := by
  induction h with
  | start hr => exact ⟨_, hr, .stop _⟩
  | step _ ht ih =>
    obtain ⟨p, hp, hq⟩ := ih
    have last : a.Path _ [] _ := .silent ((a.mem_transitions _ _ _).2 ht) (.stop _)
    exact ⟨p, hp, hq.append last⟩

theorem reachable_of_path {seed : List String} {p r : String} {w : Word} (h : a.Path p w r)
    (hw : w = []) (hp : Search.Reachable a.silentSuccessors seed p) :
    Search.Reachable a.silentSuccessors seed r := by
  induction h with
  | stop => exact hp
  | silent ht _ ih => exact ih hw (.step hp ((a.mem_transitions _ _ _).1 ht))
  | read => cases hw

theorem mem_closure_iff (seed : NameSet) (r : String) :
    r ∈ a.closure seed ↔ ∃ p ∈ seed, a.Path p [] r := by
  rw [closure, NameSet.mem_ofList, Search.mem_search_iff]
  constructor
  · exact path_of_reachable
  · rintro ⟨p, hp, hr⟩
    exact reachable_of_path hr rfl (.start hp)

theorem mem_reached_iff (current : NameSet) (x : Symbol) (q : String) :
    q ∈ NameSet.ofList (current.names.flatMap fun state => a.destinations state x) ↔
      ∃ s ∈ current, ⟨s, x, q⟩ ∈ a.transitions := by
  simp only [NameSet.mem_ofList, List.mem_flatMap, NameSet.mem_names, mem_transitions]
  rfl

theorem mem_after_closure_iff (seed : NameSet) (w : Word) (r : String) :
    r ∈ a.after (a.closure seed) w ↔ ∃ p ∈ seed, a.Path p w r := by
  -- for any seed, because reading a symbol turns one closed set into the closure of another seed
  induction w generalizing seed with
  | nil => exact mem_closure_iff seed r
  | cons x w ih =>
    have step := ih (.ofList ((a.closure seed).names.flatMap fun state => a.destinations state x))
    rw [after, List.foldl_cons]
    refine step.trans ?_
    simp only [mem_reached_iff, mem_closure_iff, path_cons_iff]
    constructor
    · rintro ⟨q, ⟨s, ⟨p, hp, hs⟩, ht⟩, hr⟩
      exact ⟨p, hp, s, q, hs, ht, hr⟩
    · rintro ⟨p, hp, s, q, hs, ht, hr⟩
      exact ⟨q, ⟨s, ⟨p, hp, hs⟩, ht⟩, hr⟩

theorem mem_after_start_iff (w : Word) (r : String) :
    r ∈ a.after a.start w ↔ a.Path a.initial w r := by
  rw [start, mem_after_closure_iff]
  simp

theorem acceptsIn_iff (current : NameSet) :
    a.acceptsIn current = true ↔ ∃ r ∈ current, r ∈ a.accepting := by
  simp only [acceptsIn, isAccepting, List.any_eq_true, decide_eq_true_eq, NameSet.mem_names]

theorem not_mem_of_isEmpty (s : NameSet) (h : s.isEmpty = true) (x : String) : x ∉ s := by
  rw [← NameSet.mem_names, List.isEmpty_iff.1 h]
  exact List.not_mem_nil

theorem acceptsIn_of_isEmpty (s : NameSet) (h : s.isEmpty = true) : a.acceptsIn s = false := by
  rw [Bool.eq_false_iff, Ne, acceptsIn_iff]
  rintro ⟨r, hr, _⟩
  exact not_mem_of_isEmpty s h r hr

theorem isEmpty_move (s : NameSet) (h : s.isEmpty = true) (x : Symbol) :
    (a.move s x).isEmpty = true := by
  apply List.isEmpty_iff.2
  apply List.eq_nil_iff_forall_not_mem.2
  intro r hr
  obtain ⟨q, hq, _⟩ := (mem_closure_iff _ r).1 hr
  obtain ⟨p, hp, _⟩ := (mem_reached_iff s x q).1 hq
  exact not_mem_of_isEmpty s h p hp

theorem isEmpty_after (s : NameSet) (h : s.isEmpty = true) (w : Word) :
    (a.after s w).isEmpty = true := by
  induction w generalizing s with
  | nil => exact h
  | cons x w ih => exact ih _ (isEmpty_move s h x)

/-- A run that stops early accepts what it would have accepted by reading on: nothing. -/
theorem isAccepting_run (s : Simulator) (w : Word) :
    (s.run w).isAccepting = s.automaton.acceptsIn (s.automaton.after s.current w) := by
  induction w generalizing s with
  | nil => rfl
  | cons x w ih =>
    rw [Simulator.run]
    split
    · next hdead =>
      have stopped : (s.step x).isAccepting = false := acceptsIn_of_isEmpty _ hdead
      have later : s.automaton.acceptsIn (s.automaton.after s.current (x :: w)) = false :=
        acceptsIn_of_isEmpty _ (isEmpty_after _ hdead w)
      rw [stopped, later]
    · exact ih (s.step x)

theorem accepts_eq_acceptsIn (a : Automaton) (w : Word) :
    a.accepts w = a.acceptsIn (a.after a.start w) := isAccepting_run (Simulator.new a) w

theorem accepts_mono {b : Automaton} (hinitial : a.initial = b.initial)
    (haccepting : ∀ s ∈ a.accepting, s ∈ b.accepting)
    (h : ∀ p x r, a.HasTransition p x r → b.HasTransition p x r) (w : Word)
    (hw : a.accepts w = true) : b.accepts w = true := by
  rw [accepts_eq_acceptsIn, acceptsIn_iff] at hw ⊢
  obtain ⟨r, hr, hacc⟩ := hw
  have hpath := (mem_after_start_iff w r).1 hr
  rw [hinitial] at hpath
  exact ⟨r, (mem_after_start_iff w r).2 (hpath.mono h), haccepting r hacc⟩

theorem accepts_iff_exists_path (a : Automaton) (w : Word) :
    a.accepts w = true ↔ ∃ r ∈ a.accepting, a.Path a.initial w r := by
  rw [accepts_eq_acceptsIn, acceptsIn_iff]
  constructor
  · rintro ⟨r, hr, hacc⟩
    exact ⟨r, hacc, (mem_after_start_iff w r).1 hr⟩
  · rintro ⟨r, hacc, hr⟩
    exact ⟨r, (mem_after_start_iff w r).2 hr, hacc⟩

end EpsilonAutomata.Automaton
