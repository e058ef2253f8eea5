import EpsilonAutomata.Proofs.Arguments
import EpsilonAutomata.Proofs.Refusal
import EpsilonAutomata.Proofs.RoundTrip

/-! What a build makes. The states are numbered twice, by their nodes and in their names; the first state is
there before any is added and is named `q0`, every other one takes the number of its node, so that `q1` is
left out. A transition is taken in as long as both its numbers are those of nodes, and the first number that
is not ends the build. -/

namespace EpsilonAutomata

namespace CommandLine

def nodeName (id : Nat) : String := if id = 1 then "q0" else stateName id

theorem nodeName_of_one_lt {id : Nat} (h : 1 < id) : nodeName id = stateName id :=
  if_neg (Nat.ne_of_gt h)

theorem le_of_stateNumber?_nodeName {id m : Nat} (hid : id ≤ Numeral.word32)
    (h : stateNumber? (nodeName id) = some m) : m ≤ id := by
  unfold nodeName at h
  split at h
  · have hzero : stateNumber? "q0" = some 0 := stateNumber?_stateName (Nat.zero_le _)
    obtain rfl := Option.some.inj (hzero.symm.trans h)
    exact Nat.zero_le id
  · rw [stateNumber?_stateName hid] at h
    exact Nat.le_of_eq (Option.some.inj h).symm

/-- A new editor to which nothing but states was added. The nodes of those that accept are listed. -/
structure Framed (count : Nat) (final : List Nat) (e : Editor) : Prop where
  invariant : e.Invariant
  states : e.automaton.states.toList = (List.range' 1 count).map nodeName
  alphabet : e.automaton.alphabet = Automaton.new.alphabet
  initial : e.automaton.initial = nodeName 1
  accepting : e.automaton.accepting.toList = final.map nodeName
  bare : ∀ p x r, ¬ e.automaton.HasTransition p x r

theorem framed_new : Framed 1 [] .new where
  invariant := Editor.invariant_ofAutomaton Automaton.wellFormed_new
  states := rfl
  alphabet := rfl
  initial := rfl
  accepting := rfl
  bare p x r h := by
    have hmem := (Automaton.new.mem_transitions p x r).2 h
    exact absurd hmem (by simp [show Automaton.new.transitions = [] from rfl])

namespace Framed
variable {count : Nat} {final : List Nat} {e : Editor}

theorem length_nodes (h : Framed count final e) : e.graph.nodes.length = count := by
  rw [h.invariant.length_nodes, OrderedSet.size, h.states, List.length_map, List.length_range']

theorem le_of_numbered (h : Framed count final e) (hcount : count ≤ Numeral.word32) {m : Nat}
    (hm : e.automaton.Numbered m) : m ≤ count := by
  obtain ⟨s, hs, hnumber⟩ := hm
  rw [← OrderedSet.mem_toList, h.states] at hs
  obtain ⟨id, hid, rfl⟩ := List.mem_map.1 hs
  have hle : id ≤ count := by
    rw [List.mem_range'_1] at hid
    omega
  exact (le_of_stateNumber?_nodeName (hle.trans hcount) hnumber).trans hle

theorem addState (h : Framed count final e) (hpos : 1 ≤ count) (hcount : count < Numeral.word32)
    (accepting : Bool) :
    ∃ f, e.addState accepting = .ok (nodeName (count + 1), f) ∧
      Framed (count + 1) (if accepting then final ++ [count + 1] else final) f := by
  have hlength := h.length_nodes
  cases hadd : e.addState accepting with
  | error error =>
    have hrefused := (h.invariant.addState_eq_error_iff (hlength ▸ hcount) accepting error).1 hadd
    exact absurd (h.le_of_numbered hcount.le hrefused.1) (Nat.not_le.2 hcount)
  | ok result =>
    obtain ⟨state, f⟩ := result
    obtain ⟨suffix, b, hsuffix, hstate, hb, rfl⟩ := Editor.of_addState hadd
    have hle : suffix ≤ count + 1 := Automaton.nextSuffix_le_of_forall_lt hsuffix fun m hm =>
      Nat.lt_succ_of_le (h.le_of_numbered hcount.le hm)
    rw [h.invariant.nextId_eq, hlength, Nat.max_eq_right hle,
      ← nodeName_of_one_lt (Nat.lt_succ_of_le hpos)] at hstate
    subst hstate
    have htransition := Automaton.hasTransition_addState h.invariant.wellFormed.toConsistent hb
    have hinvariant := h.invariant.addState hadd
    obtain ⟨hnew, rfl⟩ := (Automaton.addState_eq_ok_iff _ _).1 hb
    refine ⟨_, rfl, hinvariant, ?_, h.alphabet, h.initial, ?_, ?_⟩
    · have hlist := e.automaton.states.toList_insert_of_not_mem hnew
      rw [hlist, h.states, List.range'_1_concat, List.map_append, Nat.add_comm 1]
      rfl
    · cases accepting with
      | false => exact h.accepting
      | true =>
        have hlist := e.automaton.accepting.toList_insert_of_not_mem fun hmem =>
          hnew (h.invariant.wellFormed.accepting_mem _ hmem)
        simp only [if_true, hlist, h.accepting, List.map_append, List.map_cons, List.map_nil]
    · intro p x r ht
      exact h.bare p x r ((htransition p x r).1 ht)

theorem addStates (h : Framed count final e) (hpos : 1 ≤ count) (accepting : Bool) (n : Nat)
    (hcount : count + n ≤ Numeral.word32) :
    ∃ f, CommandLine.addStates accepting n e = .ok f ∧
      Framed (count + n) (if accepting then final ++ List.range' (count + 1) n else final) f := by
  induction n generalizing count final e with
  | zero => exact ⟨e, rfl, by simpa using h⟩
  | succ n ih =>
    obtain ⟨f, hadd, hf⟩ := h.addState hpos (by omega) accepting
    obtain ⟨g, hrest, hg⟩ := ih hf (Nat.le_add_left 1 count) (by omega)
    refine ⟨g, ?_, ?_⟩
    · rw [CommandLine.addStates, hadd]
      exact hrest
    · cases accepting <;> simpa [List.range'_succ, Nat.add_assoc, Nat.add_comm 1] using hg

end Framed

/-! Transitions. -/

namespace Transition

def ends (t : Transition) : List Nat := [t.source, t.target]

def arrow (t : Transition) : Automaton.Transition := ⟨nodeName t.source, t.symbol, nodeName t.target⟩

end Transition

def outside (count id : Nat) : Bool := decide ¬ (1 ≤ id ∧ id ≤ count)

def firstOutside? (count : Nat) (ts : List Transition) : Option Nat :=
  (ts.flatMap Transition.ends).find? (outside count)

theorem outside_eq_false_iff (count id : Nat) : outside count id = false ↔ 1 ≤ id ∧ id ≤ count := by
  rw [outside, decide_eq_false_iff_not, not_not]

theorem firstOutside?_eq_none_iff (count : Nat) (ts : List Transition) :
    firstOutside? count ts = none ↔ ∀ t ∈ ts, ∀ id ∈ t.ends, 1 ≤ id ∧ id ≤ count := by
  simp only [firstOutside?, List.find?_eq_none, List.mem_flatMap, Bool.not_eq_true, outside_eq_false_iff]
  constructor
  · exact fun h t ht id hid => h id ⟨t, ht, hid⟩
  · rintro h id ⟨t, ht, hid⟩
    exact h t ht id hid

theorem firstOutside?_cons (count : Nat) (t : Transition) (ts : List Transition) :
    firstOutside? count (t :: ts) = (t.ends.find? (outside count)).or (firstOutside? count ts) := by
  rw [firstOutside?, List.flatMap_cons, List.find?_append]
  rfl

def connect (a : Automaton) (ts : List Transition) : Automaton :=
  ts.foldl (fun a t => a.insertTransition (nodeName t.source) t.symbol (nodeName t.target)) a

section Connect
variable (a : Automaton) (ts : List Transition)

theorem connect_eq : connect a ts = { a with
    alphabet := a.alphabet.insertAll (ts.map Transition.symbol)
    delta := (connect a ts).delta } := by
  induction ts generalizing a with
  | nil => rfl
  | cons t ts ih => exact ih _

theorem hasTransition_connect (p : String) (x : Symbol) (r : String) :
    (connect a ts).HasTransition p x r ↔ a.HasTransition p x r ∨ ∃ t ∈ ts, t.arrow = ⟨p, x, r⟩ := by
  induction ts generalizing a with
  | nil => simp [connect]
  | cons t ts ih =>
    rw [connect, List.foldl_cons, ← connect, ih, Automaton.hasTransition_insertTransition, or_assoc]
    simp [Transition.arrow, eq_comm]

end Connect

def Labelled (count : Nat) (e : Editor) : Prop :=
  ∀ id s, e.graph.Shows id s ↔ (1 ≤ id ∧ id ≤ count) ∧ nodeName id = s

theorem Framed.labelled {count : Nat} {final : List Nat} {e : Editor} (h : Framed (count + 1) final e) :
    Labelled (count + 1) e := by
  have hstates : e.automaton.states.toList = e.automaton.initial :: (List.range' 2 count).map nodeName := by
    rw [h.states, h.initial, List.range'_succ, List.map_cons]
  have hlabels : Graph.labelsOf e.automaton = (List.range' 1 (count + 1)).map nodeName := by
    rw [Graph.labelsOf_of_initial_first hstates, h.initial, List.range'_succ, List.map_cons]
  intro id s
  rw [Graph.shows_iff_getElem? h.invariant.nodes_eq, hlabels]
  simp only [List.getElem?_map, Option.map_eq_some_iff, List.getElem?_eq_some_iff, List.getElem_range',
    List.length_range', Graph.firstId, Nat.one_mul]
  constructor
  · rintro ⟨i, rfl, _, ⟨hi, rfl⟩, hs⟩
    exact ⟨⟨Nat.le_add_right 1 i, by omega⟩, hs⟩
  · rintro ⟨⟨hfirst, hlast⟩, hs⟩
    exact ⟨id - 1, by omega, id, ⟨by omega, by omega⟩, hs⟩

namespace Labelled
variable {count : Nat} {e : Editor}

theorem hasNode_iff (hl : Labelled count e) (h : e.Invariant) (id : Nat) :
    e.HasNode id ↔ 1 ≤ id ∧ id ≤ count := by
  rw [← h.exists_shows_iff_hasNode]
  simp [hl id]

theorem addTransition (hl : Labelled count e) (h : e.Invariant) {t : Transition}
    (ht : ∀ id ∈ t.ends, 1 ≤ id ∧ id ≤ count) :
    ∃ f, e.addTransition t.source t.target t.symbol = .ok f ∧ f.Invariant ∧ Labelled count f ∧
      f.automaton = e.automaton.insertTransition (nodeName t.source) t.symbol (nodeName t.target) := by
  have hsource := (hl t.source _).2 ⟨ht _ (by simp [Transition.ends]), rfl⟩
  have htarget := (hl t.target _).2 ⟨ht _ (by simp [Transition.ends]), rfl⟩
  exact ⟨_, h.addTransition_eq_ok hsource htarget t.symbol,
    h.insertTransition hsource htarget t.symbol, hl, rfl⟩

theorem addTransition_eq_error (hl : Labelled count e) (h : e.Invariant) {t : Transition} {id : Nat}
    (hid : t.ends.find? (outside count) = some id) :
    e.addTransition t.source t.target t.symbol = .error (.unknownState (toString id)) := by
  rw [h.addTransition_eq_error_iff, hl.hasNode_iff h, hl.hasNode_iff h, ← outside_eq_false_iff,
    ← outside_eq_false_iff]
  cases hsource : outside count t.source with
  | true =>
    have hfirst : t.source = id := by simpa [Transition.ends, hsource] using hid
    exact .inl ⟨Bool.noConfusion, by rw [hfirst]⟩
  | false =>
    have hsecond : outside count t.target = true ∧ t.target = id := by
      simpa [Transition.ends, hsource] using hid
    exact .inr ⟨rfl, by simp [hsecond.1], by rw [hsecond.2]⟩

theorem addTransitions (hl : Labelled count e) (h : e.Invariant) {ts : List Transition}
    (hts : ∀ t ∈ ts, ∀ id ∈ t.ends, 1 ≤ id ∧ id ≤ count) :
    ∃ f, CommandLine.addTransitions ts e = .ok f ∧ f.Invariant ∧
      f.automaton = connect e.automaton ts := by
  induction ts generalizing e with
  | nil => exact ⟨e, rfl, h, rfl⟩
  | cons t ts ih =>
    obtain ⟨f, hadd, hf, hlf, hautomaton⟩ := hl.addTransition h (hts t List.mem_cons_self)
    obtain ⟨g, hrest, hg, hconnect⟩ := ih hlf hf fun u hu => hts u (List.mem_cons_of_mem t hu)
    refine ⟨g, ?_, hg, ?_⟩
    · rw [CommandLine.addTransitions, hadd]
      exact hrest
    · rw [hconnect, hautomaton]
      rfl

/-- The transitions before the first that is refused do not matter. -/
theorem addTransitions_eq_error (hl : Labelled count e) (h : e.Invariant) {ts : List Transition} {id : Nat}
    (hid : firstOutside? count ts = some id) :
    CommandLine.addTransitions ts e = .error (.unknownState (toString id)) := by
  induction ts generalizing e with
  | nil => cases hid
  | cons t ts ih =>
    rw [firstOutside?_cons] at hid
    rw [CommandLine.addTransitions]
    cases hfind : t.ends.find? (outside count) with
    | none =>
      have hinside : ∀ id ∈ t.ends, 1 ≤ id ∧ id ≤ count := by
        simpa [outside_eq_false_iff] using hfind
      rw [hfind, Option.none_or] at hid
      obtain ⟨f, hadd, hf, hlf, _⟩ := hl.addTransition h hinside
      rw [hadd]
      exact ih hlf hf hid
    | some first =>
      rw [hfind, Option.some_or] at hid
      cases hid
      rw [hl.addTransition_eq_error h hfind]

end Labelled

/-! The whole build. -/

theorem exists_frame {plain accepting : Nat} (hcount : plain + accepting + 1 ≤ Numeral.word32) :
    ∃ e, Framed (plain + accepting + 1) (List.range' (plain + 2) accepting) e ∧
      ∀ ts, build plain accepting ts = addTransitions ts e := by
  obtain ⟨e, hplain, he⟩ := framed_new.addStates Nat.le.refl false plain (by omega)
  obtain ⟨f, haccepting, hf⟩ := he.addStates (Nat.le_add_right 1 plain) true accepting (by omega)
  refine ⟨f, ?_, fun ts => ?_⟩
  · rw [show 1 + plain + accepting = plain + accepting + 1 by omega,
      show 1 + plain + 1 = plain + 2 by omega] at hf
    exact hf
  · rw [build, hplain]
    simp only [bind, Except.bind, haccepting]

def firstSymbols : List Symbol := [.ofKey "0", .ofKey "1", .epsilon]

theorem toList_alphabet_new : Automaton.new.alphabet.toList = firstSymbols :=
  OrderedSet.toList_ofList _ (by decide)

/-- The specification that a build is asked for. -/
structure Asked (plain accepting : Nat) (ts : List Transition) (s : Spec) : Prop where
  states : s.states = (List.range' 1 (plain + accepting + 1)).map nodeName
  initial : s.initial = "q0"
  accepting : s.accepting = (List.range' (plain + 2) accepting).map nodeName
  alphabet : s.alphabet =
    firstSymbols ++ ((ts.map Transition.symbol).filter fun x => x ∉ firstSymbols).eraseDups
  nodup_transitions : s.transitions.Nodup
  mem_transitions_iff : ∀ t, t ∈ s.transitions ↔ t ∈ ts.map Transition.arrow

theorem Framed.asked {plain accepting : Nat} {e f : Editor} {ts : List Transition}
    (he : Framed (plain + accepting + 1) (List.range' (plain + 2) accepting) e)
    (hf : f.Invariant) (hconnect : f.automaton = connect e.automaton ts) :
    Asked plain accepting ts f.toSpec := by
  have hsame := connect_eq e.automaton ts
  have htransition (p : String) (x : Symbol) (r : String) :
      f.automaton.HasTransition p x r ↔ ∃ t ∈ ts, t.arrow = ⟨p, x, r⟩ := by
    rw [hconnect, hasTransition_connect, or_iff_right (he.bare p x r)]
  rw [← hconnect] at hsame
  have hstates : f.automaton.states = e.automaton.states := by rw [hsame]
  have hinitial : f.automaton.initial = e.automaton.initial := by rw [hsame]
  have haccepting : f.automaton.accepting = e.automaton.accepting := by rw [hsame]
  have halphabet : f.automaton.alphabet = Automaton.new.alphabet.insertAll (ts.map Transition.symbol) := by
    rw [hsame, he.alphabet]
  refine ⟨?_, ?_, ?_, ?_, ?_, ?_⟩
  · exact (congrArg OrderedSet.toList hstates).trans he.states
  · exact hinitial.trans he.initial
  · exact (congrArg OrderedSet.toList haccepting).trans he.accepting
  · have hlist := Automaton.new.alphabet.toList_insertAll_eq (ts.map Transition.symbol)
    simp only [← OrderedSet.mem_toList, toList_alphabet_new] at hlist
    exact (congrArg OrderedSet.toList halphabet).trans hlist
  · rw [Editor.toSpec, Automaton.transitions_toSpec]
    exact Automaton.nodup_transitions _
  · rintro ⟨p, x, r⟩
    rw [Editor.toSpec, Automaton.transitions_toSpec, Automaton.mem_transitions,
      Automaton.hasTransition_arranged hf.wellFormed, htransition, List.mem_map]

/-- A build prints what it is asked for, or the first number that is not that of a node. -/
theorem execute_build (files : Files) (piped : Option ByteArray) (plain accepting : Nat)
    (hcount : plain + accepting + 1 < Numeral.word32) (ts : List Transition) :
    ((∀ t ∈ ts, t.Fits) → ∃ args, parse args = .ok (.build plain accepting ts)) ∧
      ∀ args, parse args = .ok (.build plain accepting ts) →
        ((execute files piped args).exitCode = 0 ↔
          ∀ t ∈ ts, ∀ id ∈ t.ends, 1 ≤ id ∧ id ≤ plain + accepting + 1) ∧
        ((∀ t ∈ ts, ∀ id ∈ t.ends, 1 ≤ id ∧ id ≤ plain + accepting + 1) →
          ∃ s, execute files piped args = .success [s.toJson] ∧
            Spec.ofJson (execute files piped args).output.toList = .ok s ∧ Asked plain accepting ts s) ∧
        ∀ id, firstOutside? (plain + accepting + 1) ts = some id →
          execute files piped args = ⟨1, "", "Error: " ++ (Error.unknownState (toString id)).message⟩ := by
  have hsmall : Numeral.word32 ≤ Numeral.word64 := by decide
  obtain ⟨e, he, hbuild⟩ := exists_frame hcount.le
  refine ⟨fun hfits => ⟨_, parse_buildArgs (by omega) (by omega) hfits⟩, fun args hargs => ?_⟩
  have hprinted (hts : ∀ t ∈ ts, ∀ id ∈ t.ends, 1 ≤ id ∧ id ≤ plain + accepting + 1) :
      ∃ s, execute files piped args = .success [s.toJson] ∧ Asked plain accepting ts s := by
    obtain ⟨f, hadd, hf, hconnect⟩ := he.labelled.addTransitions he.invariant hts
    refine ⟨f.toSpec, ?_, he.asked hf hconnect⟩
    rw [execute_of_parse hargs, Command.lines, hbuild, hadd]
    rfl
  have hrefused (id : Nat) (hid : firstOutside? (plain + accepting + 1) ts = some id) :
      execute files piped args = ⟨1, "", "Error: " ++ (Error.unknownState (toString id)).message⟩ := by
    rw [execute_of_parse hargs, Command.lines, hbuild, he.labelled.addTransitions_eq_error he.invariant hid]
    rfl
  refine ⟨?_, fun hts => ?_, hrefused⟩
  · rw [← firstOutside?_eq_none_iff]
    cases hfirst : firstOutside? (plain + accepting + 1) ts with
    | none =>
      obtain ⟨s, hs, _⟩ := hprinted ((firstOutside?_eq_none_iff _ _).1 hfirst)
      simp [hs, Outcome.success]
    | some id => simp [hrefused id hfirst]
  · obtain ⟨s, hs, hasked⟩ := hprinted hts
    refine ⟨s, hs, ?_, hasked⟩
    rw [hs, Outcome.output_line, s.ofJson_line]

/-- Written on the command line, epsilon is the empty text behind the second colon. -/
def looped : List Transition := [⟨1, 3, .ofKey "x"⟩, ⟨3, 1, .epsilon⟩, ⟨1, 3, .ofKey "x"⟩]

theorem execute_build_looped :
    (∃ s : Spec, execute .empty none ["build", "-s1", "--accepting=1", "-t1:3:x", "-t", "3:1:", "-t=1:3:x"] =
        .success [s.toJson] ∧
      s.states = ["q0", "q2", "q3"] ∧ s.initial = "q0" ∧ s.accepting = ["q3"] ∧
      s.alphabet = [.ofKey "0", .ofKey "1", .epsilon, .ofKey "x"] ∧ s.transitions.Nodup ∧
      ∀ t, t ∈ s.transitions ↔ t ∈ looped.map Transition.arrow) ∧
    execute .empty none ["build", "-s1", "-t1:3:x", "-t", "3:1:", "-t=1:3:x"] =
      ⟨1, "", "Error: Unknown state: 3"⟩ := by
  obtain ⟨_, hbuilt⟩ := execute_build .empty none 1 1 (by decide) looped
  obtain ⟨_, hrefused⟩ := execute_build .empty none 1 0 (by decide) looped
  have hinside : ∀ t ∈ looped, ∀ id ∈ t.ends, 1 ≤ id ∧ id ≤ 1 + 1 + 1 :=
    (firstOutside?_eq_none_iff 3 looped).1 (by decide)
  obtain ⟨s, hs, _, hasked⟩ := (hbuilt ["build", "-s1", "--accepting=1", "-t1:3:x", "-t", "3:1:", "-t=1:3:x"]
    (by decide +kernel)).2.1 hinside
  refine ⟨⟨s, hs, hasked.states, hasked.initial, hasked.accepting, hasked.alphabet, hasked.nodup_transitions,
    hasked.mem_transitions_iff⟩, ?_⟩
  exact (hrefused _ (by decide +kernel)).2.2 3 (by decide)

end CommandLine
end EpsilonAutomata
