import EpsilonAutomata.Proofs.InPlace
import EpsilonAutomata.Proofs.StateNames

/-! What an editor refuses. An edit fails for a node or a state that is not there, for a specification
that is none, or because no number is left for a new state; it fails for nothing else, and then nothing
has changed. -/

namespace EpsilonAutomata.Editor

def HasNode (e : Editor) (id : Nat) : Prop := 1 ≤ id ∧ id ≤ e.graph.nodes.length

/-- When each operation on an editor fails and with what error. -/
structure Refuses (e : Editor) : Prop where
  addState_iff : ∀ accepting error, e.addState accepting = .error error ↔
    (∃ s ∈ e.automaton.states, ∃ numeral, s.toList = 'q' :: numeral ∧
      Numeral.read? Numeral.word32 numeral = some Numeral.word32) ∧
    error = .invariant (.suffixesExhausted Numeral.word32)
  new_name : ∀ suffix, e.automaton.nextSuffix = .ok suffix →
    e.graph.nodeOf? (stateName (max suffix e.graph.nextId)) = none ∧
      stateName (max suffix e.graph.nextId) ∉ e.automaton.states
  addTransition_iff : ∀ i j x error, e.addTransition i j x = .error error ↔
    ¬ e.HasNode i ∧ error = .unknownState (toString i) ∨
      e.HasNode i ∧ ¬ e.HasNode j ∧ error = .unknownState (toString j)
  addBetween_iff : ∀ p r x error, e.addBetween p r x = .error error ↔
    p ∉ e.automaton.states ∧ error = .unknownState p ∨
      p ∈ e.automaton.states ∧ r ∉ e.automaton.states ∧ error = .unknownState r
  importText_iff : ∀ text error, e.attempt (.importText text) = .error error ↔
    ∃ fault, error = .spec fault ∧
      (Spec.read text = .error fault ∨ ∃ s, Spec.read text = .ok s ∧ s.toAutomaton = .error fault)
  importSpec_iff : ∀ s error, e.attempt (.importSpec s) = .error error ↔
    ∃ fault, error = .spec fault ∧ s.toAutomaton = .error fault
  unchanged : ∀ edit error left, (carryOut edit).run e = .error error left ↔
    e.attempt edit = .error error ∧ left = e

theorem ofSpec_eq_error_iff (s : Spec) (error : Error) :
    ofSpec s = .error error ↔ ∃ fault, error = .spec fault ∧ s.toAutomaton = .error fault := by
  unfold ofSpec
  cases s.toAutomaton <;> simp [Except.mapError, Except.map, eq_comm]

theorem read_eq_error_iff (text : String) (error : Error) :
    Editor.read text = .error error ↔ ∃ fault, error = .spec fault ∧
      (Spec.read text = .error fault ∨ ∃ s, Spec.read text = .ok s ∧ s.toAutomaton = .error fault) := by
  unfold Editor.read
  cases Spec.read text with
  | error fault => simp [eq_comm]
  | ok s => simp [ofSpec_eq_error_iff]

namespace Invariant
variable {e : Editor}

theorem length_nodes (h : e.Invariant) : e.graph.nodes.length = e.automaton.states.size := by
  have hids := congrArg List.length h.ids_eq
  simpa using hids

theorem nextId_eq (h : e.Invariant) : e.graph.nextId = e.graph.nodes.length + 1 := by
  rw [Graph.nextId_of_ids h.ids_eq, h.length_nodes, Graph.firstId, Nat.add_comm]

theorem exists_shows_iff_hasNode (h : e.Invariant) (id : Nat) :
    (∃ s, e.graph.Shows id s) ↔ e.HasNode id := by
  have hmem : id ∈ e.graph.nodes.map Node.id ↔ e.HasNode id := by
    rw [h.ids_eq, List.mem_range'_1, ← h.length_nodes, HasNode, Graph.firstId]
    omega
  rw [← hmem, List.mem_map]
  constructor
  · rintro ⟨_, node, hnode, hid, _⟩
    exact ⟨node, hnode, hid⟩
  · rintro ⟨node, hnode, hid⟩
    exact ⟨node.label, node, hnode, hid, rfl⟩

theorem exists_shows_iff_mem (h : e.Invariant) (s : String) :
    (∃ id, e.graph.Shows id s) ↔ s ∈ e.automaton.states :=
  Graph.exists_shows_iff h.nodes_eq h.wellFormed.initial_mem s

theorem labelOf_eq_error_iff (h : e.Invariant) (id : Nat) (error : Error) :
    e.labelOf id = .error error ↔ ¬ e.HasNode id ∧ error = .unknownState (toString id) := by
  have hshown := h.exists_shows_iff_hasNode id
  simp only [← h.labelOf_eq_ok_iff] at hshown
  rw [← hshown, labelOf]
  cases e.graph.node? id <;> simp [eq_comm]

theorem idOf_eq_error_iff (h : e.Invariant) (s : String) (error : Error) :
    e.idOf s = .error error ↔ s ∉ e.automaton.states ∧ error = .unknownState s := by
  have hshown := h.exists_shows_iff_mem s
  simp only [← h.idOf_eq_ok_iff] at hshown
  rw [← hshown, idOf]
  cases e.graph.nodeOf? s <;> simp [eq_comm]

theorem addTransition_eq_error_iff (h : e.Invariant) (i j : Nat) (x : Symbol) (error : Error) :
    e.addTransition i j x = .error error ↔
      ¬ e.HasNode i ∧ error = .unknownState (toString i) ∨
        e.HasNode i ∧ ¬ e.HasNode j ∧ error = .unknownState (toString j) := by
  have hsource := h.labelOf_eq_error_iff i
  have htarget := h.labelOf_eq_error_iff j
  cases hi : e.labelOf i with
  | error found =>
    obtain ⟨hnode, rfl⟩ := (hsource found).1 hi
    simp [Editor.addTransition, hi, hnode, eq_comm]
  | ok p =>
    have hp := (h.labelOf_eq_ok_iff i p).1 hi
    have hnode : e.HasNode i := (h.exists_shows_iff_hasNode i).1 ⟨p, hp⟩
    cases hj : e.labelOf j with
    | error found =>
      obtain ⟨hnone, rfl⟩ := (htarget found).1 hj
      simp [Editor.addTransition, hi, hj, hnode, hnone, eq_comm]
    | ok r =>
      have hr := (h.labelOf_eq_ok_iff j r).1 hj
      have hother : e.HasNode j := (h.exists_shows_iff_hasNode j).1 ⟨r, hr⟩
      simp [h.addTransition_eq_ok hp hr x, hnode, hother]

theorem addBetween_eq_error_iff (h : e.Invariant) (p r : String) (x : Symbol) (error : Error) :
    e.addBetween p r x = .error error ↔
      p ∉ e.automaton.states ∧ error = .unknownState p ∨
        p ∈ e.automaton.states ∧ r ∉ e.automaton.states ∧ error = .unknownState r := by
  have hsource := h.idOf_eq_error_iff p
  have hdestination := h.idOf_eq_error_iff r
  cases hp : e.idOf p with
  | error found =>
    obtain ⟨hstate, rfl⟩ := (hsource found).1 hp
    simp [Editor.addBetween, hp, hstate, eq_comm]
  | ok i =>
    have hi := (h.idOf_eq_ok_iff p i).1 hp
    have hstate := h.mem_states_of_shows hi
    cases hr : e.idOf r with
    | error found =>
      obtain ⟨hnone, rfl⟩ := (hdestination found).1 hr
      simp [Editor.addBetween, hp, hr, hstate, hnone, eq_comm]
    | ok j =>
      have hj := (h.idOf_eq_ok_iff r j).1 hr
      have hother := h.mem_states_of_shows hj
      simp [Editor.addBetween, hp, hr, h.addTransition_eq_ok hi hj x, hstate, hother]

theorem new_name (h : e.Invariant) (hcount : e.graph.nodes.length < Numeral.word32) {suffix : Nat}
    (hsuffix : e.automaton.nextSuffix = .ok suffix) :
    e.graph.nodeOf? (stateName (max suffix e.graph.nextId)) = none ∧
      stateName (max suffix e.graph.nextId) ∉ e.automaton.states := by
  have hbound : max suffix e.graph.nextId ≤ Numeral.word32 := by
    rw [h.nextId_eq]
    exact Nat.max_le.2 ⟨Automaton.nextSuffix_le hsuffix, hcount⟩
  have hnew := Automaton.stateName_not_mem hsuffix (Nat.le_max_left _ _) hbound
  refine ⟨?_, hnew⟩
  rw [Option.eq_none_iff_forall_ne_some]
  intro node hnode
  have hshows := (Graph.shows_iff_nodeOf? h.nodes_eq node.id _).2 ⟨node, hnode, rfl⟩
  exact hnew (h.mem_states_of_shows hshows)

theorem addState_eq_error_iff (h : e.Invariant) (hcount : e.graph.nodes.length < Numeral.word32)
    (accepting : Bool) (error : Error) :
    e.addState accepting = .error error ↔
      e.automaton.Numbered Numeral.word32 ∧ error = .invariant (.suffixesExhausted Numeral.word32) := by
  have hexhausted := e.automaton.nextSuffix_eq_error_iff
  cases hsuffix : e.automaton.nextSuffix with
  | error defect =>
    obtain ⟨hnumbered, rfl⟩ := (hexhausted defect).1 hsuffix
    simp [Editor.addState, hsuffix, hnumbered, eq_comm]
  | ok suffix =>
    obtain ⟨hshown, hstate⟩ := h.new_name hcount hsuffix
    have hfree : ¬ e.automaton.Numbered Numeral.word32 := fun hnumbered => by
      have herror := (hexhausted _).2 ⟨hnumbered, rfl⟩
      rw [hsuffix] at herror
      cases herror
    have hadd := (Automaton.addState_eq_ok_iff (a := e.automaton) _ accepting).2 ⟨hstate, rfl⟩
    simp [Editor.addState, hsuffix, hshown, hadd, hfree]

end Invariant

theorem Obtainable.refuses {e : Editor} (h : e.Obtainable)
    (hcount : e.graph.nodes.length < Numeral.word32) : e.Refuses := by
  have hinv : e.Invariant := Reached.invariant h
  refine ⟨?_, fun suffix => hinv.new_name hcount, hinv.addTransition_eq_error_iff,
    hinv.addBetween_eq_error_iff, fun text => read_eq_error_iff text, fun s => ofSpec_eq_error_iff s, ?_⟩
  · intro accepting error
    rw [hinv.addState_eq_error_iff hcount]
    simp only [Automaton.Numbered, stateNumber?_eq_some_iff]
  · intro edit error left
    rw [run_carryOut, settled_eq_error_iff]

def full : Spec where
  states := ["q", "q+04294967295"]
  alphabet := []
  delta := .empty
  initial := "q+04294967295"
  accepting := []

def filled : Editor := [.importSpec full, .addTransition 1 2 .epsilon].foldl perform .new

theorem refuses_filled :
    filled.Obtainable ∧ filled.graph.nodes.length < Numeral.word32 ∧ filled.Refuses ∧
      (carryOut (.addState true)).run filled =
        .error (.invariant (.suffixesExhausted Numeral.word32)) filled ∧
      filled.addTransition 0 3 .epsilon = .error (.unknownState "0") ∧
      filled.addBetween "q" "q0" .epsilon = .error (.unknownState "q0") := by
  have hobtainable : filled.Obtainable := Obtainable.foldl_perform Reached.new _
  have hcount : filled.graph.nodes.length < Numeral.word32 := by decide +kernel
  have hrefuses := hobtainable.refuses hcount
  refine ⟨hobtainable, hcount, hrefuses, ?_, by decide +kernel, by decide +kernel⟩
  exact (hrefuses.unchanged (.addState true) _ _).2 ⟨by decide +kernel, rfl⟩

end EpsilonAutomata.Editor
