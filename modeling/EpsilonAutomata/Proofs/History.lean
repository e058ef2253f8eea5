import EpsilonAutomata.Proofs.Drawing
import EpsilonAutomata.Proofs.Edit

/-! Editors with a past. Whatever was done to an editor, and whether or not it succeeded, the drawing
still shows the automaton: the nodes are those of a drawing made at once, and the edges show the
transitions, though the symbols may be grouped on them in another way. -/

namespace EpsilonAutomata.Editor

inductive Edit where
  | addState (accepting : Bool)
  | addTransition (source target : Nat) (x : Symbol)
  | addBetween (source destination : String) (x : Symbol)
  | importText (text : String)
  | importSpec (s : Spec)

def attempt (e : Editor) : Edit → Except Error Editor
  | .addState accepting => (e.addState accepting).map Prod.snd
  | .addTransition source target x => e.addTransition source target x
  | .addBetween source destination x => e.addBetween source destination x
  | .importText text => Editor.read text
  | .importSpec s => Editor.ofSpec s

/-- An edit that fails leaves the editor as it is. -/
def perform (e : Editor) (edit : Edit) : Editor :=
  match e.attempt edit with
  | .ok f => f
  | .error _ => e

/-- The editors that come from a new one, an imported one or one made of an automaton by edits that are
admitted. -/
inductive Reached (admits : Editor → Edit → Prop) : Editor → Prop
  | new : Reached admits .new
  | read {text : String} {e : Editor} : Editor.read text = .ok e → Reached admits e
  | imported {s : Spec} {e : Editor} : ofSpec s = .ok e → Reached admits e
  | converted {a : Automaton} : a.WellFormed → Reached admits (.ofAutomaton a)
  | edited {e : Editor} {edit : Edit} :
    Reached admits e → admits e edit → Reached admits (e.perform edit)

def Obtainable (e : Editor) : Prop := Reached (fun _ _ => True) e

/-- What every edit preserves. -/
structure Invariant (e : Editor) : Prop where
  wellFormed : e.automaton.WellFormed
  nodes_eq : e.graph.nodes = Graph.nodesOf e.automaton
  mem_drawn_iff : ∀ i x j, (i, x, j) ∈ e.graph.drawn ↔
    ∃ p r, e.graph.Shows i p ∧ e.graph.Shows j r ∧ e.automaton.HasTransition p x r
  symbols_ne_nil : ∀ edge ∈ e.graph.edges, edge.symbols ≠ []
  nodup_opening : (e.graph.edges.map Edge.opening).Nodup

theorem invariant_ofAutomaton {a : Automaton} (h : a.WellFormed) : (ofAutomaton a).Invariant where
  wellFormed := h
  nodes_eq := rfl
  mem_drawn_iff := Graph.mem_drawn_ofAutomaton
  symbols_ne_nil := by
    intro edge hedge
    obtain ⟨x, hx⟩ := Graph.exists_symbols_eq_ofAutomaton a edge hedge
    rw [hx]
    exact List.cons_ne_nil x []
  nodup_opening := Graph.nodup_opening_ofAutomaton a

theorem invariant_ofSpec {s : Spec} {e : Editor} (h : ofSpec s = .ok e) : e.Invariant := by
  obtain ⟨a, ha, rfl⟩ := (map_eq_ok_iff _ _ _).1 h
  exact invariant_ofAutomaton (Automaton.wellFormed_of_toAutomaton ((mapError_eq_ok_iff _ _ _).1 ha))

theorem ofSpec_of_read {text : String} {e : Editor} (h : Editor.read text = .ok e) :
    ∃ s, ofSpec s = .ok e := by
  unfold Editor.read at h
  split at h
  · cases h
  · exact ⟨_, h⟩

theorem of_addState {e f : Editor} {accepting : Bool} {state : String}
    (h : e.addState accepting = .ok (state, f)) :
    ∃ suffix b, e.automaton.nextSuffix = .ok suffix ∧ state = stateName (max suffix e.graph.nextId) ∧
      e.automaton.addState state accepting = .ok b ∧
      f = ⟨b, e.graph.addNode ⟨e.graph.nextId, state, accepting⟩⟩ := by
  unfold addState at h
  split at h
  · cases h
  · next suffix hsuffix =>
    simp only at h
    split at h
    · cases h
    · split at h
      · cases h
      · next b hb =>
        cases h
        exact ⟨suffix, b, hsuffix, rfl, hb, rfl⟩

namespace Invariant
variable {e f : Editor}

theorem labelOf_eq_ok_iff (h : e.Invariant) (id : Nat) (s : String) :
    e.labelOf id = .ok s ↔ e.graph.Shows id s := by
  rw [Graph.shows_iff_node? h.nodes_eq, labelOf]
  cases e.graph.node? id <;> simp

theorem idOf_eq_ok_iff (h : e.Invariant) (s : String) (id : Nat) :
    e.idOf s = .ok id ↔ e.graph.Shows id s := by
  rw [Graph.shows_iff_nodeOf? h.nodes_eq, idOf]
  cases e.graph.nodeOf? s <;> simp

theorem ids_eq (h : e.Invariant) :
    e.graph.nodes.map Node.id = List.range' Graph.firstId e.automaton.states.size := by
  rw [h.nodes_eq, Graph.map_id_nodesOf, Graph.length_labelsOf h.wellFormed.initial_mem]

theorem mem_states_of_shows (h : e.Invariant) {id : Nat} {s : String} (hs : e.graph.Shows id s) :
    s ∈ e.automaton.states :=
  (Graph.exists_shows_iff h.nodes_eq h.wellFormed.initial_mem s).1 ⟨id, hs⟩

theorem addState {accepting : Bool} {state : String} (h : e.Invariant)
    (hf : e.addState accepting = .ok (state, f)) : f.Invariant := by
  obtain ⟨suffix, b, _, _, hb, rfl⟩ := of_addState hf
  have htransition := Automaton.hasTransition_addState h.wellFormed.toConsistent hb
  have hfresh := ((Automaton.addState_eq_ok_iff state accepting).1 hb).1
  have hid : e.graph.nextId = Graph.firstId + e.automaton.states.size := Graph.nextId_of_ids h.ids_eq
  have hnodes : (e.graph.addNode ⟨e.graph.nextId, state, accepting⟩).nodes = Graph.nodesOf b := by
    rw [Graph.nodesOf_addState h.wellFormed hb, Graph.addNode, h.nodes_eq, hid]
  have hshows (id : Nat) (s : String) :
      (e.graph.addNode ⟨e.graph.nextId, state, accepting⟩).Shows id s ↔
        e.graph.Shows id s ∨ e.graph.nextId = id ∧ state = s := by
    simp only [Graph.Shows, Graph.addNode, List.mem_append, List.mem_singleton, or_and_right, exists_or,
      exists_eq_left]
  refine ⟨h.wellFormed.addState hb, hnodes, ?_, h.symbols_ne_nil, h.nodup_opening⟩
  intro i x j
  have hdrawn := h.mem_drawn_iff i x j
  simp only [hshows, htransition]
  refine hdrawn.trans ⟨?_, ?_⟩
  · rintro ⟨p, r, hp, hr, ht⟩
    exact ⟨p, r, .inl hp, .inl hr, ht⟩
  · rintro ⟨p, r, hp, hr, ht⟩
    -- the ends of a transition are states, which the new name is not
    have hp' : p ≠ state := by
      rintro rfl
      exact hfresh (h.wellFormed.source_mem_of_hasTransition ht)
    have hr' : r ≠ state := by
      rintro rfl
      exact hfresh (h.wellFormed.destination_mem p x r ht)
    exact ⟨p, r, hp.resolve_right fun hnew => hp' hnew.2.symm,
      hr.resolve_right fun hnew => hr' hnew.2.symm, ht⟩

theorem insertTransition {i j : Nat} {p r : String} (h : e.Invariant) (hi : e.graph.Shows i p)
    (hj : e.graph.Shows j r) (x : Symbol) :
    Invariant ⟨e.automaton.insertTransition p x r, e.graph.addSymbol i j x⟩ where
  wellFormed := h.wellFormed.insertTransition (h.mem_states_of_shows hi) x (h.mem_states_of_shows hj)
  nodes_eq := h.nodes_eq
  mem_drawn_iff := by
    intro i' y j'
    have hshows (id : Nat) (s : String) :
        (e.graph.addSymbol i j x).Shows id s ↔ e.graph.Shows id s := Iff.rfl
    simp only [Graph.mem_drawn_addSymbol, h.mem_drawn_iff, hshows,
      Automaton.hasTransition_insertTransition, Prod.mk.injEq]
    constructor
    · rintro (⟨rfl, rfl, rfl⟩ | ⟨p', r', hp, hr, ht⟩)
      · exact ⟨p, r, hi, hj, .inr ⟨rfl, rfl, rfl⟩⟩
      · exact ⟨p', r', hp, hr, .inl ht⟩
    · rintro ⟨p', r', hp, hr, ht | ⟨rfl, rfl, rfl⟩⟩
      · exact .inr ⟨p', r', hp, hr, ht⟩
      · exact .inl ⟨Graph.Shows.id_unique h.nodes_eq hp hi, rfl, Graph.Shows.id_unique h.nodes_eq hr hj⟩
  symbols_ne_nil := Graph.symbols_ne_nil_addSymbolTo i j x e.graph.edges h.symbols_ne_nil
  nodup_opening := by
    rw [Graph.addSymbol, Graph.map_opening_addSymbolTo _ _ _ _ h.symbols_ne_nil]
    split
    · simpa using h.nodup_opening
    · next hnone =>
      apply OrderedSet.nodup_concat h.nodup_opening
      intro hmem
      obtain ⟨edge, hedge, hopening⟩ := List.mem_map.1 hmem
      have hends : edge.source = i ∧ edge.target = j := by
        simp only [Edge.opening, Prod.mk.injEq] at hopening
        exact ⟨hopening.1, hopening.2.2⟩
      exact hnone (List.find?_isSome.2 ⟨edge, hedge, by simp [Graph.between, hends]⟩)

theorem addTransition_eq_ok {i j : Nat} {p r : String} (h : e.Invariant) (hi : e.graph.Shows i p)
    (hj : e.graph.Shows j r) (x : Symbol) :
    e.addTransition i j x =
      .ok ⟨e.automaton.insertTransition p x r, e.graph.addSymbol i j x⟩ := by
  rw [Editor.addTransition, (h.labelOf_eq_ok_iff i p).2 hi, (h.labelOf_eq_ok_iff j r).2 hj]
  simp only
  rw [h.wellFormed.addTransition_eq_ok (h.mem_states_of_shows hi) x (h.mem_states_of_shows hj)]

theorem of_addTransition {i j : Nat} {x : Symbol} (h : e.Invariant)
    (hf : e.addTransition i j x = .ok f) :
    ∃ p r, e.graph.Shows i p ∧ e.graph.Shows j r ∧
      f = ⟨e.automaton.insertTransition p x r, e.graph.addSymbol i j x⟩ := by
  cases hi : e.labelOf i with
  | error error =>
    rw [Editor.addTransition, hi] at hf
    cases hf
  | ok p =>
    cases hj : e.labelOf j with
    | error error =>
      rw [Editor.addTransition, hi, hj] at hf
      cases hf
    | ok r =>
      rw [h.labelOf_eq_ok_iff] at hi hj
      rw [h.addTransition_eq_ok hi hj] at hf
      exact ⟨p, r, hi, hj, (Except.ok.inj hf).symm⟩

theorem addTransition {i j : Nat} {x : Symbol} (h : e.Invariant)
    (hf : e.addTransition i j x = .ok f) : f.Invariant := by
  obtain ⟨p, r, hi, hj, rfl⟩ := h.of_addTransition hf
  exact h.insertTransition hi hj x

end Invariant

theorem of_addBetween {e f : Editor} {source destination : String} {x : Symbol}
    (h : e.addBetween source destination x = .ok f) :
    ∃ i j, e.idOf source = .ok i ∧ e.idOf destination = .ok j ∧ e.addTransition i j x = .ok f := by
  unfold addBetween at h
  split at h
  · cases h
  · next i hi =>
    split at h
    · cases h
    · next j hj => exact ⟨i, j, hi, hj, h⟩

theorem Invariant.attempt {e f : Editor} {edit : Edit} (h : e.Invariant)
    (hf : e.attempt edit = .ok f) : f.Invariant := by
  cases edit with
  | addState accepting =>
    obtain ⟨⟨state, f⟩, hstate, rfl⟩ := (map_eq_ok_iff _ _ _).1 hf
    exact h.addState hstate
  | addTransition source target x => exact h.addTransition hf
  | addBetween source destination x =>
    obtain ⟨i, j, _, _, hij⟩ := of_addBetween hf
    exact h.addTransition hij
  | importText text =>
    obtain ⟨s, hs⟩ := ofSpec_of_read hf
    exact invariant_ofSpec hs
  | importSpec s => exact invariant_ofSpec hf

theorem Invariant.perform {e : Editor} (h : e.Invariant) (edit : Edit) : (e.perform edit).Invariant := by
  unfold Editor.perform
  split
  · next hf => exact h.attempt hf
  · exact h

theorem Reached.invariant {admits : Editor → Edit → Prop} {e : Editor} (h : Reached admits e) :
    e.Invariant := by
  induction h with
  | new => exact invariant_ofAutomaton Automaton.wellFormed_new
  | read hread =>
    obtain ⟨s, hs⟩ := ofSpec_of_read hread
    exact invariant_ofSpec hs
  | imported hs => exact invariant_ofSpec hs
  | converted ha => exact invariant_ofAutomaton ha
  | edited _ _ ih => exact ih.perform _

def Draws (e : Editor) (t : Automaton.Transition) : Prop :=
  ∃ i j, (i, t.symbol, j) ∈ e.graph.drawn ∧ e.labelOf i = .ok t.source ∧ e.labelOf j = .ok t.destination

/-- How the drawing of an editor relates to its automaton. -/
structure InStep (e : Editor) : Prop where
  nodes_eq : e.graph.nodes = (Graph.ofAutomaton e.automaton).nodes
  ids_eq : e.graph.nodes.map Node.id = List.range' 1 e.automaton.states.size
  initial_first : e.labelOf 1 = .ok e.automaton.initial
  nodup_labels : (e.graph.nodes.map Node.label).Nodup
  mem_labels_iff : ∀ s, s ∈ e.graph.nodes.map Node.label ↔ s ∈ e.automaton.states
  accepting_eq : ∀ node ∈ e.graph.nodes, node.accepting = e.automaton.isAccepting node.label
  labelOf_iff_idOf : ∀ id s, e.labelOf id = .ok s ↔ e.idOf s = .ok id
  ends_shown : ∀ edge ∈ e.graph.edges,
    (∃ p, e.labelOf edge.source = .ok p) ∧ ∃ r, e.labelOf edge.target = .ok r
  draws_iff : ∀ t, e.Draws t ↔ t ∈ e.automaton.transitions
  edges_le : e.graph.edges.length ≤ e.automaton.transitionCount

namespace Invariant
variable {e : Editor}

theorem draws_iff (h : e.Invariant) (t : Automaton.Transition) :
    e.Draws t ↔ t ∈ e.automaton.transitions := by
  have hmem := e.automaton.mem_transitions t.source t.symbol t.destination
  simp only [Draws, h.mem_drawn_iff, h.labelOf_eq_ok_iff]
  constructor
  · rintro ⟨i, j, ⟨p, r, hp, hr, ht⟩, hsource, hdestination⟩
    obtain rfl := Graph.Shows.state_unique h.nodes_eq hp hsource
    obtain rfl := Graph.Shows.state_unique h.nodes_eq hr hdestination
    exact hmem.2 ht
  · intro ht
    have hshown := Graph.exists_shows_iff h.nodes_eq h.wellFormed.initial_mem
    obtain ⟨i, hi⟩ := (hshown t.source).2 (h.wellFormed.source_mem_of_hasTransition (hmem.1 ht))
    obtain ⟨j, hj⟩ := (hshown t.destination).2 (h.wellFormed.destination_mem _ _ _ (hmem.1 ht))
    exact ⟨i, j, ⟨t.source, t.destination, hi, hj, hmem.1 ht⟩, hi, hj⟩

theorem ends_shown (h : e.Invariant) {edge : Edge} (hedge : edge ∈ e.graph.edges) :
    ∃ p r, e.graph.Shows edge.source p ∧ e.graph.Shows edge.target r := by
  obtain ⟨x, hx⟩ := List.exists_mem_of_ne_nil _ (h.symbols_ne_nil edge hedge)
  have hdrawn : (edge.source, x, edge.target) ∈ e.graph.drawn :=
    (Graph.mem_triples _ _ _ _).2 ⟨edge, hedge, rfl, rfl, hx⟩
  obtain ⟨p, r, hp, hr, _⟩ := (h.mem_drawn_iff _ _ _).1 hdrawn
  exact ⟨p, r, hp, hr⟩

/-- Each edge opens with a triple of its own, and the drawing made at once has an edge for it. -/
theorem length_edges_le (h : e.Invariant) : e.graph.edges.length ≤ e.automaton.transitionCount := by
  have hrebuilt := invariant_ofAutomaton h.wellFormed
  have hsubset : e.graph.edges.map Edge.opening ⊆
      (Graph.ofAutomaton e.automaton).edges.map Edge.opening := by
    intro key hkey
    obtain ⟨edge, hedge, rfl⟩ := List.mem_map.1 hkey
    obtain ⟨x, xs, hsymbols⟩ := List.exists_cons_of_ne_nil (h.symbols_ne_nil edge hedge)
    have hdrawn : (edge.source, x, edge.target) ∈ e.graph.drawn :=
      (Graph.mem_triples _ _ _ _).2 ⟨edge, hedge, rfl, rfl, by simp [hsymbols]⟩
    have hsame (id : Nat) (s : String) :
        e.graph.Shows id s ↔ (Graph.ofAutomaton e.automaton).Shows id s := by
      rw [Graph.Shows, h.nodes_eq]
      rfl
    simp only [h.mem_drawn_iff, hsame] at hdrawn
    obtain ⟨edge', hedge', hsource, htarget, hx⟩ :=
      (Graph.mem_triples _ _ _ _).1 ((hrebuilt.mem_drawn_iff _ _ _).2 hdrawn)
    obtain ⟨y, hy⟩ := Graph.exists_symbols_eq_ofAutomaton e.automaton edge' hedge'
    rw [hy, List.mem_singleton] at hx
    refine List.mem_map.2 ⟨edge', hedge', ?_⟩
    simp [Edge.opening, hsource, htarget, hy, hx, hsymbols]
  calc
    e.graph.edges.length = (e.graph.edges.map Edge.opening).length := (List.length_map _).symm
    _ ≤ ((Graph.ofAutomaton e.automaton).edges.map Edge.opening).length :=
      (h.nodup_opening.subperm hsubset).length_le
    _ = (Graph.ofAutomaton e.automaton).edges.length := List.length_map _
    _ ≤ e.automaton.transitionCount := List.length_filterMap_le _ _

end Invariant

/-- The drawing that an editor keeps up to date is the one made at once, but for the grouping of symbols
on its edges. -/
theorem Obtainable.inStep {e : Editor} (h : e.Obtainable) : e.InStep := by
  have hinv : e.Invariant := Reached.invariant h
  have hshows := hinv.labelOf_eq_ok_iff
  refine ⟨hinv.nodes_eq, hinv.ids_eq, ?_, Graph.nodup_labels hinv.nodes_eq, ?_, ?_, ?_, ?_,
    hinv.draws_iff, hinv.length_edges_le⟩
  · rw [hshows, Graph.Shows, hinv.nodes_eq]
    exact ⟨_, List.mem_mapIdx.2 ⟨0, Nat.succ_pos _, rfl⟩, rfl, rfl⟩
  · intro s
    rw [hinv.nodes_eq, Graph.map_label_nodesOf, Graph.mem_labelsOf hinv.wellFormed.initial_mem]
  · intro node hnode
    rw [hinv.nodes_eq] at hnode
    exact Graph.accepting_of_mem_nodesOf hnode
  · intro id s
    rw [hshows, hinv.idOf_eq_ok_iff]
  · intro edge hedge
    obtain ⟨p, r, hp, hr⟩ := hinv.ends_shown hedge
    exact ⟨⟨p, (hshows _ p).2 hp⟩, r, (hshows _ r).2 hr⟩

theorem Obtainable.foldl_perform {e : Editor} (h : e.Obtainable) (edits : List Edit) :
    (edits.foldl perform e).Obtainable := by
  induction edits generalizing e with
  | nil => exact h
  | cons edit edits ih => exact ih (Reached.edited h trivial)

def forked : Spec where
  states := ["end", "start"]
  alphabet := [.ofKey "0", .ofKey "1"]
  delta := .ofList [("start", .ofList [(.ofKey "0", .one "end"), (.ofKey "1", .many ["end"])])]
  initial := "start"
  accepting := ["end"]

def retouched : Editor :=
  [.importSpec forked, .addState true, .addTransition 1 2 (.ofKey "1"), .addTransition 1 9 .epsilon,
    .addBetween "start" "end" (.ofKey "2")].foldl perform .new

theorem inStep_retouched :
    retouched.Obtainable ∧
      retouched.graph.edges.map Edge.symbols =
        [[.ofKey "0", .ofKey "1", .ofKey "2"], [.ofKey "1"]] ∧
      retouched.InStep := by
  have hobtainable : retouched.Obtainable := Obtainable.foldl_perform Reached.new _
  exact ⟨hobtainable, by decide +kernel, hobtainable.inStep⟩

end EpsilonAutomata.Editor
