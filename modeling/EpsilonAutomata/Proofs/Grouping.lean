import EpsilonAutomata.Proofs.AdditionOrder
import EpsilonAutomata.Proofs.History
import EpsilonAutomata.Proofs.Refinement
import Mathlib

/-! Editors built from scratch, one call after the other. A drawing that grows from nothing has at most one
edge between two nodes, so the first edge that a look-up finds is the only one, and it carries the symbols of
the additions between the two states in the order in which they first came. -/

namespace EpsilonAutomata

def Edge.ends (e : Edge) : Nat × Nat := (e.source, e.target)

def noted (x : Symbol) (symbols : List Symbol) : List Symbol :=
  if x ∈ symbols then symbols else symbols ++ [x]

theorem eraseDups_concat (symbols : List Symbol) (x : Symbol) :
    (symbols ++ [x]).eraseDups = noted x symbols.eraseDups := by
  have hmem := List.mem_eraseDups (a := x) (l := symbols)
  rw [List.eraseDups_append, noted]
  by_cases hx : x ∈ symbols
  · rw [if_pos (hmem.2 hx)]
    simp [List.removeAll, hx]
  · rw [if_neg fun h => hx (hmem.1 h)]
    simp [List.removeAll, hx, List.eraseDups_cons]

namespace Graph

def symbolsAt (g : Graph) (i j : Nat) : List Symbol := ((g.edge? i j).map Edge.symbols).getD []

theorem between_iff (i j : Nat) (e : Edge) : between i j e = true ↔ e.ends = (i, j) := by
  simp [between, Edge.ends]

theorem edge?_eq_some_iff_of_nodup {g : Graph} (h : (g.edges.map Edge.ends).Nodup) (i j : Nat) (e : Edge) :
    g.edge? i j = some e ↔ e ∈ g.edges ∧ e.ends = (i, j) :=
  find?_eq_some_iff_of_nodup h (i, j) e

theorem addSymbolTo_cons (i j : Nat) (x : Symbol) (f : Edge) (edges : List Edge) :
    addSymbolTo i j x (f :: edges) =
      if f.ends = (i, j) then ⟨i, j, noted x f.symbols⟩ :: edges else f :: addSymbolTo i j x edges := by
  rw [addSymbolTo]
  by_cases hf : f.source = i ∧ f.target = j
  · obtain ⟨rfl, rfl⟩ := hf
    have hends : f.ends = (f.source, f.target) := rfl
    rw [if_pos ⟨rfl, rfl⟩, if_pos hends, noted]
    split <;> rfl
  · have hends : f.ends ≠ (i, j) := fun h => hf (Prod.mk.inj h)
    rw [if_neg hf, if_neg hends]

theorem map_ends_addSymbolTo (i j : Nat) (x : Symbol) (edges : List Edge) :
    (addSymbolTo i j x edges).map Edge.ends =
      edges.map Edge.ends ++ if (i, j) ∈ edges.map Edge.ends then [] else [(i, j)] := by
  induction edges with
  | nil => rfl
  | cons f edges ih =>
    rw [addSymbolTo_cons]
    by_cases hf : f.ends = (i, j)
    · rw [if_pos hf, List.map_cons, List.map_cons, hf, if_pos List.mem_cons_self, List.append_nil]
      rfl
    · simp only [if_neg hf, List.map_cons, ih, List.mem_cons, Ne.symm hf, false_or, List.cons_append]

theorem nodup_ends_addSymbol {g : Graph} (h : (g.edges.map Edge.ends).Nodup) (i j : Nat) (x : Symbol) :
    ((g.addSymbol i j x).edges.map Edge.ends).Nodup := by
  rw [addSymbol, map_ends_addSymbolTo]
  split
  · rwa [List.append_nil]
  · next hnew => exact OrderedSet.nodup_concat h hnew

theorem find?_addSymbolTo_self (i j : Nat) (x : Symbol) (edges : List Edge) :
    (addSymbolTo i j x edges).find? (between i j) =
      some ⟨i, j, noted x (((edges.find? (between i j)).map Edge.symbols).getD [])⟩ := by
  induction edges with
  | nil => simp [addSymbolTo, between, noted]
  | cons f edges ih =>
    rw [addSymbolTo_cons]
    by_cases hf : f.ends = (i, j)
    · have hbetween := (between_iff i j f).2 hf
      rw [if_pos hf, List.find?_cons_of_pos hbetween, List.find?_cons_of_pos (by simp [between])]
      rfl
    · have hbetween : ¬ between i j f = true := fun h => hf ((between_iff i j f).1 h)
      rw [if_neg hf, List.find?_cons_of_neg hbetween, ih, List.find?_cons_of_neg hbetween]

theorem find?_addSymbolTo_other {i j k l : Nat} (h : (i, j) ≠ (k, l)) (x : Symbol) (edges : List Edge) :
    (addSymbolTo i j x edges).find? (between k l) = edges.find? (between k l) := by
  have hother {e : Edge} (he : e.ends = (i, j)) : ¬ between k l e = true := fun hkl =>
    h (he.symm.trans ((between_iff k l e).1 hkl))
  induction edges with
  | nil => exact List.find?_cons_of_neg (hother rfl)
  | cons f edges ih =>
    rw [addSymbolTo_cons]
    by_cases hf : f.ends = (i, j)
    · rw [if_pos hf, List.find?_cons_of_neg (hother rfl), List.find?_cons_of_neg (hother hf)]
    · rw [if_neg hf, List.find?_cons, List.find?_cons, ih]

theorem symbolsAt_addSymbol_self (g : Graph) (i j : Nat) (x : Symbol) :
    (g.addSymbol i j x).symbolsAt i j = noted x (g.symbolsAt i j) := by
  have hfind := find?_addSymbolTo_self i j x g.edges
  rw [symbolsAt, edge?, addSymbol]
  exact congrArg (fun found => (found.map Edge.symbols).getD []) hfind

theorem symbolsAt_addSymbol_other (g : Graph) {i j k l : Nat} (h : (i, j) ≠ (k, l)) (x : Symbol) :
    (g.addSymbol i j x).symbolsAt k l = g.symbolsAt k l :=
  congrArg (fun found => (found.map Edge.symbols).getD []) (find?_addSymbolTo_other h x g.edges)

theorem mem_symbolsAt_iff (g : Graph) (i j : Nat) (x : Symbol) :
    x ∈ g.symbolsAt i j ↔ g.Carries i x j := by
  rw [symbolsAt, Carries]
  cases g.edge? i j <;> simp

theorem length_drawn (g : Graph) : g.drawn.length = (g.edges.map fun e => e.symbols.length).sum := by
  rw [drawn, triples, List.length_flatMap]
  simp only [List.length_map]

end Graph

namespace Editor

def Edit.builds : Edit → Bool
  | .importText _ => false
  | .importSpec _ => false
  | _ => true

def addition? (e : Editor) (edit : Edit) : Option Automaton.Transition :=
  match e.attempt edit, edit with
  | .ok _, .addBetween p r x => some ⟨p, x, r⟩
  | .ok _, .addTransition i j x =>
    match e.labelOf i, e.labelOf j with
    | .ok p, .ok r => some ⟨p, x, r⟩
    | _, _ => none
  | _, _ => none

/-- The transitions that calls add one after the other; those that fail add none. -/
def additions (e : Editor) : List Edit → List Automaton.Transition
  | [] => []
  | edit :: edits => (e.addition? edit).toList ++ additions (e.perform edit) edits

end Editor

def symbolsBetween (ts : List Automaton.Transition) (p r : String) : List Symbol :=
  ((ts.filter fun t => t.source = p ∧ t.destination = r).map Automaton.Transition.symbol).eraseDups

theorem mem_symbolsBetween (ts : List Automaton.Transition) (p r : String) (x : Symbol) :
    x ∈ symbolsBetween ts p r ↔ ⟨p, x, r⟩ ∈ ts := by
  rw [symbolsBetween, List.mem_eraseDups, List.mem_map]
  constructor
  · rintro ⟨⟨source, y, destination⟩, ht, rfl⟩
    obtain ⟨hmem, hends⟩ := List.mem_filter.1 ht
    obtain ⟨rfl, rfl⟩ := of_decide_eq_true hends
    exact hmem
  · intro ht
    exact ⟨_, List.mem_filter.2 ⟨ht, by simp⟩, rfl⟩

theorem symbolsBetween_concat_self (ts : List Automaton.Transition) (p r : String) (x : Symbol) :
    symbolsBetween (ts ++ [⟨p, x, r⟩]) p r = noted x (symbolsBetween ts p r) := by
  rw [symbolsBetween, List.filter_append, List.map_append, List.filter_cons_of_pos (by simp)]
  exact eraseDups_concat _ x

theorem symbolsBetween_concat_other {p r q s : String} (h : (p, r) ≠ (q, s))
    (ts : List Automaton.Transition) (x : Symbol) :
    symbolsBetween (ts ++ [⟨p, x, r⟩]) q s = symbolsBetween ts q s := by
  have hother : ¬ (p = q ∧ r = s) := fun heq => h (Prod.ext heq.1 heq.2)
  rw [symbolsBetween, List.filter_append, List.filter_cons_of_neg (by simpa using hother), List.filter_nil,
    List.append_nil, symbolsBetween]

theorem Automaton.mem_transitions_addState {a b : Automaton} {state : String} {accepting : Bool}
    (h : a.Consistent) (hb : a.addState state accepting = .ok b) (t : Transition) :
    t ∈ b.transitions ↔ t ∈ a.transitions := by
  have hiff := hasTransition_addState h hb t.source t.symbol t.destination
  rwa [← mem_transitions, ← mem_transitions] at hiff

theorem Automaton.transitionCount_addState {a b : Automaton} {state : String} {accepting : Bool}
    (h : a.Consistent) (hb : a.addState state accepting = .ok b) :
    b.transitionCount = a.transitionCount :=
  ((List.perm_ext_iff_of_nodup b.nodup_transitions a.nodup_transitions).2
    (mem_transitions_addState h hb)).length_eq

theorem Graph.Shows.addNode {g : Graph} {id : Nat} {state : String} (h : g.Shows id state) (node : Node) :
    (g.addNode node).Shows id state := by
  obtain ⟨shown, hmem, hshown⟩ := h
  exact ⟨shown, List.mem_append_left _ hmem, hshown⟩

namespace Editor
variable {e f : Editor} {ts : List Automaton.Transition}

theorem Invariant.mem_transitions_of_mem_symbolsAt (h : e.Invariant) {i j : Nat} {p r : String}
    (hi : e.graph.Shows i p) (hj : e.graph.Shows j r) {x : Symbol} (hx : x ∈ e.graph.symbolsAt i j) :
    ⟨p, x, r⟩ ∈ e.automaton.transitions := by
  have hdrawn := Graph.mem_drawn_of_carries ((Graph.mem_symbolsAt_iff _ i j x).1 hx)
  obtain ⟨p', r', hp, hr, ht⟩ := (h.mem_drawn_iff i x j).1 hdrawn
  obtain rfl := Graph.Shows.state_unique h.nodes_eq hp hi
  obtain rfl := Graph.Shows.state_unique h.nodes_eq hr hj
  exact (e.automaton.mem_transitions p' x r').2 ht

/-- What holds of an editor once calls have added these transitions. -/
structure Grouped (e : Editor) (ts : List Automaton.Transition) : Prop where
  invariant : e.Invariant
  nodup_ends : (e.graph.edges.map Edge.ends).Nodup
  mem_transitions_iff : ∀ t, t ∈ e.automaton.transitions ↔ t ∈ ts
  symbolsAt_eq : ∀ i j p r, e.graph.Shows i p → e.graph.Shows j r →
    e.graph.symbolsAt i j = symbolsBetween ts p r
  length_drawn : e.graph.drawn.length = e.automaton.transitionCount

theorem grouped_new : Editor.new.Grouped [] where
  invariant := invariant_ofAutomaton Automaton.wellFormed_new
  nodup_ends := List.nodup_nil
  mem_transitions_iff _ := Iff.rfl
  symbolsAt_eq _ _ _ _ _ _ := rfl
  length_drawn := rfl

namespace Grouped

theorem mem_symbolsBetween_iff (h : e.Grouped ts) (p r : String) (x : Symbol) :
    x ∈ symbolsBetween ts p r ↔ e.automaton.HasTransition p x r := by
  rw [mem_symbolsBetween, ← h.mem_transitions_iff, Automaton.mem_transitions]

theorem carries_iff (h : e.Grouped ts) {i j : Nat} {p r : String} (hi : e.graph.Shows i p)
    (hj : e.graph.Shows j r) (x : Symbol) : e.graph.Carries i x j ↔ e.automaton.HasTransition p x r := by
  rw [← Graph.mem_symbolsAt_iff, h.symbolsAt_eq i j p r hi hj, h.mem_symbolsBetween_iff]

theorem insertTransition (h : e.Grouped ts) {i j : Nat} {p r : String} (hi : e.graph.Shows i p)
    (hj : e.graph.Shows j r) (x : Symbol) :
    Grouped ⟨e.automaton.insertTransition p x r, e.graph.addSymbol i j x⟩ (ts ++ [⟨p, x, r⟩]) where
  invariant := h.invariant.insertTransition hi hj x
  nodup_ends := Graph.nodup_ends_addSymbol h.nodup_ends i j x
  mem_transitions_iff t := by
    have hinserted := e.automaton.mem_transitions_insertTransition ⟨p, x, r⟩ t
    rw [hinserted, h.mem_transitions_iff, List.mem_append, List.mem_singleton]
  symbolsAt_eq k l q s hk hl := by
    have hk' : e.graph.Shows k q := hk
    have hl' : e.graph.Shows l s := hl
    have hnodes := h.invariant.nodes_eq
    -- a number and a state tell each other, so these are the same states just where these are the same nodes
    by_cases hsame : (p, r) = (q, s)
    · obtain ⟨rfl, rfl⟩ := Prod.mk.inj hsame
      obtain rfl := Graph.Shows.id_unique hnodes hi hk'
      obtain rfl := Graph.Shows.id_unique hnodes hj hl'
      rw [Graph.symbolsAt_addSymbol_self, h.symbolsAt_eq i j p r hi hj, symbolsBetween_concat_self]
    · have hother : (i, j) ≠ (k, l) := by
        intro heq
        obtain ⟨rfl, rfl⟩ := Prod.mk.inj heq
        have hp := Graph.Shows.state_unique hnodes hi hk'
        have hr := Graph.Shows.state_unique hnodes hj hl'
        exact hsame (Prod.ext hp hr)
      rw [Graph.symbolsAt_addSymbol_other _ hother, h.symbolsAt_eq k l q s hk' hl',
        symbolsBetween_concat_other hsame]
  length_drawn := by
    rw [Automaton.transitionCount_insertTransition]
    by_cases ht : e.automaton.HasTransition p x r
    · rw [Graph.addSymbol_of_carries ((h.carries_iff hi hj x).2 ht), if_pos ht]
      exact h.length_drawn
    · have hnew : ¬ e.graph.Carries i x j := fun hcarries => ht ((h.carries_iff hi hj x).1 hcarries)
      rw [(Graph.drawn_addSymbol_perm hnew).length_eq, List.length_cons, if_neg ht, h.length_drawn]

theorem addState (h : e.Grouped ts) {accepting : Bool} {state : String}
    (hf : e.addState accepting = .ok (state, f)) : f.Grouped ts := by
  have hinv : f.Invariant := h.invariant.addState hf
  obtain ⟨suffix, b, _, _, hb, rfl⟩ := of_addState hf
  have hwell := h.invariant.wellFormed
  have hmem := Automaton.mem_transitions_addState hwell.toConsistent hb
  refine ⟨hinv, h.nodup_ends, fun t => (hmem t).trans (h.mem_transitions_iff t), ?_, ?_⟩
  · intro k l q s hk hl
    have hshown := Graph.exists_shows_iff h.invariant.nodes_eq hwell.initial_mem
    by_cases hstates : q ∈ e.automaton.states ∧ s ∈ e.automaton.states
    · obtain ⟨k', hk'⟩ := (hshown q).2 hstates.1
      obtain ⟨l', hl'⟩ := (hshown s).2 hstates.2
      obtain rfl := Graph.Shows.id_unique hinv.nodes_eq (hk'.addNode _) hk
      obtain rfl := Graph.Shows.id_unique hinv.nodes_eq (hl'.addNode _) hl
      exact h.symbolsAt_eq k' l' q s hk' hl'
    · -- no transition leads to or from the new state, nor has one been added
      have hnone (x : Symbol) : ⟨q, x, s⟩ ∉ e.automaton.transitions := fun hold => by
        have ht := (e.automaton.mem_transitions q x s).1 hold
        exact hstates ⟨hwell.source_mem_of_hasTransition ht, hwell.destination_mem q x s ht⟩
      have hbetween : symbolsBetween ts q s = [] := List.eq_nil_iff_forall_not_mem.2 fun x hx =>
        hnone x ((h.mem_transitions_iff _).2 ((mem_symbolsBetween ts q s x).1 hx))
      rw [hbetween]
      exact List.eq_nil_iff_forall_not_mem.2 fun x hx =>
        hnone x ((hmem _).1 (hinv.mem_transitions_of_mem_symbolsAt hk hl hx))
  · rw [Automaton.transitionCount_addState hwell.toConsistent hb]
    exact h.length_drawn

theorem attempt (h : e.Grouped ts) {edit : Edit} (hedit : edit.builds = true)
    (hf : e.attempt edit = .ok f) : f.Grouped (ts ++ (e.addition? edit).toList) := by
  have hlabel := h.invariant.labelOf_eq_ok_iff
  cases edit with
  | addState accepting =>
    obtain ⟨⟨state, f⟩, hstate, rfl⟩ := (map_eq_ok_iff _ _ _).1 hf
    have hnone : e.addition? (.addState accepting) = none := by simp [addition?]
    rw [hnone, Option.toList_none, List.append_nil]
    exact h.addState hstate
  | addTransition i j x =>
    obtain ⟨p, r, hi, hj, rfl⟩ := h.invariant.of_addTransition hf
    have hsome : e.addition? (.addTransition i j x) = some ⟨p, x, r⟩ := by
      simp only [addition?, hf, (hlabel i p).2 hi, (hlabel j r).2 hj]
    rw [hsome]
    exact h.insertTransition hi hj x
  | addBetween p r x =>
    obtain ⟨i, j, hi, hj, hij⟩ := of_addBetween hf
    rw [h.invariant.idOf_eq_ok_iff] at hi hj
    rw [h.invariant.addTransition_eq_ok hi hj] at hij
    obtain rfl := Except.ok.inj hij
    have hsome : e.addition? (.addBetween p r x) = some ⟨p, x, r⟩ := by simp only [addition?, hf]
    rw [hsome]
    exact h.insertTransition hi hj x
  | importText text => cases hedit
  | importSpec s => cases hedit

theorem perform (h : e.Grouped ts) {edit : Edit} (hedit : edit.builds = true) :
    (e.perform edit).Grouped (ts ++ (e.addition? edit).toList) := by
  unfold Editor.perform
  cases hf : e.attempt edit with
  | ok f => exact h.attempt hedit hf
  | error error =>
    have hnone : e.addition? edit = none := by simp only [addition?, hf]
    rw [hnone, Option.toList_none, List.append_nil]
    exact h

theorem foldl_perform (h : e.Grouped ts) {edits : List Edit}
    (hedits : ∀ edit ∈ edits, edit.builds = true) :
    (edits.foldl Editor.perform e).Grouped (ts ++ e.additions edits) := by
  induction edits generalizing e ts with
  | nil =>
    rw [additions, List.append_nil]
    exact h
  | cons edit edits ih =>
    have hstep := h.perform (hedits edit List.mem_cons_self)
    rw [additions, ← List.append_assoc]
    exact ih hstep fun later hlater => hedits later (List.mem_cons_of_mem edit hlater)

end Grouped

/-- How the edges group the transitions of an editor to which these have been added. -/
structure OneEdgePerPair (e : Editor) (ts : List Automaton.Transition) : Prop where
  nodup_ends : (e.graph.edges.map fun edge => (edge.source, edge.target)).Nodup
  nodup_symbols : ∀ edge ∈ e.graph.edges, edge.symbols.Nodup
  joined : ∀ p ∈ e.automaton.states, ∀ r ∈ e.automaton.states,
    ∃ i j, e.idOf p = .ok i ∧ e.idOf r = .ok j ∧
      ((e.graph.edge? i j).isSome = true ↔ ∃ x, e.automaton.HasTransition p x r) ∧
      ∀ edge, e.graph.edge? i j = some edge →
        (∀ x, x ∈ edge.symbols ↔ e.automaton.HasTransition p x r) ∧ edge.symbols = symbolsBetween ts p r
  sum_symbols : (e.graph.edges.map fun edge => edge.symbols.length).sum = e.automaton.transitionCount

namespace Grouped

theorem symbols_eq (h : e.Grouped ts) {i j : Nat} {p r : String} (hi : e.graph.Shows i p)
    (hj : e.graph.Shows j r) {edge : Edge} (hedge : e.graph.edge? i j = some edge) :
    edge.symbols = symbolsBetween ts p r := by
  rw [← h.symbolsAt_eq i j p r hi hj, Graph.symbolsAt, hedge]
  rfl

theorem isSome_edge?_iff (h : e.Grouped ts) {i j : Nat} {p r : String} (hi : e.graph.Shows i p)
    (hj : e.graph.Shows j r) :
    (e.graph.edge? i j).isSome = true ↔ ∃ x, e.automaton.HasTransition p x r := by
  constructor
  · intro hsome
    obtain ⟨edge, hedge⟩ := Option.isSome_iff_exists.1 hsome
    have hne := h.invariant.symbols_ne_nil edge (List.mem_of_find?_eq_some hedge)
    obtain ⟨x, hx⟩ := List.exists_mem_of_ne_nil _ hne
    exact ⟨x, (h.carries_iff hi hj x).1 ⟨edge, hedge, hx⟩⟩
  · rintro ⟨x, ht⟩
    obtain ⟨edge, hedge, _⟩ := (h.carries_iff hi hj x).2 ht
    exact Option.isSome_iff_exists.2 ⟨edge, hedge⟩

theorem oneEdgePerPair (h : e.Grouped ts) : e.OneEdgePerPair ts where
  nodup_ends := h.nodup_ends
  nodup_symbols edge hedge := by
    obtain ⟨p, r, hp, hr⟩ := h.invariant.ends_shown hedge
    have hfound : e.graph.edge? edge.source edge.target = some edge :=
      (Graph.edge?_eq_some_iff_of_nodup h.nodup_ends _ _ _).2 ⟨hedge, rfl⟩
    rw [h.symbols_eq hp hr hfound]
    exact Table.nodup_eraseDups _
  joined p hp r hr := by
    have hshown := Graph.exists_shows_iff h.invariant.nodes_eq h.invariant.wellFormed.initial_mem
    obtain ⟨i, hi⟩ := (hshown p).2 hp
    obtain ⟨j, hj⟩ := (hshown r).2 hr
    have hid := h.invariant.idOf_eq_ok_iff
    refine ⟨i, j, (hid p i).2 hi, (hid r j).2 hj, h.isSome_edge?_iff hi hj, ?_⟩
    intro edge hedge
    have hsymbols := h.symbols_eq hi hj hedge
    refine ⟨fun x => ?_, hsymbols⟩
    rw [hsymbols]
    exact h.mem_symbolsBetween_iff p r x
  sum_symbols := by
    rw [← Graph.length_drawn]
    exact h.length_drawn

end Grouped

/-- An editor that is built call by call from a new one groups its transitions by the states they join. -/
theorem oneEdgePerPair_of_builds (edits : List Edit) (h : ∀ edit ∈ edits, edit.builds = true) :
    (edits.foldl perform .new).OneEdgePerPair (additions .new edits) :=
  (grouped_new.foldl_perform h).oneEdgePerPair

def strokes : List Edit :=
  [.addState true, .addTransition 1 2 (.ofKey "1"), .addTransition 1 9 .epsilon,
    .addBetween "q0" "q2" (.ofKey "0"), .addTransition 1 2 (.ofKey "1"), .addBetween "q2" "q0" .epsilon,
    .addTransition 1 2 .epsilon]

theorem oneEdgePerPair_strokes :
    (∀ edit ∈ strokes, edit.builds = true) ∧
      additions .new strokes = [⟨"q0", .ofKey "1", "q2"⟩, ⟨"q0", .ofKey "0", "q2"⟩, ⟨"q0", .ofKey "1", "q2"⟩,
        ⟨"q2", .epsilon, "q0"⟩, ⟨"q0", .epsilon, "q2"⟩] ∧
      (strokes.foldl perform .new).graph.edges =
        [⟨1, 2, [.ofKey "1", .ofKey "0", .epsilon]⟩, ⟨2, 1, [.epsilon]⟩] ∧
      (strokes.foldl perform .new).OneEdgePerPair (additions .new strokes) := by
  have hbuilds : ∀ edit ∈ strokes, edit.builds = true := by decide
  exact ⟨hbuilds, by decide +kernel, by decide +kernel, oneEdgePerPair_of_builds strokes hbuilds⟩

end Editor
end EpsilonAutomata
