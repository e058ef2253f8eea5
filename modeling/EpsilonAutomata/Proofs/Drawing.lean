import EpsilonAutomata.Editor
import EpsilonAutomata.Proofs.Edit
import Mathlib.Data.List.Nodup
import Mathlib.Data.List.Perm.Subperm

/-! What a drawing shows. Its nodes tie numbers and states together one to one, and its edges show
triples of a node, a symbol and a node. However the symbols are spread over the edges, adding one shows
one more triple; it starts an edge of its own only between nodes that had none. -/

namespace EpsilonAutomata

theorem find?_eq_some_iff_of_nodup {α β : Type} [BEq β] [LawfulBEq β] {f : α → β} {l : List α}
    (h : (l.map f).Nodup) (b : β) (a : α) :
    l.find? (fun a => f a == b) = some a ↔ a ∈ l ∧ f a = b := by
  constructor
  · intro hfind
    exact ⟨List.mem_of_find?_eq_some hfind, by simpa using List.find?_some hfind⟩
  · rintro ⟨ha, rfl⟩
    have hsome : (l.find? fun c => f c == f a).isSome = true :=
      List.find?_isSome.2 ⟨a, ha, by simp⟩
    obtain ⟨c, hc⟩ := Option.isSome_iff_exists.1 hsome
    have hca : f c = f a := by simpa using List.find?_some hc
    rw [hc, List.inj_on_of_nodup_map h (List.mem_of_find?_eq_some hc) ha hca]

theorem OrderedMap.nodup_flatMap_entries {κ ν γ : Type} (m : OrderedMap κ ν) {f : κ × ν → List γ}
    (key : γ → κ) (hkey : ∀ e, ∀ t ∈ f e, key t = e.1) (hf : ∀ e, (f e).Nodup) :
    (m.entries.flatMap f).Nodup := by
  refine List.nodup_flatMap.2 ⟨fun e _ => hf e, (List.pairwise_map.1 m.nodup).imp ?_⟩
  intro e e' hne t ht ht'
  exact hne ((hkey e t ht).symm.trans (hkey e' t ht'))

theorem Automaton.nodup_transitions (a : Automaton) : a.transitions.Nodup := by
  apply a.delta.nodup_flatMap_entries Transition.source
  · rintro ⟨p, row⟩ t ht
    obtain ⟨⟨x, s⟩, _, ht⟩ := List.mem_flatMap.1 ht
    obtain ⟨r, _, rfl⟩ := List.mem_map.1 ht
    rfl
  · rintro ⟨p, row⟩
    apply row.nodup_flatMap_entries Transition.symbol
    · rintro ⟨x, s⟩ t ht
      obtain ⟨r, _, rfl⟩ := List.mem_map.1 ht
      rfl
    · rintro ⟨x, s⟩
      exact s.nodup.map fun r r' h => by injection h

namespace Graph
variable {a : Automaton} {g : Graph}

/-- The states in the order of the nodes that show them. -/
def labelsOf (a : Automaton) : List String := a.initial :: a.states.toList.filter (· ≠ a.initial)

theorem nodup_labelsOf (a : Automaton) : (labelsOf a).Nodup := by
  refine List.nodup_cons.2 ⟨?_, a.states.nodup.filter _⟩
  simp

theorem mem_labelsOf (h : a.initial ∈ a.states) (s : String) : s ∈ labelsOf a ↔ s ∈ a.states := by
  rw [labelsOf, List.mem_cons, List.mem_filter, OrderedSet.mem_toList]
  by_cases hs : s = a.initial
  · simp [hs, h]
  · simp [hs]

theorem length_labelsOf (h : a.initial ∈ a.states) : (labelsOf a).length = a.states.size :=
  ((List.perm_ext_iff_of_nodup (nodup_labelsOf a) a.states.nodup).2 (mem_labelsOf h)).length_eq

theorem labelsOf_of_initial_first {rest : List String} (h : a.states.toList = a.initial :: rest) :
    labelsOf a = a.initial :: rest := by
  have hnodup := a.states.nodup
  rw [h, List.nodup_cons] at hnodup
  have hrest : rest.filter (· ≠ a.initial) = rest :=
    List.filter_eq_self.2 fun s hs => decide_eq_true fun heq => hnodup.1 (heq ▸ hs)
  rw [labelsOf, h, List.filter_cons_of_neg (by simp), hrest]

theorem nodesOf_eq (a : Automaton) : nodesOf a =
    (labelsOf a).mapIdx fun i label => ⟨firstId + i, label, a.isAccepting label⟩ := rfl

theorem map_label_nodesOf (a : Automaton) : (nodesOf a).map Node.label = labelsOf a := by
  rw [nodesOf_eq]
  apply List.ext_getElem <;> simp

theorem map_id_nodesOf (a : Automaton) :
    (nodesOf a).map Node.id = List.range' firstId (labelsOf a).length := by
  rw [nodesOf_eq]
  apply List.ext_getElem <;> simp

theorem accepting_of_mem_nodesOf {node : Node} (h : node ∈ nodesOf a) :
    node.accepting = a.isAccepting node.label := by
  obtain ⟨i, _, rfl⟩ := List.mem_mapIdx.1 h
  rfl

theorem labelsOf_addState {b : Automaton} {state : String} {accepting : Bool} (h : a.WellFormed)
    (hb : a.addState state accepting = .ok b) : labelsOf b = labelsOf a ++ [state] := by
  obtain ⟨hfresh, rfl⟩ := (Automaton.addState_eq_ok_iff state accepting).1 hb
  have hne : state ≠ a.initial := fun heq => hfresh (heq ▸ h.initial_mem)
  rw [labelsOf, OrderedSet.toList_insert_of_not_mem _ hfresh]
  simp [labelsOf, hne]

theorem nodesOf_addState {b : Automaton} {state : String} {accepting : Bool} (h : a.WellFormed)
    (hb : a.addState state accepting = .ok b) :
    nodesOf b = nodesOf a ++ [⟨firstId + a.states.size, state, accepting⟩] := by
  have haccepting := Automaton.isAccepting_addState h.toConsistent hb
  have hfresh := ((Automaton.addState_eq_ok_iff state accepting).1 hb).1
  rw [nodesOf_eq, labelsOf_addState h hb, List.mapIdx_concat, nodesOf_eq, length_labelsOf h.initial_mem]
  congr 1
  · rw [List.mapIdx_eq_mapIdx_iff]
    intro i hi
    have hold : (labelsOf a)[i] ≠ state := by
      intro heq
      exact hfresh ((mem_labelsOf h.initial_mem state).1 (heq ▸ List.getElem_mem hi))
    rw [haccepting, if_neg hold]
  · rw [haccepting, if_pos rfl]

theorem nextId_of_ids {n : Nat} (h : g.nodes.map Node.id = List.range' firstId n) :
    g.nextId = firstId + n := by
  rw [nextId, h]
  cases n with
  | zero => rfl
  | succ n =>
    have hmax : (List.range' firstId (n + 1)).max? = some (firstId + n) := by
      rw [List.max?_eq_some_iff]
      simp only [List.mem_range'_1]
      exact ⟨by omega, fun b hb => by omega⟩
    rw [hmax]
    rfl

/-- The node with this number shows this state. -/
def Shows (g : Graph) (id : Nat) (state : String) : Prop :=
  ∃ node ∈ g.nodes, node.id = id ∧ node.label = state

section Nodes
variable (hg : g.nodes = nodesOf a)
include hg

theorem shows_iff_getElem? (id : Nat) (s : String) :
    g.Shows id s ↔ ∃ i, firstId + i = id ∧ (labelsOf a)[i]? = some s := by
  rw [Shows, hg, nodesOf_eq]
  constructor
  · rintro ⟨node, hnode, rfl, rfl⟩
    obtain ⟨i, hi, rfl⟩ := List.mem_mapIdx.1 hnode
    exact ⟨i, rfl, List.getElem?_eq_getElem hi⟩
  · rintro ⟨i, rfl, hs⟩
    obtain ⟨hi, rfl⟩ := List.getElem?_eq_some_iff.1 hs
    exact ⟨_, List.mem_mapIdx.2 ⟨i, hi, rfl⟩, rfl, rfl⟩

theorem nodup_ids : (g.nodes.map Node.id).Nodup := by
  rw [hg, map_id_nodesOf]
  exact List.nodup_range'

theorem nodup_labels : (g.nodes.map Node.label).Nodup := by
  rw [hg, map_label_nodesOf]
  exact nodup_labelsOf a

theorem shows_iff_node? (id : Nat) (s : String) :
    g.Shows id s ↔ ∃ node, g.node? id = some node ∧ node.label = s := by
  simp only [node?, find?_eq_some_iff_of_nodup (nodup_ids hg), Shows]
  constructor
  · rintro ⟨node, hmem, hid, hlabel⟩
    exact ⟨node, ⟨hmem, hid⟩, hlabel⟩
  · rintro ⟨node, ⟨hmem, hid⟩, hlabel⟩
    exact ⟨node, hmem, hid, hlabel⟩

theorem shows_iff_nodeOf? (id : Nat) (s : String) :
    g.Shows id s ↔ ∃ node, g.nodeOf? s = some node ∧ node.id = id := by
  simp only [nodeOf?, find?_eq_some_iff_of_nodup (nodup_labels hg), Shows]
  constructor
  · rintro ⟨node, hmem, hid, hlabel⟩
    exact ⟨node, ⟨hmem, hlabel⟩, hid⟩
  · rintro ⟨node, ⟨hmem, hlabel⟩, hid⟩
    exact ⟨node, hmem, hid, hlabel⟩

theorem Shows.state_unique {id : Nat} {s t : String} (hs : g.Shows id s) (ht : g.Shows id t) : s = t := by
  obtain ⟨node, hnode, rfl⟩ := (shows_iff_node? hg id s).1 hs
  obtain ⟨node', hnode', rfl⟩ := (shows_iff_node? hg id t).1 ht
  rw [Option.some.inj (hnode.symm.trans hnode')]

theorem Shows.id_unique {i j : Nat} {s : String} (hi : g.Shows i s) (hj : g.Shows j s) : i = j := by
  obtain ⟨node, hnode, rfl⟩ := (shows_iff_nodeOf? hg i s).1 hi
  obtain ⟨node', hnode', rfl⟩ := (shows_iff_nodeOf? hg j s).1 hj
  rw [Option.some.inj (hnode.symm.trans hnode')]

theorem exists_shows_iff (h : a.initial ∈ a.states) (s : String) :
    (∃ id, g.Shows id s) ↔ s ∈ a.states := by
  rw [← mem_labelsOf h, ← map_label_nodesOf, ← hg, List.mem_map]
  constructor
  · rintro ⟨_, node, hmem, _, hlabel⟩
    exact ⟨node, hmem, hlabel⟩
  · rintro ⟨node, hmem, hlabel⟩
    exact ⟨node.id, node, hmem, rfl, hlabel⟩

end Nodes

def between (source target : Nat) (e : Edge) : Bool := e.source == source && e.target == target

def triples (edges : List Edge) : List (Nat × Symbol × Nat) :=
  edges.flatMap fun e => e.symbols.map fun x => (e.source, x, e.target)

def drawn (g : Graph) : List (Nat × Symbol × Nat) := triples g.edges

/-- The first edge between the nodes carries the symbol. -/
def Carries (g : Graph) (source : Nat) (x : Symbol) (target : Nat) : Prop :=
  ∃ e, g.edge? source target = some e ∧ x ∈ e.symbols

theorem mem_triples (edges : List Edge) (i : Nat) (x : Symbol) (j : Nat) :
    (i, x, j) ∈ triples edges ↔ ∃ e ∈ edges, e.source = i ∧ e.target = j ∧ x ∈ e.symbols := by
  simp only [triples, List.mem_flatMap, List.mem_map, Prod.mk.injEq]
  constructor
  · rintro ⟨e, he, y, hy, rfl, rfl, rfl⟩
    exact ⟨e, he, rfl, rfl, hy⟩
  · rintro ⟨e, he, rfl, rfl, hx⟩
    exact ⟨e, he, x, hx, rfl, rfl, rfl⟩

theorem addSymbolTo_of_mem {source target : Nat} {x : Symbol} {edges : List Edge} {e : Edge}
    (he : edges.find? (between source target) = some e) (hx : x ∈ e.symbols) :
    addSymbolTo source target x edges = edges := by
  induction edges with
  | nil => cases he
  | cons f edges ih =>
    rw [addSymbolTo]
    by_cases hf : f.source = source ∧ f.target = target
    · rw [List.find?_cons_of_pos (by simp [between, hf])] at he
      obtain rfl := Option.some.inj he
      rw [if_pos hf, if_pos hx]
    · rw [List.find?_cons_of_neg (by simpa [between] using hf)] at he
      rw [if_neg hf, ih he]

theorem addSymbol_of_carries {source target : Nat} {x : Symbol} (h : g.Carries source x target) :
    g.addSymbol source target x = g := by
  obtain ⟨e, he, hx⟩ := h
  rw [addSymbol, addSymbolTo_of_mem he hx]

theorem triples_addSymbolTo_perm {source target : Nat} {x : Symbol} {edges : List Edge}
    (h : ∀ e, edges.find? (between source target) = some e → x ∉ e.symbols) :
    (triples (addSymbolTo source target x edges)).Perm ((source, x, target) :: triples edges) := by
  induction edges with
  | nil => rfl
  | cons f edges ih =>
    rw [addSymbolTo]
    by_cases hf : f.source = source ∧ f.target = target
    · have hx : x ∉ f.symbols := h f (List.find?_cons_of_pos (by simp [between, hf]))
      obtain ⟨rfl, rfl⟩ := hf
      simp only [and_self, if_true, if_neg hx, triples, List.flatMap_cons, List.map_append, List.map_cons,
        List.map_nil, List.append_assoc, List.singleton_append]
      exact List.perm_middle
    · rw [List.find?_cons_of_neg (by simpa [between] using hf)] at h
      rw [if_neg hf]
      simp only [triples, List.flatMap_cons]
      exact ((ih h).append_left _).trans List.perm_middle

theorem drawn_addSymbol_perm {source target : Nat} {x : Symbol} (h : ¬ g.Carries source x target) :
    (g.addSymbol source target x).drawn.Perm ((source, x, target) :: g.drawn) :=
  triples_addSymbolTo_perm fun e he hx => h ⟨e, he, hx⟩

theorem mem_drawn_of_carries {source target : Nat} {x : Symbol} (h : g.Carries source x target) :
    (source, x, target) ∈ g.drawn := by
  obtain ⟨e, he, hx⟩ := h
  have hbetween : e.source = source ∧ e.target = target := by
    simpa [between] using List.find?_some he
  exact (mem_triples _ _ _ _).2 ⟨e, List.mem_of_find?_eq_some he, hbetween.1, hbetween.2, hx⟩

theorem mem_drawn_addSymbol (g : Graph) (source target : Nat) (x : Symbol) (t : Nat × Symbol × Nat) :
    t ∈ (g.addSymbol source target x).drawn ↔ t = (source, x, target) ∨ t ∈ g.drawn := by
  by_cases h : g.Carries source x target
  · rw [addSymbol_of_carries h]
    exact ⟨.inr, fun ht => ht.elim (fun heq => heq ▸ mem_drawn_of_carries h) id⟩
  · rw [(drawn_addSymbol_perm h).mem_iff, List.mem_cons]

end Graph

/-- The triple that an edge shows first. -/
def Edge.opening (e : Edge) : Nat × Option Symbol × Nat := (e.source, e.symbols.head?, e.target)

namespace Graph
variable {a : Automaton} {g : Graph}

theorem map_opening_addSymbolTo (source target : Nat) (x : Symbol) (edges : List Edge)
    (h : ∀ e ∈ edges, e.symbols ≠ []) :
    (addSymbolTo source target x edges).map Edge.opening =
      edges.map Edge.opening ++
        if (edges.find? (between source target)).isSome then [] else [(source, some x, target)] := by
  induction edges with
  | nil => rfl
  | cons f edges ih =>
    rw [addSymbolTo]
    by_cases hf : f.source = source ∧ f.target = target
    · have hne : f.symbols ≠ [] := h f List.mem_cons_self
      rw [if_pos hf, List.find?_cons_of_pos (by simp [between, hf])]
      -- a symbol that joins the others stands behind them
      split
      · simp
      · obtain ⟨y, ys, hys⟩ := List.exists_cons_of_ne_nil hne
        simp [Edge.opening, hys]
    · rw [if_neg hf, List.find?_cons_of_neg (by simpa [between] using hf), List.map_cons, List.map_cons,
        ih fun e he => h e (List.mem_cons_of_mem f he), List.cons_append]

theorem symbols_ne_nil_addSymbolTo (source target : Nat) (x : Symbol) (edges : List Edge)
    (h : ∀ e ∈ edges, e.symbols ≠ []) : ∀ e ∈ addSymbolTo source target x edges, e.symbols ≠ [] := by
  induction edges with
  | nil => simp [addSymbolTo]
  | cons f edges ih =>
    have hrest : ∀ e ∈ edges, e.symbols ≠ [] := fun e he => h e (List.mem_cons_of_mem f he)
    rw [addSymbolTo]
    split
    · refine List.forall_mem_cons.2 ⟨?_, hrest⟩
      split
      · exact h f List.mem_cons_self
      · simp
    · exact List.forall_mem_cons.2 ⟨h f List.mem_cons_self, ih hrest⟩

theorem edgeOf?_eq_some_iff (hg : g.nodes = nodesOf a) (t : Automaton.Transition) (e : Edge) :
    edgeOf? g.nodes t = some e ↔
      g.Shows e.source t.source ∧ g.Shows e.target t.destination ∧ e.symbols = [t.symbol] := by
  rw [shows_iff_nodeOf? hg, shows_iff_nodeOf? hg]
  simp only [edgeOf?, nodeOf?, Option.bind_eq_bind, Option.bind_eq_some_iff, Option.pure_def,
    Option.some.injEq]
  constructor
  · rintro ⟨source, hsource, target, htarget, rfl⟩
    exact ⟨⟨source, hsource, rfl⟩, ⟨target, htarget, rfl⟩, rfl⟩
  · rintro ⟨⟨source, hsource, hs⟩, ⟨target, htarget, ht⟩, hsymbols⟩
    refine ⟨source, hsource, target, htarget, ?_⟩
    rw [hs, ht, ← hsymbols]

theorem mem_edges_ofAutomaton (e : Edge) :
    e ∈ (ofAutomaton a).edges ↔
      ∃ t ∈ a.transitions, (ofAutomaton a).Shows e.source t.source ∧
        (ofAutomaton a).Shows e.target t.destination ∧ e.symbols = [t.symbol] := by
  have hedge (t : Automaton.Transition) := edgeOf?_eq_some_iff (g := ofAutomaton a) (a := a) rfl t e
  simp only [← hedge]
  exact List.mem_filterMap

theorem mem_drawn_ofAutomaton (i : Nat) (x : Symbol) (j : Nat) :
    (i, x, j) ∈ (ofAutomaton a).drawn ↔
      ∃ p r, (ofAutomaton a).Shows i p ∧ (ofAutomaton a).Shows j r ∧ a.HasTransition p x r := by
  simp only [drawn, mem_triples, mem_edges_ofAutomaton]
  constructor
  · rintro ⟨e, ⟨t, ht, hp, hr, hsymbols⟩, rfl, rfl, hx⟩
    rw [hsymbols, List.mem_singleton] at hx
    subst hx
    exact ⟨t.source, t.destination, hp, hr, (a.mem_transitions _ _ _).1 ht⟩
  · rintro ⟨p, r, hp, hr, ht⟩
    exact ⟨⟨i, j, [x]⟩, ⟨⟨p, x, r⟩, (a.mem_transitions p x r).2 ht, hp, hr, rfl⟩, rfl, rfl,
      List.mem_singleton_self x⟩

theorem nodup_opening_ofAutomaton (a : Automaton) :
    ((ofAutomaton a).edges.map Edge.opening).Nodup := by
  have hg : (ofAutomaton a).nodes = nodesOf a := rfl
  have hmap : (ofAutomaton a).edges.map Edge.opening =
      a.transitions.filterMap fun t => (edgeOf? (ofAutomaton a).nodes t).map Edge.opening :=
    List.map_filterMap
  rw [hmap]
  refine a.nodup_transitions.filterMap fun t t' key ht ht' => ?_
  -- equal openings have equal ends, and a number shows one state only
  obtain ⟨e, he, rfl⟩ := Option.map_eq_some_iff.1 ht
  obtain ⟨e', he', hkey⟩ := Option.map_eq_some_iff.1 ht'
  obtain ⟨hp, hr, hx⟩ := (edgeOf?_eq_some_iff hg t e).1 he
  obtain ⟨hp', hr', hx'⟩ := (edgeOf?_eq_some_iff hg t' e').1 he'
  obtain ⟨hsource, hhead, htarget⟩ : e'.source = e.source ∧ e'.symbols.head? = e.symbols.head? ∧
      e'.target = e.target := by simpa [Edge.opening] using hkey
  rw [hsource] at hp'
  rw [htarget] at hr'
  rw [hx, hx'] at hhead
  have h₁ := Shows.state_unique hg hp hp'
  have h₂ : t'.symbol = t.symbol := by simpa using hhead
  have h₃ := Shows.state_unique hg hr hr'
  cases t
  cases t'
  simp_all

theorem map_triples_of_singletons {edges : List Edge} (h : ∀ e ∈ edges, ∃ x, e.symbols = [x]) :
    (triples edges).map (fun t => (t.1, some t.2.1, t.2.2)) = edges.map Edge.opening := by
  induction edges with
  | nil => rfl
  | cons e edges ih =>
    obtain ⟨x, hx⟩ := h e List.mem_cons_self
    have htail := ih fun f hf => h f (List.mem_cons_of_mem e hf)
    rw [triples] at htail ⊢
    rw [List.flatMap_cons, List.map_append, htail, List.map_cons, hx]
    simp [Edge.opening, hx]

theorem exists_symbols_eq_ofAutomaton (a : Automaton) :
    ∀ e ∈ (ofAutomaton a).edges, ∃ x, e.symbols = [x] := by
  intro e he
  obtain ⟨t, _, _, _, hsymbols⟩ := (mem_edges_ofAutomaton e).1 he
  exact ⟨t.symbol, hsymbols⟩

theorem nodup_drawn_ofAutomaton (a : Automaton) : (ofAutomaton a).drawn.Nodup := by
  have hopening := nodup_opening_ofAutomaton a
  rw [← map_triples_of_singletons (exists_symbols_eq_ofAutomaton a)] at hopening
  exact hopening.of_map _

end Graph
end EpsilonAutomata
