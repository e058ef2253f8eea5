import EpsilonAutomata.Proofs.Grouping

/-! Adding a transition again. The automaton is left as it was, but for epsilon, which joins an alphabet
that lacks it. The drawing keeps its nodes, its edges and what they show; it is left as it was where the
first edge between the two nodes carries the symbol, as it does after every addition: the same addition
twice is the same as once. Nothing is drawn twice as long as no edit puts a symbol on that edge which
another edge between the nodes carries. -/

namespace EpsilonAutomata

theorem Graph.map_opening_addSymbol {g : Graph} (h : ∀ e ∈ g.edges, e.symbols ≠ []) {i j : Nat}
    {x : Symbol} (hdrawn : (i, x, j) ∈ g.drawn) :
    (g.addSymbol i j x).edges.map Edge.opening = g.edges.map Edge.opening := by
  obtain ⟨e, he, hsource, htarget, _⟩ := (mem_triples _ _ _ _).1 hdrawn
  have hfind : (g.edges.find? (between i j)).isSome = true :=
    List.find?_isSome.2 ⟨e, he, by simp [between, hsource, htarget]⟩
  rw [addSymbol, map_opening_addSymbolTo i j x g.edges h, if_pos hfind, List.append_nil]

theorem Graph.carries_addSymbol (g : Graph) (i j : Nat) (x : Symbol) :
    (g.addSymbol i j x).Carries i x j := by
  rw [← mem_symbolsAt_iff, symbolsAt_addSymbol_self, noted]
  split
  · assumption
  · exact List.mem_append_right _ (List.mem_singleton_self x)

theorem Graph.nodup_drawn_addSymbol {g : Graph} (h : g.drawn.Nodup) {i j : Nat} {x : Symbol}
    (hx : ¬ ((i, x, j) ∈ g.drawn ∧ ¬ g.Carries i x j)) : (g.addSymbol i j x).drawn.Nodup := by
  by_cases hcarries : g.Carries i x j
  · rw [addSymbol_of_carries hcarries]
    exact h
  · have hnew : (i, x, j) ∉ g.drawn := fun hmem => hx ⟨hmem, hcarries⟩
    exact (drawn_addSymbol_perm hcarries).nodup_iff.2 (List.nodup_cons.2 ⟨hnew, h⟩)

namespace Editor

/-- The symbol is drawn between the nodes, but not on the first of their edges. -/
def Redraws (e : Editor) : Edit → Prop
  | .addTransition i j x => (i, x, j) ∈ e.graph.drawn ∧ ¬ e.graph.Carries i x j
  | .addBetween p r x => ∃ i j, e.idOf p = .ok i ∧ e.idOf r = .ok j ∧
      (i, x, j) ∈ e.graph.drawn ∧ ¬ e.graph.Carries i x j
  | _ => False

theorem nodup_drawn_ofSpec {s : Spec} {e : Editor} (h : ofSpec s = .ok e) : e.graph.drawn.Nodup := by
  obtain ⟨a, _, rfl⟩ := (map_eq_ok_iff _ _ _).1 h
  exact Graph.nodup_drawn_ofAutomaton a

theorem nodup_drawn_attempt {e f : Editor} {edit : Edit} (he : e.Invariant) (h : e.graph.drawn.Nodup)
    (hedit : ¬ e.Redraws edit) (hf : e.attempt edit = .ok f) : f.graph.drawn.Nodup := by
  cases edit with
  | addState accepting =>
    obtain ⟨⟨state, f⟩, hstate, rfl⟩ := (map_eq_ok_iff _ _ _).1 hf
    obtain ⟨_, b, _, _, _, rfl⟩ := of_addState hstate
    exact h
  | addTransition i j x =>
    obtain ⟨p, r, _, _, rfl⟩ := he.of_addTransition hf
    exact Graph.nodup_drawn_addSymbol h hedit
  | addBetween p r x =>
    obtain ⟨i, j, hi, hj, hij⟩ := of_addBetween hf
    obtain ⟨_, _, _, _, rfl⟩ := he.of_addTransition hij
    exact Graph.nodup_drawn_addSymbol h fun hx => hedit ⟨i, j, hi, hj, hx⟩
  | importText text =>
    obtain ⟨s, hs⟩ := ofSpec_of_read hf
    exact nodup_drawn_ofSpec hs
  | importSpec s => exact nodup_drawn_ofSpec hf

theorem nodup_drawn_of_reached {e : Editor} (h : Reached (fun e edit => ¬ e.Redraws edit) e) :
    e.graph.drawn.Nodup := by
  induction h with
  | new => exact Graph.nodup_drawn_ofAutomaton _
  | read hread =>
    obtain ⟨s, hs⟩ := ofSpec_of_read hread
    exact nodup_drawn_ofSpec hs
  | imported hs => exact nodup_drawn_ofSpec hs
  | converted => exact Graph.nodup_drawn_ofAutomaton _
  | edited hreached hedit ih =>
    unfold perform
    split
    · next hf => exact nodup_drawn_attempt hreached.invariant ih hedit hf
    · exact ih

theorem Invariant.addTransition_idem {e f : Editor} {i j : Nat} {x : Symbol} (h : e.Invariant)
    (hf : e.addTransition i j x = .ok f) : f.graph.Carries i x j ∧ f.addTransition i j x = .ok f := by
  obtain ⟨p, r, hi, hj, rfl⟩ := h.of_addTransition hf
  have hcarries := e.graph.carries_addSymbol i j x
  refine ⟨hcarries, ?_⟩
  rw [(h.insertTransition hi hj x).addTransition_eq_ok hi hj x, Automaton.insertTransition_idem,
    Graph.addSymbol_of_carries hcarries]

theorem addTransition_again (e : Editor) (h : e.Obtainable) (i j : Nat) (p r : String) (x : Symbol)
    (hi : e.labelOf i = .ok p) (hj : e.labelOf j = .ok r) (ht : e.automaton.HasTransition p x r) :
    (∃ f, e.addTransition i j x = .ok f ∧
      f.automaton = { e.automaton with alphabet := e.automaton.alphabet.insert x } ∧
      (x ≠ .epsilon ∨ .epsilon ∈ e.automaton.alphabet → f.automaton = e.automaton) ∧
      f.graph.nodes = e.graph.nodes ∧
      f.graph.edges.map Edge.opening = e.graph.edges.map Edge.opening ∧
      (∀ t, t ∈ f.graph.drawn ↔ t ∈ e.graph.drawn) ∧
      (e.graph.Carries i x j → f.graph = e.graph) ∧
      (Reached (fun e edit => ¬ e.Redraws edit) e → e.graph.drawn.Nodup)) ∧
    ∀ k l y g, e.addTransition k l y = .ok g →
      g.graph.Carries k y l ∧ g.addTransition k l y = .ok g := by
  have hinv : e.Invariant := Reached.invariant h
  rw [hinv.labelOf_eq_ok_iff] at hi hj
  have hdrawn : (i, x, j) ∈ e.graph.drawn := (hinv.mem_drawn_iff i x j).2 ⟨p, r, hi, hj, ht⟩
  have hautomaton := Automaton.insertTransition_of_hasTransition ht
  refine ⟨⟨_, hinv.addTransition_eq_ok hi hj x, hautomaton, ?_, rfl,
    Graph.map_opening_addSymbol hinv.symbols_ne_nil hdrawn, ?_, Graph.addSymbol_of_carries,
    nodup_drawn_of_reached⟩, fun k l y g hg => hinv.addTransition_idem hg⟩
  · intro hx
    have hlisted : x ∈ e.automaton.alphabet := by
      rcases hinv.wellFormed.symbol_mem p x r ht with rfl | hmem
      · exact hx.resolve_left (not_not.2 rfl)
      · exact hmem
    rw [hautomaton, OrderedSet.insert_of_mem hlisted]
  · intro t
    rw [Graph.mem_drawn_addSymbol]
    exact ⟨fun hmem => hmem.elim (fun heq => heq ▸ hdrawn) id, .inr⟩

def looping : Spec where
  states := ["a"]
  alphabet := [.ofKey "0"]
  delta := .ofList [("a", .ofList [(.ofKey "0", .one "a"), (.epsilon, .one "a")])]
  initial := "a"
  accepting := []

def looped : Editor := Editor.new.perform (.importSpec looping)

theorem addTransition_again_looped :
    looped.Obtainable ∧ looped.labelOf 1 = .ok "a" ∧
      looped.automaton.HasTransition "a" (.ofKey "0") "a" ∧ looped.graph.Carries 1 (.ofKey "0") 1 ∧
      Reached (fun e edit => ¬ e.Redraws edit) looped ∧
      ∃ f, looped.addTransition 1 1 (.ofKey "0") = .ok f ∧ f.automaton = looped.automaton ∧
        f.graph = looped.graph ∧ looped.graph.drawn.Nodup ∧
        f.graph.Carries 1 (.ofKey "0") 1 ∧ f.addTransition 1 1 (.ofKey "0") = .ok f := by
  have hobtainable : looped.Obtainable := Reached.edited Reached.new trivial
  have hlabel : looped.labelOf 1 = .ok "a" := by decide +kernel
  have htransition : looped.automaton.HasTransition "a" (.ofKey "0") "a" := by decide +kernel
  have hcarries : looped.graph.Carries 1 (.ofKey "0") 1 :=
    ⟨⟨1, 1, [.ofKey "0"]⟩, by decide +kernel, List.mem_singleton_self _⟩
  have hreached : Reached (fun e edit => ¬ e.Redraws edit) looped := Reached.edited Reached.new id
  obtain ⟨⟨f, hf, _, hautomaton, _, _, _, hgraph, hnodup⟩, htwice⟩ :=
    addTransition_again looped hobtainable 1 1 "a" "a" (.ofKey "0") hlabel hlabel htransition
  exact ⟨hobtainable, hlabel, htransition, hcarries, hreached, f, hf, hautomaton (.inl (by decide)),
    hgraph hcarries, hnodup hreached, htwice 1 1 _ f hf⟩

/-- The silent loop is drawn on the second edge only, and epsilon is not a letter. -/
theorem addTransition_again_not_noop_looped :
    looped.Obtainable ∧ looped.labelOf 1 = .ok "a" ∧ looped.automaton.HasTransition "a" .epsilon "a" ∧
      ∃ f, looped.addTransition 1 1 .epsilon = .ok f ∧ ¬ f.automaton ≈ looped.automaton ∧
        f.graph ≠ looped.graph ∧ ¬ f.graph.drawn.Nodup := by
  refine ⟨Reached.edited Reached.new trivial, by decide +kernel, by decide +kernel,
    (looped.perform (.addTransition 1 1 .epsilon)), ?_, ?_, ?_, ?_⟩ <;> decide +kernel

end Editor
end EpsilonAutomata
