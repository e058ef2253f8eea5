import EpsilonAutomata.Proofs.Export
import EpsilonAutomata.Proofs.History

/-! The numbers of nodes through an export. A state keeps the number of its node when the automaton is
written and read again, although the reader numbers the states by their places and an editor numbers each
new one behind the others. The symbols are spread over the edges anew, so that none is drawn twice. -/

namespace EpsilonAutomata

theorem Graph.nodesOf_arranged (a : Automaton) : nodesOf a.arranged = nodesOf a := rfl

namespace Editor

theorem ofSpec_toSpec {e : Editor} (h : e.automaton.WellFormed) :
    ofSpec e.toSpec = .ok (ofAutomaton e.automaton.arranged) := by
  rw [ofSpec, toSpec, Automaton.toAutomaton_toSpec h]
  rfl

theorem Invariant.mem_drawn_congr {e f : Editor} (he : e.Invariant) (hf : f.Invariant)
    (hnodes : f.graph.nodes = e.graph.nodes)
    (htransition : ∀ p x r, f.automaton.HasTransition p x r ↔ e.automaton.HasTransition p x r)
    (t : Nat × Symbol × Nat) : t ∈ f.graph.drawn ↔ t ∈ e.graph.drawn := by
  obtain ⟨i, x, j⟩ := t
  have hshows (id : Nat) (s : String) : f.graph.Shows id s ↔ e.graph.Shows id s := by
    rw [Graph.Shows, Graph.Shows, hnodes]
  simp only [he.mem_drawn_iff, hf.mem_drawn_iff, hshows, htransition]

/-- An editor that is made of the export of another one shows each state under the number it had, and
draws the same symbols between the same nodes, each of them once. -/
theorem Obtainable.exists_ofSpec_toSpec {e : Editor} (h : e.Obtainable) :
    ∃ f, ofSpec e.toSpec = .ok f ∧ f.automaton ≈ e.automaton ∧ f.graph.nodes = e.graph.nodes ∧
      (∀ t, t ∈ f.graph.drawn ↔ t ∈ e.graph.drawn) ∧ f.graph.drawn.Nodup := by
  have hinv : e.Invariant := Reached.invariant h
  have hwell := hinv.wellFormed
  have hagain : (ofAutomaton e.automaton.arranged).Invariant :=
    invariant_ofAutomaton (Automaton.wellFormed_arranged hwell)
  have hnodes : (ofAutomaton e.automaton.arranged).graph.nodes = e.graph.nodes :=
    (Graph.nodesOf_arranged e.automaton).trans hinv.nodes_eq.symm
  refine ⟨_, ofSpec_toSpec hwell, Automaton.arranged_equiv hwell, hnodes, ?_, ?_⟩
  · exact hinv.mem_drawn_congr hagain hnodes (Automaton.hasTransition_arranged hwell)
  · exact Graph.nodup_drawn_ofAutomaton e.automaton.arranged

theorem exists_ofSpec_toSpec_retouched :
    retouched.Obtainable ∧ retouched.automaton.states.toList = ["end", "start", "q3"] ∧
      retouched.graph.nodes.map Node.label = ["start", "end", "q3"] ∧ ¬ retouched.graph.drawn.Nodup ∧
      ∃ f, ofSpec retouched.toSpec = .ok f ∧ f.automaton ≈ retouched.automaton ∧
        f.graph.nodes = retouched.graph.nodes ∧
        (∀ t, t ∈ f.graph.drawn ↔ t ∈ retouched.graph.drawn) ∧ f.graph.drawn.Nodup := by
  have hobtainable : retouched.Obtainable := Obtainable.foldl_perform Reached.new _
  exact ⟨hobtainable, by decide +kernel, by decide +kernel, by decide +kernel,
    hobtainable.exists_ofSpec_toSpec⟩

end Editor
end EpsilonAutomata
