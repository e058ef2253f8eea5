import EpsilonAutomata.Deterministic.Table
import EpsilonAutomata.Proofs.Search
import Mathlib.Data.Fin.Basic

/-! Runs of deterministic machines, and maps between machines that respect them. A machine and the
table made from it accept the same words from matching states, and two machines that differ only in
what their states are called have one and the same table. -/

namespace EpsilonAutomata.Machine
variable {σ τ υ : Type} {k : Nat}

theorem none_or_some_of_isSome_eq {v : Option σ} {w : Option τ} (h : v.isSome = w.isSome) :
    (v = none ∧ w = none) ∨ ∃ d e, v = some d ∧ w = some e := by
  cases v with
  | none =>
    cases w with
    | none => exact .inl ⟨rfl, rfl⟩
    | some e => cases h
  | some d =>
    cases w with
    | none => cases h
    | some e => exact .inr ⟨d, e, rfl, rfl⟩

theorem run_append (m : Machine σ k) (s : σ) (v w : List (Fin k)) :
    m.run s (v ++ w) = (m.run s v).bind fun d => m.run d w := by
  induction v generalizing s with
  | nil => rfl
  | cons j v ih =>
    rw [List.cons_append, run, run, Option.bind_assoc]
    apply congrArg (Option.bind (m.step s j))
    funext d
    exact ih d

theorem run_singleton (m : Machine σ k) (s : σ) (j : Fin k) : m.run s [j] = m.step s j :=
  Option.bind_fun_some (m.step s j)

/-- Whether each word gets stuck and, if not, whether it ends in an accepting state. -/
def outcome (m : Machine σ k) (s : σ) (w : List (Fin k)) : Option Bool :=
  (m.run s w).map m.accepting

def language (m : Machine σ k) (s : σ) (w : List (Fin k)) : Bool := (m.run s w).any m.accepting

theorem language_eq_outcome (m : Machine σ k) (s : σ) (w : List (Fin k)) :
    m.language s w = (m.outcome s w == some true) := by
  rw [language, outcome]
  cases m.run s w with
  | none => rfl
  | some d => cases h : m.accepting d <;> simp [h]

theorem outcome_cons (m : Machine σ k) (s : σ) (j : Fin k) (w : List (Fin k)) :
    m.outcome s (j :: w) = (m.step s j).bind fun d => m.outcome d w := by
  rw [outcome, run, Option.map_bind]
  rfl

theorem isSome_outcome_singleton (m : Machine σ k) (s : σ) (j : Fin k) :
    (m.outcome s [j]).isSome = (m.step s j).isSome := by
  rw [outcome_cons]
  cases m.step s j <;> rfl

theorem language_cons (m : Machine σ k) (s : σ) (j : Fin k) (w : List (Fin k)) :
    m.language s (j :: w) = (m.step s j).any fun d => m.language d w := by
  rw [language, run]
  cases m.step s j <;> rfl

theorem mem_successors (m : Machine σ k) (s d : σ) :
    d ∈ m.successors s ↔ ∃ j, m.step s j = some d := by
  simp [successors]

theorem exists_run_of_reachable {m : Machine σ k} {s : σ}
    (h : Search.Reachable m.successors [m.start] s) :
    ∃ w, m.run m.start w = some s := by
  induction h with
  | start hs => exact ⟨[], List.mem_singleton.1 hs ▸ rfl⟩
  | step _ hd ih =>
    obtain ⟨w, hw⟩ := ih
    obtain ⟨j, hj⟩ := (m.mem_successors _ _).1 hd
    refine ⟨w ++ [j], ?_⟩
    rw [run_append, hw, Option.bind_some, run, hj]
    rfl

theorem reachable_of_run {m : Machine σ k} {s d : σ} {w : List (Fin k)}
    (hs : Search.Reachable m.successors [m.start] s) (h : m.run s w = some d) :
    Search.Reachable m.successors [m.start] d := by
  induction w generalizing s with
  | nil => exact Option.some.inj h ▸ hs
  | cons j w ih =>
    rw [run, Option.bind_eq_some_iff] at h
    obtain ⟨e, he, h⟩ := h
    exact ih (.step hs ((m.mem_successors s e).2 ⟨j, he⟩)) h

theorem reachable_iff_exists_run (m : Machine σ k) (s : σ) :
    Search.Reachable m.successors [m.start] s ↔ ∃ w, m.run m.start w = some s := by
  refine ⟨exists_run_of_reachable, ?_⟩
  rintro ⟨w, hw⟩
  exact reachable_of_run (.start List.mem_cons_self) hw

/-- A renaming of states after which the second machine does what the first one does. -/
structure Morphism (m : Machine σ k) (m' : Machine τ k) (f : σ → τ) : Prop where
  start : f m.start = m'.start
  step : ∀ s j, m'.step (f s) j = (m.step s j).map f
  accepting : ∀ s, m'.accepting (f s) = m.accepting s

namespace Morphism
variable {m : Machine σ k} {m' : Machine τ k} {m'' : Machine υ k} {f : σ → τ} {g : τ → υ}

theorem comp (hg : m'.Morphism m'' g) (hf : m.Morphism m' f) : m.Morphism m'' (g ∘ f) where
  start := (congrArg g hf.start).trans hg.start
  step s j := by
    show m''.step (g (f s)) j = _
    rw [hg.step, hf.step, Option.map_map]
  accepting s := (hg.accepting (f s)).trans (hf.accepting s)

theorem run (h : m.Morphism m' f) (s : σ) (w : List (Fin k)) :
    m'.run (f s) w = (m.run s w).map f := by
  induction w generalizing s with
  | nil => rfl
  | cons j w ih =>
    rw [Machine.run, Machine.run, h.step, Option.map_bind, Option.bind_map]
    apply congrArg (Option.bind (m.step s j))
    funext d
    exact ih d

theorem run_start (h : m.Morphism m' f) (w : List (Fin k)) :
    m'.run m'.start w = (m.run m.start w).map f := by
  rw [← h.start, h.run]

theorem language (h : m.Morphism m' f) (s : σ) (w : List (Fin k)) :
    m'.language (f s) w = m.language s w := by
  rw [Machine.language, Machine.language, h.run]
  cases m.run s w with
  | none => rfl
  | some d => exact h.accepting d

theorem language_start (h : m.Morphism m' f) : m'.language m'.start = m.language m.start := by
  funext w
  rw [← h.start, h.language]

theorem successors (h : m.Morphism m' f) (s : σ) :
    m'.successors (f s) = (m.successors s).map f := by
  rw [Machine.successors, Machine.successors, List.map_filterMap]
  apply congrArg (List.filterMap · (List.finRange k))
  funext j
  exact h.step s j

theorem bounded (h : m.Morphism m' f) (bounded : m.Bounded) : m'.Bounded := by
  have moved := Search.Bounded.map f h.successors bounded
  rwa [List.map_singleton, h.start] at moved

/-- As long as the renaming keeps reachable states apart, a search meets the same states in the same
order. -/
theorem states [DecidableEq σ] [DecidableEq τ] (h : m.Morphism m' f)
    (hinj : ∀ s d, Search.Reachable m.successors [m.start] s →
      Search.Reachable m.successors [m.start] d → f s = f d → s = d)
    (bounded : m.Bounded) (bounded' : m'.Bounded) :
    m'.states bounded' = (m.states bounded).map f := by
  have moved := Search.search_map m.successors m'.successors [m.start] f h.successors hinj bounded
    (Search.Bounded.map f h.successors bounded)
  refine Eq.trans ?_ moved
  simp only [Machine.states, List.map_singleton, h.start]

end Morphism

theorem table_eq_of_morphism {n : Nat} (t t' : Table n k) (m : Machine τ k) (f : Fin n → τ)
    (hf : Function.Injective f) (h : t.machine.Morphism m f) (h' : t'.machine.Morphism m f) :
    t = t' := by
  have hstart : t.start = t'.start := hf (h.start.trans h'.start.symm)
  have hstep (i : Fin n) (j : Fin k) : t.machine.step i j = t'.machine.step i j :=
    Option.map_injective hf ((h.step i j).symm.trans (h'.step i j))
  have haccepting (i : Fin n) : t.machine.accepting i = t'.machine.accepting i :=
    (h.accepting i).symm.trans (h'.accepting i)
  cases t with
  | mk start next accepting =>
  cases t' with
  | mk start' next' accepting' =>
  congr
  · apply Vector.ext
    intro i hi
    apply Vector.ext
    intro j hj
    exact hstep ⟨i, hi⟩ ⟨j, hj⟩
  · apply Vector.ext
    intro i hi
    exact haccepting ⟨i, hi⟩

theorem sigma_table_eq_of_morphism {n n' : Nat} (t : Table n k) (t' : Table n' k)
    (m : Machine τ k) (l : List τ) (hl : l.Nodup) (hn : n = l.length) (hn' : n' = l.length)
    (h : t.machine.Morphism m fun i => l.get (i.cast hn))
    (h' : t'.machine.Morphism m fun i => l.get (i.cast hn')) :
    (⟨n, t⟩ : Σ n, Table n k) = ⟨n', t'⟩ := by
  subst hn hn'
  have hget : Function.Injective l.get := List.nodup_iff_injective_get.1 hl
  exact congrArg (Sigma.mk _) (table_eq_of_morphism t t' m l.get hget h h')

section tabulate
variable [DecidableEq σ] [DecidableEq τ]

theorem mem_states_iff (m : Machine σ k) (bounded : m.Bounded) (s : σ) :
    s ∈ m.states bounded ↔ Search.Reachable m.successors [m.start] s :=
  Search.mem_search_iff m.successors [m.start] bounded s

theorem nodup_states (m : Machine σ k) (bounded : m.Bounded) : (m.states bounded).Nodup :=
  Search.nodup_search m.successors [m.start] bounded

theorem tabulate_step (m : Machine σ k) (bounded : m.Bounded) (i : Fin (m.states bounded).length)
    (j : Fin k) :
    (m.tabulate bounded).machine.step i j =
      (m.step ((m.states bounded).get i) j).bind (m.states bounded).finIdxOf? := by
  simp only [Table.machine, tabulate, Vector.get, List.getElem_toArray, List.getElem_map,
    Vector.toArray_ofFn, Fin.val_cast, Array.getElem_ofFn, List.get_eq_getElem]
  rfl

theorem tabulate_morphism (m : Machine σ k) (bounded : m.Bounded) :
    (m.tabulate bounded).machine.Morphism m (m.states bounded).get where
  start := List.getElem_idxOf _
  step i j := by
    rw [tabulate_step]
    cases hd : m.step ((m.states bounded).get i) j with
    | none => rfl
    | some d =>
      have reached : Search.Reachable m.successors [m.start] ((m.states bounded).get i) :=
        (m.mem_states_iff bounded _).1 (List.get_mem _ i)
      have hmem : d ∈ m.states bounded :=
        (m.mem_states_iff bounded d).2 (.step reached ((m.mem_successors _ d).2 ⟨j, hd⟩))
      rw [Option.bind_some]
      cases he : (m.states bounded).finIdxOf? d with
      | none => exact absurd hmem (List.finIdxOf?_eq_none_iff.1 he)
      | some e => exact congrArg some (List.finIdxOf?_eq_some_iff.1 he).1.symm
  accepting i := by simp [tabulate, Table.machine, Vector.get]

theorem language_tabulate (m : Machine σ k) (bounded : m.Bounded) :
    (m.tabulate bounded).machine.language (m.tabulate bounded).start = m.language m.start :=
  (m.tabulate_morphism bounded).language_start.symm

/-- Machines that differ only in what their reachable states are called have the same table. -/
theorem tabulate_congr {m : Machine σ k} {m' : Machine τ k} {f : σ → τ} (h : m.Morphism m' f)
    (hinj : ∀ s d, Search.Reachable m.successors [m.start] s →
      Search.Reachable m.successors [m.start] d → f s = f d → s = d)
    (bounded : m.Bounded) (bounded' : m'.Bounded) :
    (⟨_, m.tabulate bounded⟩ : Σ n, Table n k) = ⟨_, m'.tabulate bounded'⟩ := by
  have hstates := h.states hinj bounded bounded'
  have hlength : (m.states bounded).length = (m'.states bounded').length := by simp [hstates]
  have renamed := h.comp (m.tabulate_morphism bounded)
  apply sigma_table_eq_of_morphism _ _ m' (m'.states bounded') (m'.nodup_states bounded') hlength rfl
  · convert renamed using 1
    funext i
    simp [hstates]
  · exact m'.tabulate_morphism bounded'

theorem tabulate_tabulate (m : Machine σ k) (bounded : m.Bounded)
    (bounded' : (m.tabulate bounded).machine.Bounded) :
    (⟨_, (m.tabulate bounded).machine.tabulate bounded'⟩ : Σ n, Table n k) = ⟨_, m.tabulate bounded⟩ := by
  apply tabulate_congr (m.tabulate_morphism bounded)
  intro i j _ _ hij
  exact List.nodup_iff_injective_get.1 (m.nodup_states bounded) hij

theorem run_tabulate_eq_some_iff (m : Machine σ k) (bounded : m.Bounded) (w : List (Fin k))
    (i : Fin (m.states bounded).length) :
    (m.tabulate bounded).machine.run (m.tabulate bounded).start w = some i ↔
      m.run m.start w = some ((m.states bounded).get i) := by
  have hrun := (m.tabulate_morphism bounded).run_start w
  have hget : Function.Injective (m.states bounded).get :=
    List.nodup_iff_injective_get.1 (m.nodup_states bounded)
  rw [hrun]
  exact ((Option.map_injective hget).eq_iff (b := some i)).symm

end tabulate
end EpsilonAutomata.Machine
