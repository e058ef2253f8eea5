import EpsilonAutomata.Proofs.Minimality
import EpsilonAutomata.Proofs.Runs
import Mathlib

/-! The automaton of a table, run with sets of states like any other. Nothing is silent and no symbol
has two destinations, so a set that begins with one state never grows: it holds the state at which the
table is, or nothing once the table is stuck. Hence the subset construction gives back each automaton
that was written down from a table whose states are numbered as a search meets them. -/

namespace EpsilonAutomata

def NameSet.single (x : String) : NameSet := .ofList [x]

theorem NameSet.mem_single (x y : String) : y ∈ NameSet.single x ↔ y = x := by
  simp [NameSet.single]

theorem NameSet.single_injective : Function.Injective NameSet.single := by
  intro x y h
  have hx : x ∈ NameSet.single y := h ▸ (NameSet.mem_single x x).2 rfl
  exact (NameSet.mem_single y x).1 hx

theorem NameSet.isEmpty_single (x : String) : (NameSet.single x).isEmpty = false := rfl

theorem Automaton.Deterministic.closure_eq {d : Automaton} (h : d.Deterministic) (seed : NameSet) :
    d.closure seed = seed := by
  apply NameSet.ext
  intro r
  rw [Automaton.mem_closure_iff]
  constructor
  · rintro ⟨p, hp, hpath⟩
    cases hpath with
    | stop => exact hp
    | silent ht => exact absurd ((d.mem_transitions _ _ _).1 ht) (h.not_silent _ _)
  · exact fun hr => ⟨r, hr, .stop r⟩

/-- What a run holds while the table is at a state, and once it is stuck. -/
def holding {n : Nat} : Option (Fin n) → NameSet
  | some i => .single (stateName i)
  | none => ∅

theorem mem_holding {n : Nat} (target : Option (Fin n)) (r : String) :
    r ∈ holding target ↔ ∃ d : Fin n, target = some d ∧ r = stateName d := by
  cases target with
  | none => simp [holding]
  | some i => simp [holding, NameSet.mem_single]

namespace Realises
variable {m : Automaton} {n : Nat} {letters : List Symbol} {t : Table n letters.length}

theorem letters_eq (h : Realises m letters t) (hepsilon : .epsilon ∉ letters) : m.letters = letters := by
  rw [Automaton.letters, h.alphabet]
  apply List.filter_eq_self.2
  intro x hx
  have hne : x ≠ .epsilon := fun he => hepsilon (he ▸ hx)
  rw [Bool.not_eq_true', Bool.eq_false_iff, Ne, Symbol.isEpsilon_iff]
  exact hne

theorem after_single (h : Realises m letters t) (hletters : letters.Nodup)
    (hepsilon : .epsilon ∉ letters) (i : Fin n) (v : List (Fin letters.length)) :
    m.after (.single (stateName i)) (v.map letters.get) = holding (t.machine.run i v) := by
  have hclosed := (h.deterministic hletters hepsilon).closure_eq (.single (stateName i))
  apply NameSet.ext
  intro r
  rw [← hclosed, Automaton.mem_after_closure_iff, mem_holding]
  simp only [NameSet.mem_single, exists_eq_left]
  constructor
  · intro hpath
    obtain ⟨v', d, hv, hr, hrun⟩ := h.exists_run_of_path hepsilon hpath i rfl
    have hinj : Function.Injective letters.get := List.nodup_iff_injective_get.1 hletters
    obtain rfl : v = v' := List.map_injective_iff.2 hinj hv
    exact ⟨d, hrun, hr⟩
  · rintro ⟨d, hrun, rfl⟩
    exact h.path_of_run i d v hrun

theorem start_eq (h : Realises m letters t) (hletters : letters.Nodup)
    (hepsilon : .epsilon ∉ letters) : m.start = .single (stateName t.start) := by
  have hclosed := (h.deterministic hletters hepsilon).closure_eq (.single m.initial)
  rw [h.initial] at hclosed
  rw [Automaton.start, h.initial]
  exact hclosed

theorem after_start (h : Realises m letters t) (hletters : letters.Nodup)
    (hepsilon : .epsilon ∉ letters) (v : List (Fin letters.length)) :
    m.after m.start (v.map letters.get) = holding (t.machine.run t.start v) := by
  rw [h.start_eq hletters hepsilon]
  exact h.after_single hletters hepsilon t.start v

theorem morphism_single {t : Table n m.letters.length} (h : Realises m m.letters t) :
    t.machine.Morphism m.subsetMachine fun i => .single (stateName i) where
  start := (h.start_eq m.nodup_letters m.epsilon_not_mem_letters).symm
  step i j := by
    have hmove : m.move (.single (stateName i)) (m.letters.get j) = holding (t.machine.step i j) := by
      rw [← Machine.run_singleton]
      exact h.after_single m.nodup_letters m.epsilon_not_mem_letters i [j]
    simp only [Automaton.subsetMachine, hmove]
    cases t.machine.step i j <;> rfl
  accepting i := by
    rw [Bool.eq_iff_iff]
    refine Automaton.acceptsIn_iff (.single (stateName i)) |>.trans ?_
    simp only [NameSet.mem_single, exists_eq_left, h.accepting]
    constructor
    · rintro ⟨i', hi, hacc⟩
      obtain rfl : i = i' := Fin.ext (stateName_injective hi)
      exact hacc
    · exact fun hacc => ⟨i, rfl, hacc⟩

theorem subsetTable_eq {σ : Type} [DecidableEq σ] {M : Machine σ m.letters.length}
    {bounded : M.Bounded} (h : Realises m m.letters (M.tabulate bounded)) :
    (⟨_, m.subsetTable⟩ : Σ n, Table n m.letters.length) = ⟨_, M.tabulate bounded⟩ := by
  have hself : (M.tabulate bounded).machine.Bounded := Table.bounded_of_finRange _ _
  have hsets := Machine.tabulate_congr h.morphism_single
    (fun i j _ _ hij => Fin.ext (stateName_injective (NameSet.single_injective hij)))
    hself m.bounded_subsetMachine
  exact hsets.symm.trans (M.tabulate_tabulate bounded hself)

end Realises

namespace Automaton

theorem determinise_written {σ : Type} [DecidableEq σ] (letters : List Symbol)
    (hletters : letters.Nodup) (hepsilon : .epsilon ∉ letters) (M : Machine σ letters.length)
    (bounded : M.Bounded) :
    ((M.tabulate bounded).written letters).determinise = .ok ((M.tabulate bounded).written letters) := by
  have hrealises := (M.tabulate bounded).realises_written hletters
  have hsame := hrealises.letters_eq hepsilon
  generalize hm : (M.tabulate bounded).written letters = m at hrealises hsame ⊢
  -- the letters are in the type of the table, so they are fixed before the tables are compared
  subst hsame
  have htable := congrArg (fun t : Σ n, Table n m.letters.length => t.2.toAutomaton m.letters)
    hrealises.subsetTable_eq
  exact htable.trans (((M.tabulate bounded).toAutomaton_eq_ok hletters).trans (congrArg Except.ok hm))

/-- What a conversion gives is left as it is, every order included, by making it deterministic again. -/
theorem determinise_converted (a : Automaton) :
    ∃ d m, a.determinise = .ok d ∧ a.minimise = .ok m ∧ d.determinise = .ok d ∧ m.determinise = .ok m := by
  refine ⟨_, _, a.determinise_eq_ok, a.minimise_eq_ok, ?_, ?_⟩
  · exact determinise_written a.letters a.nodup_letters a.epsilon_not_mem_letters a.subsetMachine _
  · exact determinise_written a.letters a.nodup_letters a.epsilon_not_mem_letters
      a.subsetTable.trim.quotient _

end Automaton
end EpsilonAutomata
