import EpsilonAutomata.Proofs.Singletons

/-! The states of the subset construction are the sets that words lead to. Reading a word side by side,
the automaton holds one of the listed sets and its deterministic form the one state with that number, or
both hold nothing; a symbol that is no letter leaves nothing in either. As the sets are listed once each,
two words reach one state exactly when they leave the same set. -/

namespace EpsilonAutomata

theorem NameSet.isEmpty_eq_false_iff (s : NameSet) : s.isEmpty = false ↔ ∃ x, x ∈ s := by
  rw [NameSet.isEmpty, List.isEmpty_eq_false_iff_exists_mem]
  rfl

def NameSet.members (s : NameSet) : Finset String := s.names.toFinset

theorem NameSet.mem_members (s : NameSet) (x : String) : x ∈ s.members ↔ x ∈ s := List.mem_toFinset

theorem NameSet.members_injective : Function.Injective NameSet.members := by
  intro s t hst
  apply NameSet.ext
  intro x
  rw [← NameSet.mem_members, ← NameSet.mem_members, hst]

namespace Automaton
variable {a : Automaton}

def heldAfter (a : Automaton) (u : Word) : NameSet := ((Simulator.new a).run u).current

def Reaches (a : Automaton) (s : NameSet) : Prop :=
  s.isEmpty = false ∧ ∃ u : Word, .epsilon ∉ u ∧ a.heldAfter u = s

/-- A deterministic automaton that has one state for each reached set. -/
structure OneStatePerSet (a d : Automaton) : Prop where
  not_silent : ∀ p r, ¬ d.HasTransition p .epsilon r
  one_destination : ∀ p x s, d.destinations? p x = some s → ∃ r ∈ d.states, s.toList = [r]
  isEmpty_eq : ∀ u : Word, .epsilon ∉ u → (d.heldAfter u).isEmpty = (a.heldAfter u).isEmpty
  one_state : ∀ u : Word, .epsilon ∉ u → (d.heldAfter u).isEmpty = false →
    ∃ r ∈ d.states, (d.heldAfter u).names = [r]
  same_state_iff : ∀ u v : Word, .epsilon ∉ u → .epsilon ∉ v → (a.heldAfter u).isEmpty = false →
    (a.heldAfter v).isEmpty = false → (d.heldAfter u = d.heldAfter v ↔ a.heldAfter u = a.heldAfter v)
  reached : ∀ r ∈ d.states, ∃ u : Word, .epsilon ∉ u ∧ (d.heldAfter u).names = [r]
  size_eq : d.states.size = {s | a.Reaches s}.ncard
  size_le : d.states.size ≤ 2 ^ a.states.size - 1
  alphabet : d.alphabet.toList = a.alphabet.toList.filter fun x => !x.isEpsilon

theorem heldAfter_eq (a : Automaton) (u : Word) : a.heldAfter u = a.after a.start u :=
  (Simulator.new a).current_run u

theorem isEmpty_start (a : Automaton) : a.start.isEmpty = false := by
  have hinitial : a.initial ∈ a.start := (mem_after_start_iff [] a.initial).2 (.stop a.initial)
  exact (NameSet.isEmpty_eq_false_iff a.start).2 ⟨a.initial, hinitial⟩

theorem run_subsetMachine (a : Automaton) (s : NameSet) (hs : s.isEmpty = false)
    (v : List (Fin a.letters.length)) :
    a.subsetMachine.run s v =
      if (a.after s (v.map a.letters.get)).isEmpty then none
      else some (a.after s (v.map a.letters.get)) := by
  induction v generalizing s with
  | nil => simp [Machine.run, after, hs]
  | cons j v ih =>
    have hafter : a.after s ((j :: v).map a.letters.get) =
        a.after (a.move s (a.letters.get j)) (v.map a.letters.get) := rfl
    rw [Machine.run, hafter]
    by_cases hdead : (a.move s (a.letters.get j)).isEmpty = true
    · have hstep : a.subsetMachine.step s j = none := if_pos hdead
      rw [hstep, if_pos (isEmpty_after _ hdead _), Option.bind_none]
    · have hstep : a.subsetMachine.step s j = some (a.move s (a.letters.get j)) := if_neg hdead
      rw [hstep, Option.bind_some]
      exact ih _ (Bool.eq_false_iff.2 hdead)

theorem mem_subsets_iff (a : Automaton) (s : NameSet) :
    s ∈ a.subsets ↔ ∃ v, a.subsetMachine.run a.start v = some s := by
  rw [subsets, Machine.mem_states_iff]
  exact a.subsetMachine.reachable_iff_exists_run s

theorem exists_places_of_held (h : a.Consistent) {u : Word} (hu : .epsilon ∉ u)
    (hheld : (a.heldAfter u).isEmpty = false) : ∃ v : List (Fin a.letters.length), u = v.map a.letters.get := by
  obtain ⟨r, hr⟩ := (NameSet.isEmpty_eq_false_iff _).1 hheld
  rw [heldAfter_eq, mem_after_start_iff] at hr
  exact exists_places a.letters u (hr.mem_letters h hu)

theorem reaches_iff_mem_subsets (h : a.Consistent) (s : NameSet) : a.Reaches s ↔ s ∈ a.subsets := by
  rw [mem_subsets_iff]
  constructor
  · rintro ⟨hs, u, hu, rfl⟩
    obtain ⟨v, rfl⟩ := exists_places_of_held h hu hs
    refine ⟨v, ?_⟩
    rw [heldAfter_eq] at hs ⊢
    rw [run_subsetMachine a a.start a.isEmpty_start, if_neg (by simp [hs])]
  · rintro ⟨v, hv⟩
    rw [run_subsetMachine a a.start a.isEmpty_start] at hv
    split at hv
    · cases hv
    · next hheld =>
      obtain rfl := Option.some.inj hv
      have hword := epsilon_not_mem_map a.letters a.epsilon_not_mem_letters v
      exact ⟨Bool.eq_false_iff.2 hheld, _, hword, a.heldAfter_eq _⟩

theorem nodup_subsets (a : Automaton) : a.subsets.Nodup :=
  a.subsetMachine.nodup_states a.bounded_subsetMachine

theorem run_subsetTable (a : Automaton) (v : List (Fin a.letters.length)) :
    (a.subsetTable.machine.run a.subsetTable.start v).map a.subsets.get =
      if (a.after a.start (v.map a.letters.get)).isEmpty then none
      else some (a.after a.start (v.map a.letters.get)) := by
  rw [← run_subsetMachine a a.start a.isEmpty_start]
  exact ((a.subsetMachine.tabulate_morphism a.bounded_subsetMachine).run_start v).symm

/-- Two automata are side by side after a word when both are stuck, or when the one is in a listed set and
the other in the state with its number. -/
def SideBySide (a : Automaton) (u : Word) : Prop :=
  ((a.heldAfter u).isEmpty = true ∧ (a.determinised.heldAfter u).isEmpty = true) ∨
    ∃ i : Fin a.subsets.length, a.heldAfter u = a.subsets.get i ∧ (a.heldAfter u).isEmpty = false ∧
      a.determinised.heldAfter u = .single (stateName i)

theorem sideBySide_letters (a : Automaton) (v : List (Fin a.letters.length)) :
    a.SideBySide (v.map a.letters.get) := by
  have hsets := a.run_subsetTable v
  have hstate := a.realises_determinised.after_start a.nodup_letters a.epsilon_not_mem_letters v
  rw [SideBySide, heldAfter_eq, heldAfter_eq, hstate]
  cases hrun : a.subsetTable.machine.run a.subsetTable.start v with
  | none =>
    left
    rw [hrun, Option.map_none] at hsets
    refine ⟨?_, rfl⟩
    by_contra hheld
    rw [if_neg hheld] at hsets
    cases hsets
  | some i =>
    right
    rw [hrun, Option.map_some] at hsets
    split at hsets
    · cases hsets
    · next hheld => exact ⟨i, (Option.some.inj hsets).symm, Bool.eq_false_iff.2 hheld, rfl⟩

theorem sideBySide (h : a.Consistent) (u : Word) (hu : .epsilon ∉ u) : a.SideBySide u := by
  by_cases hletters : ∃ v : List (Fin a.letters.length), u = v.map a.letters.get
  · obtain ⟨v, rfl⟩ := hletters
    exact a.sideBySide_letters v
  · left
    have hsame := a.realises_determinised.letters_eq a.epsilon_not_mem_letters
    have hdead (b : Automaton) (hb : b.Consistent) (hb' : b.letters = a.letters) :
        (b.heldAfter u).isEmpty = true := by
      by_contra hheld
      have hplaces := exists_places_of_held hb hu (Bool.eq_false_iff.2 hheld)
      rw [hb'] at hplaces
      exact hletters hplaces
    exact ⟨hdead a h rfl, hdead _ a.wellFormed_determinised.toConsistent hsame⟩

theorem mem_states_of_mem_subsets (h : a.Consistent) {s : NameSet} (hs : s ∈ a.subsets) {r : String}
    (hr : r ∈ s) : r ∈ a.states := by
  obtain ⟨_, u, _, rfl⟩ := (reaches_iff_mem_subsets h s).2 hs
  rw [heldAfter_eq, mem_after_start_iff] at hr
  exact hr.mem_states h h.initial_mem

theorem length_subsets_le (h : a.Consistent) : a.subsets.length ≤ 2 ^ a.states.size - 1 := by
  -- the listed sets go one to one into the nonempty sets of states
  have hmaps (s : NameSet) (hs : s ∈ a.subsets.toFinset) :
      s.members ∈ a.states.toList.toFinset.powerset.erase ∅ := by
    have hlisted := List.mem_toFinset.1 hs
    have hheld := ((reaches_iff_mem_subsets h s).2 hlisted).1
    obtain ⟨x, hx⟩ := (NameSet.isEmpty_eq_false_iff s).1 hheld
    have hne : s.members ≠ ∅ := Finset.ne_empty_of_mem ((s.mem_members x).2 hx)
    refine Finset.mem_erase.2 ⟨hne, Finset.mem_powerset.2 ?_⟩
    intro r hr
    exact List.mem_toFinset.2 (mem_states_of_mem_subsets h hlisted ((s.mem_members r).1 hr))
  have hcard := Finset.card_le_card_of_injOn NameSet.members hmaps NameSet.members_injective.injOn
  rwa [List.toFinset_card_of_nodup a.nodup_subsets, Finset.card_erase_of_mem (by simp),
    Finset.card_powerset, List.toFinset_card_of_nodup a.states.nodup] at hcard

theorem length_subsets_eq (h : a.Consistent) : a.subsets.length = {s | a.Reaches s}.ncard := by
  have hset : {s | a.Reaches s} = ↑a.subsets.toFinset := by
    ext s
    simp [reaches_iff_mem_subsets h]
  rw [hset, Set.ncard_coe_finset, List.toFinset_card_of_nodup a.nodup_subsets]

theorem mem_states_determinised_iff (a : Automaton) (r : String) :
    r ∈ a.determinised.states ↔ ∃ i : Fin a.subsets.length, r = stateName i :=
  a.realises_determinised.mem_states_iff r

theorem oneStatePerSet_determinised (h : a.Consistent) : a.OneStatePerSet a.determinised where
  not_silent :=
    (a.realises_determinised.deterministic a.nodup_letters a.epsilon_not_mem_letters).not_silent
  one_destination p x s hs := by
    obtain ⟨_, d, _, _, _, rfl, _⟩ := (a.subsetTable.transition_written a.nodup_letters p x s).1 hs
    exact ⟨stateName d, (a.mem_states_determinised_iff _).2 ⟨d, rfl⟩, rfl⟩
  isEmpty_eq u hu := by
    obtain ⟨ha, hd⟩ | ⟨i, _, ha, hd⟩ := sideBySide h u hu
    · rw [ha, hd]
    · rw [ha, hd, NameSet.isEmpty_single]
  one_state u hu hheld := by
    obtain ⟨_, hd⟩ | ⟨i, _, _, hd⟩ := sideBySide h u hu
    · rw [hd] at hheld
      cases hheld
    · refine ⟨stateName i, (a.mem_states_determinised_iff _).2 ⟨i, rfl⟩, ?_⟩
      rw [hd]
      rfl
  same_state_iff u v hu hv hheld hheld' := by
    obtain ⟨hdead, _⟩ | ⟨i, hset, _, hstate⟩ := sideBySide h u hu
    · rw [hdead] at hheld
      cases hheld
    obtain ⟨hdead, _⟩ | ⟨j, hset', _, hstate'⟩ := sideBySide h v hv
    · rw [hdead] at hheld'
      cases hheld'
    have hnames : NameSet.single (stateName i) = NameSet.single (stateName j) ↔ i = j :=
      (NameSet.single_injective.comp stateName_injective).eq_iff.trans Fin.val_inj
    have hsets : a.subsets.get i = a.subsets.get j ↔ i = j :=
      (List.nodup_iff_injective_get.1 a.nodup_subsets).eq_iff
    rw [hset, hset', hstate, hstate', hnames, hsets]
  reached r hr := by
    obtain ⟨i, rfl⟩ := (a.mem_states_determinised_iff r).1 hr
    obtain ⟨hheld, u, hu, hset⟩ := (reaches_iff_mem_subsets h _).2 (List.get_mem a.subsets i)
    refine ⟨u, hu, ?_⟩
    obtain ⟨hdead, _⟩ | ⟨j, hset', _, hstate⟩ := sideBySide h u hu
    · rw [hset, hheld] at hdead
      cases hdead
    · have hij : i = j := List.nodup_iff_injective_get.1 a.nodup_subsets (hset.symm.trans hset')
      rw [hstate, hij]
      rfl
  size_eq := a.realises_determinised.size_states.trans (length_subsets_eq h)
  size_le := a.realises_determinised.size_states.trans_le (length_subsets_le h)
  alphabet := a.realises_determinised.alphabet

/-- The subset construction gives a result with one state for each set that is reached, no more and no
fewer. -/
theorem determinise_oneStatePerSet (a : Automaton) (h : a.defect? = none) :
    ∃ d, a.determinise = .ok d ∧ a.OneStatePerSet d :=
  ⟨a.determinised, a.determinise_eq_ok, oneStatePerSet_determinised (a.defect?_eq_none_iff.1 h)⟩

theorem determinise_oneStatePerSet_silentLoop :
    silentLoop.defect? = none ∧
      ∃ d, silentLoop.determinise = .ok d ∧ silentLoop.OneStatePerSet d ∧
        d.heldAfter [.ofKey "1"] = d.heldAfter [.ofKey "1", .ofKey "1"] ∧
        d.heldAfter [] ≠ d.heldAfter [.ofKey "1"] ∧ (d.heldAfter [.ofKey "0"]).isEmpty = true := by
  obtain ⟨d, hd, h⟩ := determinise_oneStatePerSet silentLoop (by decide)
  have hnone : (silentLoop.heldAfter []).isEmpty = false := by cbv
  have hone : (silentLoop.heldAfter [.ofKey "1"]).isEmpty = false := by cbv
  have htwo : (silentLoop.heldAfter [.ofKey "1", .ofKey "1"]).isEmpty = false := by cbv
  have hsame := h.same_state_iff [.ofKey "1"] [.ofKey "1", .ofKey "1"] (by decide) (by decide) hone htwo
  have hother := h.same_state_iff [] [.ofKey "1"] (by decide) (by decide) hnone hone
  have hzero := h.isEmpty_eq [.ofKey "0"] (by decide)
  have hgrown : silentLoop.heldAfter [] ≠ silentLoop.heldAfter [.ofKey "1"] := by
    have hbefore : (silentLoop.heldAfter []).names = ["in", "out"] := by cbv
    have hafter : (silentLoop.heldAfter [.ofKey "1"]).names = ["end", "in", "out"] := by cbv
    intro heq
    rw [heq, hafter] at hbefore
    exact absurd hbefore (by decide)
  refine ⟨by decide, d, hd, h, hsame.2 (by cbv), fun heq => hgrown (hother.1 heq), ?_⟩
  rw [hzero]
  cbv

end Automaton
end EpsilonAutomata
