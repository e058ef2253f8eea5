import EpsilonAutomata.Proofs.Refusal
import EpsilonAutomata.Proofs.TableAutomaton

/-! The names of the states that an editor adds. A new state is shown by the next node, and the number in
its name lies above every number in the name of another state and is not below that of the node. As long
as nothing is imported, what was numbered once stays numbered, so the numbers of later names only grow. -/

namespace EpsilonAutomata.Editor

def nameGiven? (e : Editor) : Edit → Option String
  | .addState accepting => (e.addState accepting).toOption.map Prod.fst
  | _ => none

def namesGiven (e : Editor) : List Edit → List String
  | [] => []
  | edit :: edits => (e.nameGiven? edit).toList ++ (e.perform edit).namesGiven edits

def Edit.isImport : Edit → Bool
  | .importText _ => true
  | .importSpec _ => true
  | _ => false

/-- What is promised of a new state and of the number in its name. -/
structure Invents (e f : Editor) (accepting : Bool) (name : String) (number : Nat) : Prop where
  name_eq : name = stateName number
  name_new : name ∉ e.automaton.states
  states_eq : f.automaton.states.toList = e.automaton.states.toList ++ [name]
  nodes_eq : f.graph.nodes = e.graph.nodes ++ [⟨e.graph.nodes.length + 1, name, accepting⟩]
  idOf_eq : f.idOf name = .ok (e.graph.nodes.length + 1)
  above_nodes : e.graph.nodes.length + 1 ≤ number
  above_numbers : ∀ s ∈ e.automaton.states, ∀ numeral k, s.toList = 'q' :: numeral →
    Numeral.read? Numeral.word32 numeral = some k → k < number

/-- The number is that of a node, or it stands in the name of a state. -/
def Holds (e : Editor) (number : Nat) : Prop :=
  number ≤ e.graph.nodes.length ∨ e.automaton.Numbered number

theorem Invents.lt_of_holds {e f : Editor} {accepting : Bool} {name : String} {number m : Nat}
    (h : e.Invents f accepting name number) (hm : e.Holds m) : m < number := by
  rcases hm with hnode | ⟨s, hs, hnumber⟩
  · exact lt_of_le_of_lt hnode (Nat.lt_of_succ_le h.above_nodes)
  · obtain ⟨numeral, hnumeral, hread⟩ := (stateNumber?_eq_some_iff s m).1 hnumber
    exact h.above_numbers s hs numeral m hnumeral hread

theorem holds_of_subset {e f : Editor} {number : Nat} (h : e.Holds number)
    (hnodes : e.graph.nodes.length ≤ f.graph.nodes.length)
    (hstates : ∀ s ∈ e.automaton.states, s ∈ f.automaton.states) : f.Holds number := by
  rcases h with hnode | ⟨s, hs, hnumber⟩
  · exact .inl (hnode.trans hnodes)
  · exact .inr ⟨s, hstates s hs, hnumber⟩

namespace Invariant
variable {e f : Editor}

theorem exists_invents {accepting : Bool} {name : String} (h : e.Invariant)
    (hadd : e.addState accepting = .ok (name, f)) :
    ∃ number, e.Invents f accepting name number ∧ f.Holds number := by
  have hf : f.Invariant := h.addState hadd
  obtain ⟨suffix, b, hsuffix, hname, hb, rfl⟩ := of_addState hadd
  obtain ⟨hnew, rfl⟩ := (Automaton.addState_eq_ok_iff name accepting).1 hb
  have hlist := e.automaton.states.toList_insert_of_not_mem hnew
  rw [h.nextId_eq] at hf hname ⊢
  refine ⟨_, ⟨hname, hnew, hlist, rfl, ?_, Nat.le_max_right _ _, ?_⟩, ?_⟩
  · exact (hf.idOf_eq_ok_iff _ _).2 ⟨_, List.mem_append_right _ (List.mem_singleton_self _), rfl, rfl⟩
  · intro s hs numeral k hnumeral hread
    have hnumbered : e.automaton.Numbered k :=
      ⟨s, hs, (stateNumber?_eq_some_iff s k).2 ⟨numeral, hnumeral, hread⟩⟩
    exact lt_of_lt_of_le (Automaton.lt_of_nextSuffix hsuffix hnumbered) (Nat.le_max_left _ _)
  · -- a number of more than 32 bits is not read back from the name, but then it is that of the node
    rcases Nat.le_total suffix (e.graph.nodes.length + 1) with hle | hle
    · left
      rw [Nat.max_eq_right hle]
      simp [Graph.addNode]
    · right
      rw [Nat.max_eq_left hle] at hname ⊢
      have hread := stateNumber?_stateName (Automaton.nextSuffix_le hsuffix)
      exact ⟨name, (OrderedSet.mem_insert _ _ _).2 (.inr rfl), hname ▸ hread⟩

theorem nodes_addTransition {i j : Nat} {x : Symbol} (h : e.Invariant)
    (hf : e.addTransition i j x = .ok f) :
    f.graph.nodes = e.graph.nodes ∧ f.automaton.states = e.automaton.states := by
  obtain ⟨p, r, _, _, rfl⟩ := h.of_addTransition hf
  exact ⟨rfl, rfl⟩

theorem holds_attempt {edit : Edit} {number : Nat} (h : e.Invariant) (hedit : edit.isImport = false)
    (hnumber : e.Holds number) (hf : e.attempt edit = .ok f) : f.Holds number := by
  have hkept {i j : Nat} {x : Symbol} (hf : e.addTransition i j x = .ok f) : f.Holds number := by
    obtain ⟨hnodes, hstates⟩ := h.nodes_addTransition hf
    exact holds_of_subset hnumber (Nat.le_of_eq (by rw [hnodes])) fun s hs => hstates ▸ hs
  cases edit with
  | addState accepting =>
    obtain ⟨⟨name, f⟩, hadd, rfl⟩ := (map_eq_ok_iff _ _ _).1 hf
    obtain ⟨m, hm, _⟩ := h.exists_invents hadd
    apply holds_of_subset hnumber
    · simp [hm.nodes_eq]
    · intro s hs
      rw [← OrderedSet.mem_toList, hm.states_eq]
      exact List.mem_append_left _ hs
  | addTransition i j x => exact hkept hf
  | addBetween p r x =>
    obtain ⟨i, j, _, _, hij⟩ := of_addBetween hf
    exact hkept hij
  | importText text => cases hedit
  | importSpec s => cases hedit

theorem holds_perform {edit : Edit} {number : Nat} (h : e.Invariant) (hedit : edit.isImport = false)
    (hnumber : e.Holds number) : (e.perform edit).Holds number := by
  unfold Editor.perform
  split
  · next hf => exact h.holds_attempt hedit hnumber hf
  · exact hnumber

theorem of_nameGiven? {edit : Edit} {name : String} (h : e.Invariant) (hname : e.nameGiven? edit = some name) :
    ∃ number, name = stateName number ∧ (∀ m, e.Holds m → m < number) ∧ (e.perform edit).Holds number := by
  cases edit with
  | addState accepting =>
    cases hadd : e.addState accepting with
    | error error => simp [nameGiven?, hadd, Except.toOption] at hname
    | ok result =>
      obtain ⟨name, f⟩ := result
      obtain rfl : name = _ := by simpa [nameGiven?, hadd, Except.toOption] using hname
      obtain ⟨number, hnumber, hheld⟩ := h.exists_invents hadd
      have hperform : e.perform (.addState accepting) = f := by
        simp [Editor.perform, Editor.attempt, hadd, Except.map]
      exact ⟨number, hnumber.name_eq, fun m => hnumber.lt_of_holds, hperform ▸ hheld⟩
  | addTransition => cases hname
  | addBetween => cases hname
  | importText => cases hname
  | importSpec => cases hname

theorem exists_numbers (h : e.Invariant) {edits : List Edit} (hedits : ∀ edit ∈ edits, edit.isImport = false) :
    ∃ numbers : List Nat, e.namesGiven edits = numbers.map stateName ∧ numbers.Pairwise (· < ·) ∧
      ∀ number ∈ numbers, ∀ m, e.Holds m → m < number := by
  induction edits generalizing e with
  | nil => exact ⟨[], rfl, .nil, by simp⟩
  | cons edit edits ih =>
    have hedit := hedits edit List.mem_cons_self
    have hkept (m : Nat) (hm : e.Holds m) : (e.perform edit).Holds m := h.holds_perform hedit hm
    obtain ⟨numbers, hnames, hgrow, habove⟩ :=
      ih (h.perform edit) fun later hlater => hedits later (List.mem_cons_of_mem edit hlater)
    rw [namesGiven]
    cases hname : e.nameGiven? edit with
    | none => exact ⟨numbers, hnames, hgrow, fun number hnumber m hm => habove number hnumber m (hkept m hm)⟩
    | some name =>
      obtain ⟨first, rfl, hfirst, hheld⟩ := h.of_nameGiven? hname
      refine ⟨first :: numbers, by simp [hnames], ?_, ?_⟩
      · exact List.pairwise_cons.2 ⟨fun number hnumber => habove number hnumber first hheld, hgrow⟩
      · intro number hnumber m hm
        rcases List.mem_cons.1 hnumber with rfl | hnumber
        · exact hfirst m hm
        · exact habove number hnumber m (hkept m hm)

end Invariant

/-- A state that is added has a new name, whose number is above all that are in use, and without an import
in between the numbers of the names that an editor invents increase. -/
theorem Obtainable.invents {e : Editor} (h : e.Obtainable) :
    (∀ accepting name f, e.addState accepting = .ok (name, f) →
      ∃ number, e.Invents f accepting name number) ∧
    ∀ edits : List Edit, (∀ edit ∈ edits, edit.isImport = false) →
      ∃ numbers : List Nat, e.namesGiven edits = numbers.map stateName ∧ numbers.Pairwise (· < ·) ∧
        (e.namesGiven edits).Nodup := by
  have hinv : e.Invariant := Reached.invariant h
  constructor
  · intro accepting name f hadd
    obtain ⟨number, hnumber, _⟩ := hinv.exists_invents hadd
    exact ⟨number, hnumber⟩
  · intro edits hedits
    obtain ⟨numbers, hnames, hgrow, _⟩ := hinv.exists_numbers hedits
    have hnodup : numbers.Nodup := hgrow.imp Nat.ne_of_lt
    exact ⟨numbers, hnames, hgrow, hnames ▸ hnodup.map stateName_injective⟩

def oddlyNumbered : Spec where
  states := ["q007", "q+9", "q4294967296", "q12x"]
  alphabet := []
  delta := .empty
  initial := "q+9"
  accepting := []

def renumbered : Editor := Editor.new.perform (.importSpec oddlyNumbered)

def enlargements : List Edit :=
  [.addState true, .addBetween "q10" "q" .epsilon, .addTransition 5 1 .epsilon, .addState false, .addTransition 9 1 .epsilon]

theorem invents_renumbered :
    renumbered.Obtainable ∧
      (∃ f, renumbered.addState true = .ok ("q10", f) ∧
        ∃ number, renumbered.Invents f true "q10" number) ∧
      (∀ edit ∈ enlargements, edit.isImport = false) ∧ renumbered.namesGiven enlargements = ["q10", "q11"] ∧
      ∃ numbers : List Nat, renumbered.namesGiven enlargements = numbers.map stateName ∧
        numbers.Pairwise (· < ·) ∧ (renumbered.namesGiven enlargements).Nodup := by
  have hobtainable : renumbered.Obtainable := Reached.edited Reached.new trivial
  obtain ⟨hname, hrun⟩ := hobtainable.invents
  have hedits : ∀ edit ∈ enlargements, edit.isImport = false := by decide
  have hadd : renumbered.addState true = .ok ("q10", renumbered.perform (.addState true)) := by decide +kernel
  exact ⟨hobtainable, ⟨_, hadd, hname _ _ _ hadd⟩, hedits, by decide +kernel, hrun _ hedits⟩

end EpsilonAutomata.Editor
