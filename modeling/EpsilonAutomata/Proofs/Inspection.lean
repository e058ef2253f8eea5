import EpsilonAutomata.Proofs.Denotation
import EpsilonAutomata.Proofs.Diagnosis
import Mathlib.Data.List.Destutter

/-! The checks of a specification as they are carried out. Repeated names are those met again in one pass
with the set of names met so far, and are sorted afterwards; destinations are gone through row by row, and
the first entry without one ends the pass whatever has been gathered. All checks are carried out, and the
first one with a finding decides. -/

namespace EpsilonAutomata.Spec

def metAgain (met : NameSet) : List String → List String
  | [] => []
  | x :: rest => if x ∈ met then x :: metAgain met rest else metAgain (met.insert x) rest

def sortOnce (names : List String) : List String :=
  (names.mergeSort fun x y => decide (x ≤ y)).destutter (· ≠ ·)

def inspectStates (s : Spec) : Except Finding Unit :=
  if s.states.isEmpty then .error .noStates
  else
    let again := metAgain ∅ s.states
    if again.isEmpty then .ok () else .error (.repeatedStates (sortOnce again))

def inspectInitial (s : Spec) : Except Finding Unit :=
  if !s.states.contains s.initial then .error (.undeclaredInitial s.initial) else .ok ()

def inspectNames (s : Spec) (finding : List String → Finding) (names : List String) : Except Finding Unit :=
  let declared := NameSet.ofList s.states
  let undeclared := names.filter (· ∉ declared)
  if undeclared.isEmpty then .ok () else .error (finding undeclared)

def inspectRow (declared : NameSet) (source : String) (gathered : List String) :
    List (Symbol × Targets) → Except Finding (List String)
  | [] => .ok gathered
  | (x, targets) :: rest =>
    if targets.toList.isEmpty then .error (.noDestination source x)
    else inspectRow declared source (gathered ++ targets.toList.filter (· ∉ declared)) rest

def inspectRows (declared : NameSet) (gathered : List String) :
    List (String × OrderedMap Symbol Targets) → Except Finding (List String)
  | [] => .ok gathered
  | (source, row) :: rest => do
    let gathered ← inspectRow declared source gathered row.entries
    inspectRows declared gathered rest

def inspectDestinations (s : Spec) : Except Finding Unit := do
  let gathered ← inspectRows (NameSet.ofList s.states) [] s.delta.entries
  if gathered.isEmpty then return () else throw (.undeclaredDestinations (sortOnce gathered))

def Check.inspect (s : Spec) : Check → Except Finding Unit
  | states => s.inspectStates
  | initial => s.inspectInitial
  | accepting => s.inspectNames .undeclaredAccepting s.accepting
  | sources => s.inspectNames .undeclaredSources s.delta.keys
  | destinations => s.inspectDestinations

def inspect (s : Spec) : Option Finding :=
  let findings := Check.all.filterMap fun c =>
    match c.inspect s with
    | .ok () => none
    | .error f => some f
  findings.head?

def verdict : Option Finding → Except Finding Unit
  | none => .ok ()
  | some f => .error f

/-! Repeated names. -/

theorem mem_metAgain_iff (met : NameSet) (l : List String) (x : String) :
    x ∈ metAgain met l ↔ (x ∈ met ∧ x ∈ l) ∨ 2 ≤ l.count x := by
  induction l generalizing met with
  | nil => simp [metAgain]
  | cons y l ih =>
    have hcount : x ∈ l ↔ 1 ≤ l.count x := List.count_pos_iff.symm
    rw [metAgain]
    by_cases hxy : x = y
    · subst hxy
      rw [List.count_cons_self]
      split
      · next hmet => exact iff_of_true List.mem_cons_self (.inl ⟨hmet, List.mem_cons_self⟩)
      · next hmet =>
        rw [ih, hcount]
        simp only [NameSet.mem_insert, true_or, true_and, hmet, false_and, false_or]
        omega
    · rw [List.count_cons_of_ne (Ne.symm hxy), List.mem_cons, or_iff_right hxy]
      split
      · rw [List.mem_cons, or_iff_right hxy, ih]
      · rw [ih, NameSet.mem_insert, or_iff_right hxy]

theorem mem_metAgain_empty_iff (l : List String) (x : String) : x ∈ metAgain ∅ l ↔ x ∈ repeated l := by
  rw [mem_metAgain_iff, mem_repeated_iff, or_iff_right fun h => NameSet.not_mem_empty x h.1]

theorem mem_destutter_iff (l : List String) (x : String) : x ∈ l.destutter (· ≠ ·) ↔ x ∈ l := by
  cases l with
  | nil => rfl
  | cons y l =>
    rw [List.destutter_cons']
    induction l generalizing y with
    | nil => rfl
    | cons z l ih =>
      rw [List.destutter'_cons]
      split
      · rw [List.mem_cons, ih, ← List.mem_cons]
      · next heq =>
        rw [ne_eq, not_not] at heq
        rw [ih, heq]
        simp

theorem pairwise_lt_of_isChain_ne {l : List String} (hsorted : l.Pairwise (· ≤ ·)) (hne : l.IsChain (· ≠ ·)) :
    l.Pairwise (· < ·) := by
  induction l with
  | nil => exact .nil
  | cons x l ih =>
    obtain ⟨hx, hsorted⟩ := List.pairwise_cons.1 hsorted
    cases l with
    | nil => exact List.pairwise_singleton _ x
    | cons y l =>
      obtain ⟨hxy, hne⟩ := List.isChain_cons_cons.1 hne
      have hlt : x < y := String.not_le.1 fun hyx => hxy (String.le_antisymm (hx y List.mem_cons_self) hyx)
      have hrest := ih hsorted hne
      refine List.pairwise_cons.2 ⟨List.forall_mem_cons.2 ⟨hlt, fun z hz => ?_⟩, hrest⟩
      exact String.lt_trans hlt ((List.pairwise_cons.1 hrest).1 z hz)

theorem pairwise_mergeSort_le (names : List String) :
    (names.mergeSort fun x y => decide (x ≤ y)).Pairwise (· ≤ ·) := by
  have htrans (x y z : String) (hxy : decide (x ≤ y) = true) (hyz : decide (y ≤ z) = true) :
      decide (x ≤ z) = true :=
    decide_eq_true (String.le_trans (of_decide_eq_true hxy) (of_decide_eq_true hyz))
  have htotal (x y : String) : (decide (x ≤ y) || decide (y ≤ x)) = true := by
    simpa using String.le_total x y
  exact (List.pairwise_mergeSort htrans htotal names).imp of_decide_eq_true

theorem pairwise_sortOnce (names : List String) : (sortOnce names).Pairwise (· < ·) :=
  pairwise_lt_of_isChain_ne ((pairwise_mergeSort_le names).sublist (List.destutter_sublist _ _))
    (List.isChain_destutter _ _)

theorem sortOnce_eq (names : List String) : sortOnce names = (NameSet.ofList names).names := by
  refine (NameSet.names_ofList_eq (pairwise_sortOnce names) fun x => ?_).symm
  rw [sortOnce, mem_destutter_iff, List.mem_mergeSort]

/-! Destinations. -/

/-- What the entries add to the names gathered, unless one has no destination. -/
def gather (declared : NameSet) (gathered : List String) (entries : List Entry) : Except Finding (List String) :=
  match entries.find? fun e => e.targets.toList.isEmpty with
  | some e => .error (.noDestination e.source e.symbol)
  | none => .ok (gathered ++ (entries.flatMap fun e => e.targets.toList).filter (· ∉ declared))

theorem gather_append (declared : NameSet) (gathered : List String) (first rest : List Entry) :
    gather declared gathered (first ++ rest) =
      (gather declared gathered first).bind fun gathered => gather declared gathered rest := by
  simp only [gather, List.find?_append]
  cases first.find? fun e => e.targets.toList.isEmpty with
  | some e => rfl
  | none =>
    simp only [Option.none_or, Except.bind, List.flatMap_append, List.filter_append, List.append_assoc]

theorem inspectRow_eq (declared : NameSet) (source : String) (gathered : List String)
    (row : List (Symbol × Targets)) :
    inspectRow declared source gathered row =
      gather declared gathered (row.map fun (x, targets) => ⟨source, x, targets⟩) := by
  induction row generalizing gathered with
  | nil => simp [inspectRow, gather]
  | cons entry row ih =>
    obtain ⟨x, targets⟩ := entry
    rw [inspectRow, List.map_cons, ← List.singleton_append, gather_append]
    split
    · next hempty => simp [gather, hempty, Except.bind]
    · next hempty => simp [ih, gather, hempty, Except.bind]

theorem inspectRows_eq (declared : NameSet) (gathered : List String)
    (rows : List (String × OrderedMap Symbol Targets)) :
    inspectRows declared gathered rows = gather declared gathered
      (rows.flatMap fun (source, row) => row.entries.map fun (x, targets) => ⟨source, x, targets⟩) := by
  induction rows generalizing gathered with
  | nil => simp [inspectRows, gather]
  | cons row rows ih =>
    obtain ⟨source, row⟩ := row
    rw [inspectRows, List.flatMap_cons, gather_append, inspectRow_eq]
    apply congrArg (Except.bind _)
    funext gathered
    exact ih gathered

/-! Each check ends as its finding says. -/

variable (s : Spec)

theorem filter_not_mem_ofList (names : List String) :
    names.filter (· ∉ NameSet.ofList s.states) = s.undeclared names := by
  simp only [undeclared, NameSet.mem_ofList]

theorem ite_isEmpty_eq (finding : List String → Finding) (names : List String) :
    (if names.isEmpty then .ok () else .error (finding names)) = verdict (report finding names) := by
  cases names <;> rfl

theorem isEmpty_metAgain_empty (l : List String) : (metAgain ∅ l).isEmpty = (repeated l).isEmpty := by
  rw [Bool.eq_iff_iff, List.isEmpty_iff, List.isEmpty_iff, List.eq_nil_iff_forall_not_mem,
    List.eq_nil_iff_forall_not_mem]
  simp only [mem_metAgain_empty_iff]

theorem names_metAgain_empty (l : List String) :
    (NameSet.ofList (metAgain ∅ l)).names = (NameSet.ofList (repeated l)).names := by
  refine NameSet.names_ofList_eq (NameSet.ofList (repeated l)).ascending fun x => ?_
  rw [NameSet.mem_names, NameSet.mem_ofList, mem_metAgain_empty_iff]

theorem inspectStates_eq : s.inspectStates = verdict s.statesFinding? := by
  have hunfold : s.statesFinding? = if s.states.isEmpty then some .noStates
      else report (fun names => .repeatedStates (NameSet.ofList names).names) (repeated s.states) := rfl
  rw [inspectStates, hunfold]
  split
  · rfl
  · rw [← ite_isEmpty_eq]
    simp only [isEmpty_metAgain_empty, sortOnce_eq, names_metAgain_empty]

theorem inspectInitial_eq : s.inspectInitial = verdict s.initialFinding? := by
  by_cases h : s.initial ∈ s.states <;> simp [inspectInitial, initialFinding?, verdict, h]

theorem inspectNames_eq (finding : List String → Finding) (names : List String) :
    s.inspectNames finding names = verdict (report finding (s.undeclared names)) := by
  rw [← ite_isEmpty_eq, inspectNames, filter_not_mem_ofList]

theorem inspectDestinations_eq : s.inspectDestinations = verdict s.destinationsFinding? := by
  have hrows : inspectRows (NameSet.ofList s.states) [] s.delta.entries =
      gather (NameSet.ofList s.states) [] s.entries := inspectRows_eq _ [] s.delta.entries
  rw [inspectDestinations, hrows, gather, destinationsFinding?]
  cases s.entries.find? fun e => e.targets.toList.isEmpty with
  | some e => rfl
  | none =>
    have hreport := ite_isEmpty_eq (fun names => .undeclaredDestinations (NameSet.ofList names).names)
      (s.undeclared (s.entries.flatMap fun e => e.targets.toList))
    simp only [List.nil_append, filter_not_mem_ofList, sortOnce_eq]
    exact hreport

theorem Check.inspect_eq (c : Check) : c.inspect s = verdict (c.finding? s) := by
  cases c with
  | states => exact s.inspectStates_eq
  | initial => exact s.inspectInitial_eq
  | accepting => exact s.inspectNames_eq .undeclaredAccepting s.accepting
  | sources => exact s.inspectNames_eq .undeclaredSources s.delta.keys
  | destinations => exact s.inspectDestinations_eq

theorem inspect_eq : s.inspect = s.finding? := by
  have hfound (c : Check) : (match c.inspect s with
      | .ok () => none
      | .error f => some f) = c.finding? s := by
    rw [c.inspect_eq]
    cases c.finding? s <;> rfl
  rw [inspect, finding?_eq_findSome?, List.head?_filterMap]
  simp only [hfound]

/-- A specification is refused exactly when a check is violated, and then for what the first violated
check finds: all that is wrong there, or the first entry without a destination. -/
theorem diagnosis_exact :
    s.inspect = s.finding? ∧ (s.finding? = none ↔ ∀ c : Check, c.Holds s) ∧
      (∀ f, s.finding? = some f ↔ f.Reports s) ∧
      ∀ fault, s.toAutomaton = .error fault ↔ ∃ f : Finding, f.Reports s ∧ fault = .finding f := by
  refine ⟨s.inspect_eq, s.finding?_eq_none_iff_holds, s.finding?_eq_some_iff, fun fault => ?_⟩
  simp only [← finding?_eq_some_iff]
  cases hfinding : s.finding? with
  | none => simp [toAutomaton_of_coherent (s.finding?_eq_none_iff.1 hfinding)]
  | some f => simp [toAutomaton_of_finding hfinding, eq_comm]

end EpsilonAutomata.Spec
