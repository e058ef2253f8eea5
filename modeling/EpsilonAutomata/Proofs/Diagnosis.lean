import EpsilonAutomata.Proofs.Analysis

/-! What is reported of a specification that is refused. Of the checks in their order the first that is
violated is reported, with exactly the names or the entry that violate it: repeated names and undeclared
destinations ascending and each once, other undeclared names in the order in which they are listed. -/

namespace EpsilonAutomata

theorem NameSet.names_ofList_eq {l names : List String} (hascending : names.Pairwise (· < ·))
    (hmem : ∀ x, x ∈ names ↔ x ∈ l) : (NameSet.ofList l).names = names := by
  have hset : NameSet.ofList l = ⟨names, hascending⟩ :=
    NameSet.ext fun x => (NameSet.mem_ofList l x).trans (hmem x).symm
  exact congrArg NameSet.names hset

theorem NameSet.ne_nil_and_names_eq_iff (l names : List String) :
    (l ≠ [] ∧ (NameSet.ofList l).names = names) ↔
      names ≠ [] ∧ names.Pairwise (· < ·) ∧ ∀ x, x ∈ names ↔ x ∈ l := by
  have hnil (hmem : ∀ x, x ∈ names ↔ x ∈ l) : l ≠ [] ↔ names ≠ [] := by
    simp only [Ne, List.eq_nil_iff_forall_not_mem, hmem]
  constructor
  · rintro ⟨hne, rfl⟩
    have hmem (x : String) : x ∈ (NameSet.ofList l).names ↔ x ∈ l := NameSet.mem_ofList l x
    exact ⟨(hnil hmem).1 hne, (NameSet.ofList l).ascending, hmem⟩
  · rintro ⟨hne, hascending, hmem⟩
    exact ⟨(hnil hmem).2 hne, NameSet.names_ofList_eq hascending hmem⟩

namespace Spec

theorem mem_repeated_iff (l : List String) (x : String) : x ∈ repeated l ↔ 2 ≤ l.count x := by
  induction l with
  | nil => simp [repeated]
  | cons y l ih =>
    rw [repeated]
    by_cases hxy : x = y
    · subst hxy
      rw [List.count_cons_self]
      split
      · next hx =>
        have hcount : 0 < l.count x := List.count_pos_iff.2 hx
        exact iff_of_true List.mem_cons_self (Nat.succ_le_succ hcount)
      · next hx =>
        have hcount : l.count x = 0 := List.count_eq_zero.2 hx
        rw [ih, hcount]
        decide
    · rw [List.count_cons_of_ne (Ne.symm hxy), ← ih]
      split
      · exact List.mem_cons.trans (or_iff_right hxy)
      · exact Iff.rfl

inductive Check where
  | states
  | initial
  | accepting
  | sources
  | destinations
deriving DecidableEq

namespace Check

def rank : Check → Nat
  | states => 0
  | initial => 1
  | accepting => 2
  | sources => 3
  | destinations => 4

def Holds (s : Spec) : Check → Prop
  | states => s.states ≠ [] ∧ s.states.Nodup
  | initial => s.initial ∈ s.states
  | accepting => ∀ p ∈ s.accepting, p ∈ s.states
  | sources => ∀ p ∈ s.delta.keys, p ∈ s.states
  | destinations => (∀ e ∈ s.entries, e.targets.toList ≠ []) ∧
      ∀ e ∈ s.entries, ∀ p ∈ e.targets.toList, p ∈ s.states

def finding? (s : Spec) : Check → Option Finding
  | states => s.statesFinding?
  | initial => s.initialFinding?
  | accepting => s.acceptingFinding?
  | sources => s.sourcesFinding?
  | destinations => s.destinationsFinding?

def all : List Check := [states, initial, accepting, sources, destinations]

theorem mem_all (c : Check) : c ∈ all := by cases c <;> decide

theorem pairwise_rank_all : all.Pairwise fun c d => c.rank < d.rank := by decide

theorem finding?_eq_none_iff (s : Spec) (c : Check) : c.finding? s = none ↔ c.Holds s := by
  cases c with
  | states => exact s.statesFinding?_eq_none_iff
  | initial => exact s.initialFinding?_eq_none_iff
  | accepting => exact s.acceptingFinding?_eq_none_iff
  | sources => exact s.sourcesFinding?_eq_none_iff
  | destinations => exact s.destinationsFinding?_eq_none_iff

end Check
end Spec

namespace Finding
open Spec

def check : Finding → Check
  | noStates => .states
  | repeatedStates _ => .states
  | undeclaredInitial _ => .initial
  | undeclaredAccepting _ => .accepting
  | undeclaredSources _ => .sources
  | undeclaredDestinations _ => .destinations
  | noDestination _ _ => .destinations

/-- The finding names all that its check finds wrong, or the first entry without a destination. -/
def Describes (s : Spec) : Finding → Prop
  | noStates => s.states = []
  | repeatedStates names => names ≠ [] ∧ names.Pairwise (· < ·) ∧ ∀ p, p ∈ names ↔ 2 ≤ s.states.count p
  | undeclaredInitial p => p = s.initial ∧ p ∉ s.states
  | undeclaredAccepting names => names ≠ [] ∧ names = s.accepting.filter (· ∉ s.states)
  | undeclaredSources names => names ≠ [] ∧ names = s.delta.keys.filter (· ∉ s.states)
  | undeclaredDestinations names => (∀ e ∈ s.entries, e.targets.toList ≠ []) ∧
      names ≠ [] ∧ names.Pairwise (· < ·) ∧
        ∀ p, p ∈ names ↔ p ∉ s.states ∧ ∃ e ∈ s.entries, p ∈ e.targets.toList
  | noDestination source x => ∃ before targets after,
      s.entries = before ++ ⟨source, x, targets⟩ :: after ∧ targets.toList = [] ∧
        ∀ e ∈ before, e.targets.toList ≠ []

/-- The finding belongs to the first check that is violated and says what is wrong there. -/
structure Reports (s : Spec) (f : Finding) : Prop where
  earlier : ∀ c : Check, c.rank < f.check.rank → c.Holds s
  violated : ¬ f.check.Holds s
  describes : f.Describes s

end Finding

namespace Spec
variable (s : Spec)

def report (finding : List String → Finding) : List String → Option Finding
  | [] => none
  | names => some (finding names)

theorem report_eq_some_iff (finding : List String → Finding) (names : List String) (f : Finding) :
    report finding names = some f ↔ names ≠ [] ∧ finding names = f := by
  cases names <;> simp [report]

theorem statesFinding?_eq_some_iff (f : Finding) :
    s.statesFinding? = some f ↔ f.check = .states ∧ f.Describes s := by
  have hunfold : s.statesFinding? = if s.states.isEmpty then some .noStates
      else report (fun names => .repeatedStates (NameSet.ofList names).names) (repeated s.states) := rfl
  rw [hunfold]
  split
  · next hempty =>
    rw [List.isEmpty_iff] at hempty
    cases f with
    | noStates => simp [Finding.check, Finding.Describes, hempty]
    | repeatedStates names =>
      refine iff_of_false (by simp) ?_
      rintro ⟨_, hne, _, hmem⟩
      obtain ⟨p, hp⟩ := List.exists_mem_of_ne_nil names hne
      simpa [hempty] using (hmem p).1 hp
    | _ => simp [Finding.check]
  · next hne =>
    rw [List.isEmpty_iff] at hne
    rw [report_eq_some_iff]
    cases f with
    | noStates => simp [Finding.Describes, hne]
    | repeatedStates names =>
      rw [Finding.repeatedStates.injEq, NameSet.ne_nil_and_names_eq_iff]
      simp only [Finding.check, Finding.Describes, mem_repeated_iff, true_and]
    | _ => simp [Finding.check]

theorem initialFinding?_eq_some_iff (f : Finding) :
    s.initialFinding? = some f ↔ f.check = .initial ∧ f.Describes s := by
  rw [initialFinding?, Option.ite_none_left_eq_some, Option.some.injEq]
  cases f with
  | undeclaredInitial p =>
    rw [Finding.undeclaredInitial.injEq]
    constructor
    · rintro ⟨hp, rfl⟩
      exact ⟨rfl, rfl, hp⟩
    · rintro ⟨_, rfl, hp⟩
      exact ⟨hp, rfl⟩
  | _ => simp [Finding.check]

theorem undeclared_ne_nil_and_eq_iff (names undeclared : List String) :
    (s.undeclared names ≠ [] ∧ s.undeclared names = undeclared) ↔
      undeclared ≠ [] ∧ undeclared = names.filter (· ∉ s.states) := by
  constructor
  · rintro ⟨hne, rfl⟩
    exact ⟨hne, rfl⟩
  · rintro ⟨hne, rfl⟩
    exact ⟨hne, rfl⟩

theorem acceptingFinding?_eq_some_iff (f : Finding) :
    s.acceptingFinding? = some f ↔ f.check = .accepting ∧ f.Describes s := by
  have hunfold : s.acceptingFinding? = report .undeclaredAccepting (s.undeclared s.accepting) := rfl
  rw [hunfold, report_eq_some_iff]
  cases f with
  | undeclaredAccepting names =>
    rw [Finding.undeclaredAccepting.injEq, undeclared_ne_nil_and_eq_iff]
    simp only [Finding.check, Finding.Describes, true_and]
  | _ => simp [Finding.check]

theorem sourcesFinding?_eq_some_iff (f : Finding) :
    s.sourcesFinding? = some f ↔ f.check = .sources ∧ f.Describes s := by
  have hunfold : s.sourcesFinding? = report .undeclaredSources (s.undeclared s.delta.keys) := rfl
  rw [hunfold, report_eq_some_iff]
  cases f with
  | undeclaredSources names =>
    rw [Finding.undeclaredSources.injEq, undeclared_ne_nil_and_eq_iff]
    simp only [Finding.check, Finding.Describes, true_and]
  | _ => simp [Finding.check]

def stranded? (s : Spec) : Option Entry := s.entries.find? fun e => e.targets.toList.isEmpty

theorem stranded?_eq_none_iff : s.stranded? = none ↔ ∀ e ∈ s.entries, e.targets.toList ≠ [] := by
  simp [stranded?, List.find?_eq_none]

theorem describes_noDestination_iff (source : String) (x : Symbol) :
    (Finding.noDestination source x).Describes s ↔ ∃ targets, s.stranded? = some ⟨source, x, targets⟩ := by
  simp only [Finding.Describes, stranded?, List.find?_eq_some_iff_append, List.isEmpty_iff, Bool.not_eq_true',
    List.isEmpty_eq_false_iff]
  constructor
  · rintro ⟨before, targets, after, hentries, htargets, hbefore⟩
    exact ⟨targets, htargets, before, after, hentries, hbefore⟩
  · rintro ⟨targets, htargets, before, after, hentries, hbefore⟩
    exact ⟨before, targets, after, hentries, htargets, hbefore⟩

theorem mem_undeclared_destinations_iff (p : String) :
    p ∈ s.undeclared (s.entries.flatMap fun e => e.targets.toList) ↔
      p ∉ s.states ∧ ∃ e ∈ s.entries, p ∈ e.targets.toList := by
  rw [undeclared, List.mem_filter, List.mem_flatMap, decide_eq_true_eq, and_comm]

theorem destinationsFinding?_eq_some_iff (f : Finding) :
    s.destinationsFinding? = some f ↔ f.check = .destinations ∧ f.Describes s := by
  cases hstranded : s.stranded? with
  | some e =>
    have hfinding : s.destinationsFinding? = some (.noDestination e.source e.symbol) := by
      rw [destinationsFinding?, ← stranded?, hstranded]
    rw [hfinding, Option.some.injEq]
    cases f with
    | noDestination source x =>
      rw [describes_noDestination_iff, hstranded, Finding.noDestination.injEq]
      constructor
      · rintro ⟨rfl, rfl⟩
        exact ⟨rfl, e.targets, rfl⟩
      · rintro ⟨_, targets, heq⟩
        cases heq
        exact ⟨rfl, rfl⟩
    | undeclaredDestinations names =>
      refine iff_of_false (by simp) ?_
      rintro ⟨_, hentries, _⟩
      simp [s.stranded?_eq_none_iff.2 hentries] at hstranded
    | _ => simp [Finding.check]
  | none =>
    have hfinding : s.destinationsFinding? = report
        (fun names => .undeclaredDestinations (NameSet.ofList names).names)
        (s.undeclared (s.entries.flatMap fun e => e.targets.toList)) := by
      rw [destinationsFinding?, ← stranded?, hstranded]
      rfl
    rw [hfinding, report_eq_some_iff]
    cases f with
    | noDestination source x => simp [describes_noDestination_iff, hstranded]
    | undeclaredDestinations names =>
      rw [Finding.undeclaredDestinations.injEq, NameSet.ne_nil_and_names_eq_iff]
      simp only [mem_undeclared_destinations_iff, Finding.check, Finding.Describes, true_and]
      exact (and_iff_right (s.stranded?_eq_none_iff.1 hstranded)).symm
    | _ => simp [Finding.check]

theorem Check.finding?_eq_some_iff (c : Check) (f : Finding) :
    c.finding? s = some f ↔ f.check = c ∧ f.Describes s := by
  cases c with
  | states => exact s.statesFinding?_eq_some_iff f
  | initial => exact s.initialFinding?_eq_some_iff f
  | accepting => exact s.acceptingFinding?_eq_some_iff f
  | sources => exact s.sourcesFinding?_eq_some_iff f
  | destinations => exact s.destinationsFinding?_eq_some_iff f

theorem finding?_eq_findSome? : s.finding? = Check.all.findSome? (Check.finding? s) := by
  have hcons (c : Check) (rest : List Check) : (c :: rest).findSome? (Check.finding? s) =
      (c.finding? s <|> rest.findSome? (Check.finding? s)) := by
    rw [List.findSome?_cons]
    cases c.finding? s <;> rfl
  rw [Check.all, hcons, hcons, hcons, hcons, List.findSome?_singleton]
  rfl

theorem finding?_eq_none_iff_holds : s.finding? = none ↔ ∀ c : Check, c.Holds s := by
  simp only [finding?_eq_findSome?, List.findSome?_eq_none_iff, Check.finding?_eq_none_iff]
  exact ⟨fun h c => h c c.mem_all, fun h c _ => h c⟩

theorem finding?_eq_some_iff (f : Finding) : s.finding? = some f ↔ f.Reports s := by
  rw [finding?_eq_findSome?, List.findSome?_eq_some_iff]
  constructor
  · rintro ⟨before, c, after, hall, hfound, hnone⟩
    obtain ⟨rfl, hdescribes⟩ := (c.finding?_eq_some_iff s f).1 hfound
    refine ⟨fun d hd => ?_, fun hholds => ?_, hdescribes⟩
    · have hmem : d ∈ before ++ f.check :: after := hall ▸ d.mem_all
      have hordered := hall ▸ Check.pairwise_rank_all
      obtain ⟨_, hbehind, _⟩ := List.pairwise_append.1 hordered
      rcases List.mem_append.1 hmem with hd' | hd'
      · exact (d.finding?_eq_none_iff s).1 (hnone d hd')
      · rcases List.mem_cons.1 hd' with rfl | hd'
        · exact absurd hd (Nat.lt_irrefl _)
        · exact absurd hd (Nat.lt_asymm ((List.pairwise_cons.1 hbehind).1 d hd'))
    · rw [(f.check.finding?_eq_none_iff s).2 hholds] at hfound
      cases hfound
  · intro h
    obtain ⟨before, after, hall⟩ := List.append_of_mem f.check.mem_all
    have hordered := hall ▸ Check.pairwise_rank_all
    refine ⟨before, f.check, after, hall, (f.check.finding?_eq_some_iff s f).2 ⟨rfl, h.describes⟩, fun d hd => ?_⟩
    have hrank : d.rank < f.check.rank := (List.pairwise_append.1 hordered).2.2 d hd _ List.mem_cons_self
    exact (d.finding?_eq_none_iff s).2 (h.earlier d hrank)

end Spec
end EpsilonAutomata
