import EpsilonAutomata.Catalogue
import EpsilonAutomata.Proofs.Denotation
import EpsilonAutomata.Proofs.Drawing
import EpsilonAutomata.Proofs.Subsets
import Mathlib

/-! The built-in examples are read from their texts, and accept what their names say. Over 0 and 1 each of
them only ever holds a few sets of states, its phases. A phase is known by a word that leads to it; a digit
behind that word leads to the set that the word of another phase leads to, and tells as much about the
language as that word does. -/

namespace EpsilonAutomata

namespace Text

theorem ofLines_cons (line : String) (lines : List String) :
    ofLines (line :: lines) = line ++ "\n" ++ ofLines lines := by
  rw [ofLines, List.map_cons, String.join_cons]
  rfl

theorem toList_ofLines (lines : List String) :
    (ofLines lines).toList = lines.flatMap fun line => line.toList ++ ['\n'] := by
  induction lines with
  | nil => rfl
  | cons line lines ih =>
    rw [ofLines_cons, String.toList_append, String.toList_append, ih]
    rfl

theorem utf8ByteSize_ofLines (lines : List String) :
    (ofLines lines).utf8ByteSize = (lines.map fun line => line.utf8ByteSize + 1).sum := by
  induction lines with
  | nil => rfl
  | cons line lines ih =>
    rw [ofLines_cons, String.utf8ByteSize_append, String.utf8ByteSize_append, ih]
    rfl

end Text

theorem Spec.read_ofLines {lines : List String}
    (hsize : (lines.map fun line => line.utf8ByteSize + 1).sum ≤ sizeLimit) :
    read (Text.ofLines lines) =
      (ofJson (lines.flatMap fun line => line.toList ++ ['\n'])).mapError .json := by
  rw [read, Text.utf8ByteSize_ofLines, if_neg (not_lt.2 hsize), Text.toList_ofLines]

theorem Automaton.read_eq_bind (text : String) :
    Automaton.read text = (Spec.read text).bind Spec.toAutomaton := by
  rw [Automaton.read]
  cases Spec.read text <;> rfl

namespace Catalogue

def zero : Symbol := .ofKey "0"
def one : Symbol := .ofKey "1"

def digits : List Symbol := [zero, one]

def Binary (w : Word) : Prop := ∀ x ∈ w, x ∈ digits

theorem zero_ne_one : zero ≠ one := by decide

theorem forall_digits {P : Symbol → Prop} (hzero : P zero) (hone : P one) : ∀ x ∈ digits, P x := by
  simp [digits, hzero, hone]

@[simp] theorem binary_nil : Binary [] := by simp [Binary]

@[simp] theorem binary_zero_cons (w : Word) : Binary (zero :: w) ↔ Binary w := by simp [Binary, digits]

@[simp] theorem binary_one_cons (w : Word) : Binary (one :: w) ↔ Binary w := by simp [Binary, digits]

/-- The phases of an automaton over 0 and 1, in step with a language of words over 0 and 1. -/
structure Phases (a : Automaton) {Φ : Type} (word : Φ → Word) (next : Φ → Symbol → Option Φ)
    (L : Word → Prop) : Prop where
  starts : ∃ φ, word φ = []
  -- Behind one more digit the run holds what the next phase holds, or nothing.
  after_eq : ∀ φ, ∀ x ∈ digits, a.after a.start (word φ ++ [x]) =
    (next φ x).elim ∅ fun ψ => a.after a.start (word ψ)
  accepts_word : ∀ φ, a.accepts (word φ) = true ↔ L (word φ)
  -- The rest of a word decides behind one more digit as it does behind the next phase's word.
  concat_iff : ∀ φ, ∀ x ∈ digits, ∀ w,
    L (word φ ++ x :: w) ↔ ∃ ψ, next φ x = some ψ ∧ L (word ψ ++ w)
  binary : ∀ w, L w → Binary w

namespace Phases
variable {a : Automaton} {Φ : Type} {word : Φ → Word} {next : Φ → Symbol → Option Φ}
  {L : Word → Prop}

theorem accepts_append_iff (h : Phases a word next L) (φ : Φ) {w : Word} (hw : Binary w) :
    a.accepts (word φ ++ w) = true ↔ L (word φ ++ w) := by
  induction w generalizing φ with
  | nil =>
    rw [List.append_nil]
    exact h.accepts_word φ
  | cons x w ih =>
    have hx : x ∈ digits := hw x List.mem_cons_self
    have hrest : Binary w := fun y hy => hw y (List.mem_cons_of_mem x hy)
    have hread : a.after a.start (word φ ++ x :: w) = a.after (a.after a.start (word φ ++ [x])) w := by
      simp [Automaton.after]
    rw [h.concat_iff φ x hx, Automaton.accepts_eq_acceptsIn, hread, h.after_eq φ x hx]
    cases hnext : next φ x with
    | none =>
      have hdead : a.acceptsIn (a.after ∅ w) = false :=
        Automaton.acceptsIn_of_isEmpty _ (Automaton.isEmpty_after ∅ rfl w)
      simp [hdead]
    | some ψ =>
      have hψ := ih ψ hrest
      rw [Automaton.accepts_eq_acceptsIn, Automaton.after, List.foldl_append] at hψ
      simpa [Automaton.after] using hψ

theorem accepts_iff (h : Phases a word next L) (ha : a.Consistent) (hletters : a.letters = digits)
    {w : Word} (hw : .epsilon ∉ w) : a.accepts w = true ↔ L w := by
  obtain ⟨first, hfirst⟩ := h.starts
  have hiff (hbinary : Binary w) : a.accepts w = true ↔ L w := by
    have happend := h.accepts_append_iff first hbinary
    rwa [hfirst, List.nil_append] at happend
  constructor
  · intro haccepts
    obtain ⟨r, _, hpath⟩ := (a.accepts_iff_exists_path w).1 haccepts
    have hbinary := hpath.mem_letters ha hw
    rw [hletters] at hbinary
    exact (hiff hbinary).1 haccepts
  · intro hL
    exact (hiff (h.binary w hL)).2 hL

end Phases

/-! What the texts of the catalogue say. They are read line by line: to take apart a whole text at once is
much more work for the kernel. -/

def rows (entries : List (String × List (Symbol × Targets))) : OrderedMap String (OrderedMap Symbol Targets) :=
  .ofList (entries.map fun (source, row) => (source, .ofList row))

def sample : Spec where
  states := ["q0", "q2", "q3", "q4"]
  alphabet := [zero, one, .epsilon]
  delta := rows [
    ("q0", [(zero, .many ["q2", "q3", "q4"]), (one, .one "q4"), (.epsilon, .one "q4")]),
    ("q2", [(one, .many ["q2", "q3", "q4"])]),
    ("q3", []),
    ("q4", [(one, .many ["q2", "q0"])])]
  initial := "q0"
  accepting := ["q4"]

def endsWithZeroOne : Spec where
  states := ["q0", "q1", "q2"]
  alphabet := [zero, one]
  delta := rows [
    ("q0", [(zero, .many ["q0", "q1"]), (one, .one "q0")]),
    ("q1", [(one, .one "q2")]),
    ("q2", [])]
  initial := "q0"
  accepting := ["q2"]

def evenZeros : Spec where
  states := ["even", "odd"]
  alphabet := [zero, one]
  delta := rows [
    ("even", [(zero, .one "odd"), (one, .one "even")]),
    ("odd", [(zero, .one "even"), (one, .one "odd")])]
  initial := "even"
  accepting := ["even"]

def multiplesOfThree : Spec where
  states := ["r0", "r1", "r2"]
  alphabet := [zero, one]
  delta := rows [
    ("r0", [(zero, .one "r0"), (one, .one "r1")]),
    ("r1", [(zero, .one "r2"), (one, .one "r0")]),
    ("r2", [(zero, .one "r1"), (one, .one "r2")])]
  initial := "r0"
  accepting := ["r0"]

def zerosThenOnes : Spec where
  states := ["q0", "q1", "q2"]
  alphabet := [zero, one, .epsilon]
  delta := rows [
    ("q0", [(zero, .one "q0"), (.epsilon, .one "q1")]),
    ("q1", [(one, .one "q1"), (.epsilon, .one "q2")]),
    ("q2", [])]
  initial := "q0"
  accepting := ["q2"]

def specs : List (String × Spec) := [
  ("Sample epsilon-NFA", sample),
  ("Ends with 01", endsWithZeroOne),
  ("Even number of zeros", evenZeros),
  ("Binary multiples of three", multiplesOfThree),
  ("Zeros then ones", zerosThenOnes)]

theorem read_texts :
    texts.map (fun t => (t.1, Spec.read (Text.ofLines t.2))) = specs.map fun p => (p.1, .ok p.2) := by
  have hsize : ∀ t ∈ texts, (t.2.map fun line => line.utf8ByteSize + 1).sum ≤ Spec.sizeLimit := by
    decide +kernel
  have hparsed : texts.map (fun t =>
      (t.1, (Spec.ofJson (t.2.flatMap fun line => line.toList ++ ['\n'])).mapError SpecFault.json)) =
        specs.map fun p => (p.1, .ok p.2) := by
    decide +kernel
  rw [← hparsed]
  exact List.map_congr_left fun t ht => congrArg (Prod.mk t.1) (Spec.read_ofLines (hsize t ht))

theorem coherent_of_mem_specs : ∀ p ∈ specs, p.2.Coherent := by
  have hfinding : ∀ p ∈ specs, p.2.finding? = none := by decide +kernel
  exact fun p hp => p.2.finding?_eq_none_iff.1 (hfinding p hp)

theorem letters_of_mem_specs : ∀ p ∈ specs, p.2.parts.letters = digits := by decide +kernel

theorem examples_eq : examples = specs.map fun p => ⟨p.1, p.2.parts⟩ := by
  have hread : examples = (texts.map fun t => (t.1, Spec.read (Text.ofLines t.2))).filterMap
      fun r => (r.2.bind Spec.toAutomaton).toOption.map fun a => ⟨r.1, a⟩ := by
    unfold examples
    rw [List.filterMap_map]
    apply List.filterMap_congr
    rintro ⟨name, lines⟩ _
    simp only [Automaton.read_eq_bind]
    rfl
  rw [hread, read_texts, List.filterMap_map, ← List.filterMap_eq_map]
  refine List.filterMap_congr fun p hp => ?_
  have hparts := Spec.toAutomaton_of_coherent (coherent_of_mem_specs p hp)
  simp [hparts, Except.toOption, Except.bind]

theorem byName_of_mem {name : String} {s : Spec} (h : (name, s) ∈ specs) :
    byName name = .ok ⟨name, s.parts⟩ := by
  have hnames : (specs.map fun p => p.1.toLower).Nodup := by decide +kernel
  have hnodup : (examples.map fun e => e.name.toLower).Nodup := by
    rw [examples_eq, List.map_map]
    exact hnames
  have hmem : ⟨name, s.parts⟩ ∈ examples := by
    rw [examples_eq]
    exact List.mem_map.2 ⟨(name, s), h, rfl⟩
  have hfind := (find?_eq_some_iff_of_nodup hnodup name.toLower ⟨name, s.parts⟩).2 ⟨hmem, rfl⟩
  rw [byName, hfind]
  rfl

/-- The example of this name accepts the words of a language, among those without epsilon. -/
def Recognises (name : String) (L : Word → Prop) : Prop :=
  ∃ e, byName name = .ok e ∧ ∀ w : Word, .epsilon ∉ w → (e.automaton.accepts w = true ↔ L w)

theorem recognises_of_phases {name : String} {s : Spec} (hname : (name, s) ∈ specs) {Φ : Type}
    {word : Φ → Word} {next : Φ → Symbol → Option Φ} {L : Word → Prop}
    (h : Phases s.parts word next L) : Recognises name L := by
  have ha : s.parts.Consistent := (Spec.wellFormed_parts (coherent_of_mem_specs _ hname)).toConsistent
  have hletters : s.parts.letters = digits := letters_of_mem_specs _ hname
  exact ⟨_, byName_of_mem hname, fun w hw => h.accepts_iff ha hletters hw⟩

/-! Two zeros in a row. -/

def NoZeroPair (w : Word) : Prop := Binary w ∧ ¬ [zero, zero] <:+: w

theorem noZeroPair_one_cons (w : Word) : NoZeroPair (one :: w) ↔ NoZeroPair w := by
  simp [NoZeroPair, List.infix_cons_iff, zero_ne_one]

theorem not_noZeroPair_zero_zero_cons (w : Word) : ¬ NoZeroPair (zero :: zero :: w) := by
  simp [NoZeroPair, List.infix_cons_iff]

theorem noZeroPair_zero_one_cons (w : Word) : NoZeroPair (zero :: one :: w) ↔ NoZeroPair w := by
  simp [NoZeroPair, List.infix_cons_iff, zero_ne_one]

inductive SamplePhase where
  | start
  | afterZero
  | afterOne
  | afterOnes

namespace SamplePhase

def word : SamplePhase → Word
  | start => []
  | afterZero => [zero]
  | afterOne => [one]
  | afterOnes => [one, one]

def next (φ : SamplePhase) (x : Symbol) : Option SamplePhase :=
  match φ with
  | start => if x = zero then some afterZero else some afterOne
  | afterZero => if x = zero then none else some afterOnes
  | afterOne => if x = zero then some afterZero else some afterOnes
  | afterOnes => if x = zero then some afterZero else some afterOnes

theorem phases : Phases sample.parts word next NoZeroPair where
  starts := ⟨start, rfl⟩
  after_eq φ := by cases φ <;> exact forall_digits (by cbv) (by cbv)
  accepts_word φ := by
    have haccepts : sample.parts.accepts φ.word = true := by cases φ <;> cbv
    have hmem : NoZeroPair φ.word := by
      cases φ <;> simp [word, NoZeroPair, List.infix_cons_iff, zero_ne_one]
    exact iff_of_true haccepts hmem
  concat_iff φ := by
    cases φ <;> refine forall_digits (fun w => ?_) (fun w => ?_)
    all_goals simp [word, next, zero_ne_one.symm, noZeroPair_one_cons, not_noZeroPair_zero_zero_cons,
      noZeroPair_zero_one_cons]
  binary _ h := h.1

end SamplePhase

/-! The last two symbols. -/

def EndsWithZeroOne (w : Word) : Prop := Binary w ∧ [zero, one] <:+ w

inductive EndPhase where
  | other
  | afterZero
  | afterZeroOne

namespace EndPhase

def word : EndPhase → Word
  | other => []
  | afterZero => [zero]
  | afterZeroOne => [zero, one]

def next (φ : EndPhase) (x : Symbol) : Option EndPhase :=
  match φ with
  | other => if x = zero then some afterZero else some other
  | afterZero => if x = zero then some afterZero else some afterZeroOne
  | afterZeroOne => if x = zero then some afterZero else some other

theorem phases : Phases endsWithZeroOne.parts word next EndsWithZeroOne where
  starts := ⟨other, rfl⟩
  after_eq φ := by cases φ <;> exact forall_digits (by cbv) (by cbv)
  accepts_word φ := by
    cases φ
    · exact iff_of_false (by cbv; decide) (by simp [word, EndsWithZeroOne])
    · exact iff_of_false (by cbv; decide) (by simp [word, EndsWithZeroOne, List.suffix_cons_iff])
    · exact iff_of_true (by cbv) (by simp [word, EndsWithZeroOne])
  concat_iff φ := by
    cases φ <;> refine forall_digits (fun w => ?_) (fun w => ?_)
    all_goals simp [word, next, EndsWithZeroOne, List.suffix_cons_iff, zero_ne_one, zero_ne_one.symm]
  binary _ h := h.1

end EndPhase

/-! How often zero is read. -/

def EvenZeros (w : Word) : Prop := Binary w ∧ Even (w.count zero)

inductive Parity where
  | even
  | odd

namespace Parity

def word : Parity → Word
  | even => []
  | odd => [zero]

def next (φ : Parity) (x : Symbol) : Option Parity :=
  match φ with
  | even => if x = zero then some odd else some even
  | odd => if x = zero then some even else some odd

theorem phases : Phases evenZeros.parts word next EvenZeros where
  starts := ⟨even, rfl⟩
  after_eq φ := by cases φ <;> exact forall_digits (by cbv) (by cbv)
  accepts_word φ := by
    cases φ
    · exact iff_of_true (by cbv) (by simp [word, EvenZeros])
    · exact iff_of_false (by cbv; decide) (by simp [word, EvenZeros])
  concat_iff φ := by
    cases φ <;> refine forall_digits (fun w => ?_) (fun w => ?_)
    all_goals simp [word, next, EvenZeros, zero_ne_one.symm, parity_simps]
  binary _ h := h.1

end Parity

/-! The remainder of a binary numeral. -/

def valueFrom (n : Nat) (w : Word) : Nat := w.foldl (fun n x => 2 * n + if x = one then 1 else 0) n

/-- The number that a word over 0 and 1 writes, most significant digit first. -/
def value (w : Word) : Nat := valueFrom 0 w

theorem valueFrom_zero_cons (n : Nat) (w : Word) : valueFrom n (zero :: w) = valueFrom (2 * n) w := rfl

theorem valueFrom_one_cons (n : Nat) (w : Word) : valueFrom n (one :: w) = valueFrom (2 * n + 1) w := rfl

theorem three_dvd_valueFrom_congr {m n : Nat} (h : m ≡ n [MOD 3]) (w : Word) :
    3 ∣ valueFrom m w ↔ 3 ∣ valueFrom n w := by
  induction w generalizing m n with
  | nil => exact h.dvd_iff (Nat.dvd_refl 3)
  | cons x w ih => exact ih ((h.mul_left 2).add_right _)

theorem three_dvd_valueFrom_add_three (n : Nat) (w : Word) :
    3 ∣ valueFrom (n + 3) w ↔ 3 ∣ valueFrom n w :=
  three_dvd_valueFrom_congr (Nat.add_mod_right n 3) w

def MultipleOfThree (w : Word) : Prop := Binary w ∧ 3 ∣ value w

inductive Remainder where
  | zero
  | one
  | two

namespace Remainder

def word : Remainder → Word
  | .zero => []
  | .one => [Catalogue.one]
  | .two => [Catalogue.one, Catalogue.zero]

def next (φ : Remainder) (x : Symbol) : Option Remainder :=
  match φ with
  | .zero => if x = Catalogue.zero then some .zero else some .one
  | .one => if x = Catalogue.zero then some .two else some .zero
  | .two => if x = Catalogue.zero then some .one else some .two

theorem phases : Phases multiplesOfThree.parts word next MultipleOfThree where
  starts := ⟨.zero, rfl⟩
  after_eq φ := by cases φ <;> exact forall_digits (by cbv) (by cbv)
  accepts_word φ := by
    cases φ
    · exact iff_of_true (by cbv) (by simp [word, MultipleOfThree, value, valueFrom])
    · exact iff_of_false (by cbv; decide) (by simp [word, MultipleOfThree, value, valueFrom])
    · exact iff_of_false (by cbv; decide)
        (by simp [word, MultipleOfThree, value, valueFrom, zero_ne_one])
  concat_iff φ := by
    cases φ <;> refine forall_digits (fun w => ?_) (fun w => ?_)
    all_goals simp [word, next, MultipleOfThree, value, zero_ne_one.symm, valueFrom_zero_cons,
      valueFrom_one_cons, three_dvd_valueFrom_add_three]
  binary _ h := h.1

end Remainder

/-! Two blocks. -/

def ZerosThenOnes (w : Word) : Prop := ∃ m n, w = List.replicate m zero ++ List.replicate n one

theorem zerosThenOnes_zero_cons (w : Word) : ZerosThenOnes (zero :: w) ↔ ZerosThenOnes w := by
  constructor
  · rintro ⟨m, n, h⟩
    cases m with
    | zero => cases n <;> simp [List.replicate_succ, zero_ne_one] at h
    | succ m => exact ⟨m, n, by simpa [List.replicate_succ] using h⟩
  · rintro ⟨m, n, rfl⟩
    exact ⟨m + 1, n, rfl⟩

theorem zerosThenOnes_one_cons (w : Word) :
    ZerosThenOnes (one :: w) ↔ ∃ n, w = List.replicate n one := by
  constructor
  · rintro ⟨m, n, h⟩
    cases m with
    | zero =>
      cases n with
      | zero => simp at h
      | succ n => exact ⟨n, by simpa [List.replicate_succ] using h⟩
    | succ m => simp [List.replicate_succ, zero_ne_one.symm] at h
  · rintro ⟨n, rfl⟩
    exact ⟨0, n + 1, rfl⟩

theorem not_zerosThenOnes_one_zero_cons (w : Word) : ¬ ZerosThenOnes (one :: zero :: w) := by
  rw [zerosThenOnes_one_cons]
  rintro ⟨n, h⟩
  cases n <;> simp [List.replicate_succ, zero_ne_one] at h

theorem zerosThenOnes_one_one_cons (w : Word) :
    ZerosThenOnes (one :: one :: w) ↔ ZerosThenOnes (one :: w) := by
  rw [zerosThenOnes_one_cons, zerosThenOnes_one_cons]
  constructor
  · rintro ⟨n, h⟩
    cases n with
    | zero => simp at h
    | succ n => exact ⟨n, by simpa [List.replicate_succ] using h⟩
  · rintro ⟨n, rfl⟩
    exact ⟨n + 1, rfl⟩

inductive Block where
  | zeros
  | ones

namespace Block

def word : Block → Word
  | zeros => []
  | ones => [one]

def next (φ : Block) (x : Symbol) : Option Block :=
  match φ with
  | zeros => if x = zero then some zeros else some ones
  | ones => if x = zero then none else some ones

theorem phases : Phases zerosThenOnes.parts word next ZerosThenOnes where
  starts := ⟨zeros, rfl⟩
  after_eq φ := by cases φ <;> exact forall_digits (by cbv) (by cbv)
  accepts_word φ := by
    cases φ
    · exact iff_of_true (by cbv) ⟨0, 0, rfl⟩
    · exact iff_of_true (by cbv) ⟨0, 1, rfl⟩
  concat_iff φ := by
    cases φ <;> refine forall_digits (fun w => ?_) (fun w => ?_)
    all_goals simp [word, next, zero_ne_one.symm, zerosThenOnes_zero_cons, not_zerosThenOnes_one_zero_cons,
      zerosThenOnes_one_one_cons]
  binary := by
    rintro _ ⟨m, n, rfl⟩ x hx
    obtain hx | hx := List.mem_append.1 hx
    · simp [List.eq_of_mem_replicate hx, digits]
    · simp [List.eq_of_mem_replicate hx, digits]

end Block

theorem examples_recognise :
    Recognises "Sample epsilon-NFA" (fun w => Binary w ∧ ¬ [zero, zero] <:+: w) ∧
      Recognises "Ends with 01" (fun w => Binary w ∧ [zero, one] <:+ w) ∧
      Recognises "Even number of zeros" (fun w => Binary w ∧ Even (w.count zero)) ∧
      Recognises "Binary multiples of three" (fun w => Binary w ∧ 3 ∣ value w) ∧
      Recognises "Zeros then ones"
        (fun w => ∃ m n, w = List.replicate m zero ++ List.replicate n one) := by
  refine ⟨?_, ?_, ?_, ?_, ?_⟩
  · exact recognises_of_phases (by simp [specs]) SamplePhase.phases
  · exact recognises_of_phases (by simp [specs]) EndPhase.phases
  · exact recognises_of_phases (by simp [specs]) Parity.phases
  · exact recognises_of_phases (by simp [specs]) Remainder.phases
  · exact recognises_of_phases (by simp [specs]) Block.phases

end Catalogue
end EpsilonAutomata
