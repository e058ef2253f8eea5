import EpsilonAutomata.Proofs.Export
import EpsilonAutomata.Proofs.WrittenJson
import Mathlib.Data.String.Basic

/-! Specifications and automata through their written form and back. Each part of a specification is read as
the part that was written, from single destinations up to the object of five fields; an automaton comes
back through its specification, and its text no longer changes. -/

namespace EpsilonAutomata

open Json

theorem reads_targets (depth : Nat) (targets : Targets) :
    Reads Spec.targets (targets.write depth) targets := by
  cases targets with
  | one state => exact (reads_shape_text Spec.targetDepth state).check rfl
  -- the list itself takes one of the brackets that may be open
  | many states => exact (reads_shape_texts 123 depth states).check rfl

namespace Spec

theorem reads_row (depth : Nat) (row : OrderedMap Symbol Targets) :
    Reads rowReader (writeRow depth row) row := by
  have hvalue (e : Symbol × Targets) (state : OrderedMap Symbol Targets) :
      Reads (targets.map (state.insert (Symbol.ofKey e.1.key))) (e.2.write (depth + 1))
        (state.insert e.1 e.2) := by
    rw [Symbol.ofKey_key]
    exact (reads_targets (depth + 1) e.2).map _
  have h := reads_object depth
    (fun (row : OrderedMap Symbol Targets) key => targets.map (row.insert (Symbol.ofKey key)))
    (fun e => e.1.key) (fun e => e.2.write (depth + 1)) (fun row e => row.insert e.1 e.2) row.entries
    (fun e _ => hvalue e) ∅
  rwa [row.foldl_insert_entries] at h

theorem reads_delta (depth : Nat) (delta : OrderedMap String (OrderedMap Symbol Targets)) :
    Reads deltaReader (writeDelta depth delta) delta := by
  have hvalue (e : String × OrderedMap Symbol Targets) (state : OrderedMap String (OrderedMap Symbol Targets)) :
      Reads (rowReader.map (state.insert e.1)) (writeRow (depth + 1) e.2) (state.insert e.1 e.2) :=
    (reads_row (depth + 1) e.2).map _
  have h := reads_object depth
    (fun (delta : OrderedMap String (OrderedMap Symbol Targets)) key => rowReader.map (delta.insert key))
    Prod.fst (fun e => writeRow (depth + 1) e.2) (fun delta e => delta.insert e.1 e.2) delta.entries
    (fun e _ => hvalue e) ∅
  rwa [delta.foldl_insert_entries] at h

theorem reads_texts (depth : Nat) (l : List String) :
    Reads texts (writeList depth (l.map writeText)) l := by
  apply reads_list
  rw [List.forall₂_map_left_iff, List.forall₂_same]
  exact fun text _ => reads_text text

theorem reads_symbols (depth : Nat) (l : List Symbol) :
    Reads symbols (writeList depth (l.map fun x => writeText x.key)) l := by
  apply reads_list
  rw [List.forall₂_map_left_iff, List.forall₂_same]
  intro x _
  have h := (reads_text x.key).map Symbol.ofKey
  rwa [Symbol.ofKey_key] at h

theorem ofKey?_key (field : Field) : Field.ofKey? field.key = some field := by
  cases field <;> decide

theorem member_field {d next : Draft} (field : Field) {value : Text} (hnew : d.has field = false)
    (hvalue : Reads (fieldReader d field) value next) (rest : Text) :
    (member d).read (writtenTail field.key ++ (':' :: ' ' :: (value ++ rest))) = .ok (next, rest) := by
  have hread := read_keyed hvalue rest
  rw [member, Reader.andThen]
  simp only [textBody_writtenTail, ofKey?_key, hnew]
  exact hread

theorem leads_fields (s : Spec) :
    Leads member Draft.empty [
      ("q", writeList 1 (s.states.map writeText)),
      ("sigma", writeList 1 (s.alphabet.map fun x => writeText x.key)),
      ("delta", writeDelta 1 s.delta),
      ("initial_state", writeText s.initial),
      ("f", writeList 1 (s.accepting.map writeText))]
      ⟨some s.states, some s.alphabet, some s.delta, some s.initial, some s.accepting⟩ :=
  .cons (member_field .states rfl ((reads_texts 1 s.states).map _)) <|
  .cons (member_field .alphabet rfl ((reads_symbols 1 s.alphabet).map _)) <|
  .cons (member_field .delta rfl ((reads_delta 1 s.delta).map _)) <|
  .cons (member_field .initial rfl ((reads_text s.initial).map _)) <|
  .cons (member_field .accepting rfl ((reads_texts 1 s.accepting).map _)) <|
  .nil _

theorem reads_write (s : Spec) : Reads reader s.write s where
  starts := by
    rw [write, writeObject, block_eq]
    exact ⟨'\x7b', _, rfl, rfl, by decide⟩
  read blank rest hblank := by
    have hscalar (rest : Text) : Reader.scalar.read (blank ++ '\x7b' :: rest) = .ok (.object, rest) :=
      scalar_brace blank hblank rest
    rw [write, writeObject, block_eq, List.cons_append]
    simp only [reader, Reader.andThen, hscalar, inObject, Reader.check, members_inside 0 s.leads_fields]
    rfl

theorem ofJson_write_append (s : Spec) {blank : Text} (hblank : ∀ c ∈ blank, isBlank c = true) :
    ofJson (s.write ++ blank) = .ok s := by
  have hskip : skipBlank blank = [] := by
    have happend := skipBlank_append hblank []
    rwa [List.append_nil] at happend
  simp only [ofJson, s.reads_write.read_front blank, hskip]
  rfl

theorem ofJson_write (s : Spec) : ofJson s.write = .ok s := by
  have happend : ofJson (s.write ++ []) = .ok s := s.ofJson_write_append (by simp)
  rwa [List.append_nil] at happend

theorem utf8ByteSize_toJson (s : Spec) : s.toJson.utf8ByteSize = String.utf8Len s.write :=
  String.utf8ByteSize_ofList s.write

theorem ofJson_line (s : Spec) : ofJson (s.toJson ++ "\n").toList = .ok s := by
  have hblank : ∀ c ∈ "\n".toList, isBlank c = true := by simp [isBlank]
  rw [String.toList_append, toJson, String.toList_ofList, s.ofJson_write_append hblank]

theorem ofJson_toJson (s : Spec) : ofJson s.toJson.toList = .ok s := by
  rw [toJson, String.toList_ofList, ofJson_write]

theorem read_of_ofJson {text : String} {s : Spec} (hsize : text.utf8ByteSize ≤ sizeLimit)
    (h : ofJson text.toList = .ok s) : read text = .ok s := by
  rw [read, if_neg (Nat.not_lt.2 hsize), h]
  rfl

/-- Nothing that can be written is lost, whether or not it is the specification of an automaton. -/
theorem read_toJson (s : Spec) (h : s.toJson.utf8ByteSize ≤ sizeLimit) : read s.toJson = .ok s :=
  read_of_ofJson h s.ofJson_toJson

/-- Not to be analysed, but to be written and read: names with quotes, backslashes and controls, states
that are listed twice or not at all, and every form of destinations. -/
def awkward : Spec where
  states := ["a\"b", "\\", "a\"b", "\n\t\x08\x0c\r\x01\x1f/", "ü𝔘"]
  alphabet := [.epsilon, .ofKey "0", .epsilon, .ofKey "\u0000", .ofKey "0"]
  delta := .ofList [
    ("ü𝔘", .ofList [(.ofKey "1", .many []), (.epsilon, .one "")]),
    ("", .empty),
    ("a\"b", .ofList [(.ofKey "\\u0041", .many ["only"]), (.ofKey "0", .many ["\\", "\\", "ü𝔘"])])]
  initial := ""
  accepting := ["x", "x"]

theorem read_toJson_awkward :
    awkward.toJson.utf8ByteSize ≤ sizeLimit ∧ awkward.toAutomaton.isOk = false ∧
      read awkward.toJson = .ok awkward :=
  have hsize : awkward.toJson.utf8ByteSize ≤ sizeLimit := by
    rw [utf8ByteSize_toJson]
    decide +kernel
  ⟨hsize, by decide +kernel, read_toJson awkward hsize⟩

end Spec

namespace Automaton
variable {a : Automaton}

/-- The same automaton with everything in the same order, the rows among each other excepted. -/
structure ListedLike (b a : Automaton) : Prop where
  equiv : b ≈ a
  states : b.states = a.states
  alphabet : b.alphabet = a.alphabet
  initial : b.initial = a.initial
  accepting : b.accepting = a.accepting
  rows : ∀ s, b.delta.find? s = a.delta.find? s

theorem listedLike_arranged (h : a.WellFormed) : a.arranged.ListedLike a where
  equiv := arranged_equiv h
  states := rfl
  alphabet := rfl
  initial := rfl
  accepting := rfl
  rows := find?_arranged h

theorem read_toJson_eq_toAutomaton {s : Spec} (h : s.toJson.utf8ByteSize ≤ Spec.sizeLimit) :
    Automaton.read s.toJson = s.toAutomaton := by
  rw [Automaton.read, Spec.read_of_ofJson h s.ofJson_toJson]

def rewritten (a : Automaton) : Nat → Except SpecFault String
  | 0 => .ok a.toSpec.toJson
  | n + 1 => (a.rewritten n).bind fun text => (Automaton.read text).map fun b => b.toSpec.toJson

theorem rewritten_eq {b : Automaton} (hread : Automaton.read a.toSpec.toJson = .ok b)
    (hsame : b.toSpec = a.toSpec) (n : Nat) : a.rewritten n = .ok a.toSpec.toJson := by
  induction n with
  | zero => rfl
  | succ n ih =>
    rw [rewritten, ih]
    simp only [Except.bind, hread, Except.map, hsame]

/-- An automaton that is written and read again comes back in the order it was written in, and is written
the same way from then on. -/
theorem exists_listedLike_of_toSpec (h : a.defect? = none) (hrows : ∀ s ∈ a.states, s ∈ a.delta.keys) :
    ∃ b, a.toSpec.toAutomaton = .ok b ∧ b.ListedLike a ∧ b.toSpec = a.toSpec ∧
      (a.toSpec.toJson.utf8ByteSize ≤ Spec.sizeLimit →
        Automaton.read a.toSpec.toJson = .ok b ∧ ∀ n, a.rewritten n = .ok a.toSpec.toJson) := by
  have hwell : a.WellFormed := ⟨a.defect?_eq_none_iff.1 h, hrows⟩
  have himport := toAutomaton_toSpec hwell
  have hsame := toSpec_arranged hwell
  refine ⟨a.arranged, himport, listedLike_arranged hwell, hsame, fun hsize => ?_⟩
  have hread : Automaton.read a.toSpec.toJson = .ok a.arranged := by
    rw [read_toJson_eq_toAutomaton hsize, himport]
  exact ⟨hread, rewritten_eq hread hsame⟩

def disarranged : Automaton where
  states := .ofList ["end", "start", "middle"]
  alphabet := .ofList [.ofKey "1", .ofKey "0"]
  delta := .ofList [
    ("start", .ofList [(.ofKey "0", .ofList ["middle", "end"]), (.epsilon, .ofList ["start"])]),
    ("middle", .empty),
    ("end", .ofList [(.ofKey "1", .ofList ["end", "start", "middle"])])]
  initial := "start"
  accepting := .ofList ["middle", "end"]

theorem exists_listedLike_of_toSpec_disarranged :
    disarranged.delta.keys ≠ disarranged.states.toList ∧ .epsilon ∉ disarranged.alphabet ∧
      disarranged.defect? = none ∧ (∀ s ∈ disarranged.states, s ∈ disarranged.delta.keys) ∧
      ∃ b, disarranged.toSpec.toAutomaton = .ok b ∧ b.ListedLike disarranged ∧
        b.toSpec = disarranged.toSpec ∧ Automaton.read disarranged.toSpec.toJson = .ok b ∧
        ∀ n, disarranged.rewritten n = .ok disarranged.toSpec.toJson := by
  have hdefect : disarranged.defect? = none := by decide +kernel
  have hrows : ∀ s ∈ disarranged.states.toList, s ∈ disarranged.delta.keys := by decide +kernel
  have hsize : disarranged.toSpec.toJson.utf8ByteSize ≤ Spec.sizeLimit := by
    rw [Spec.utf8ByteSize_toJson]
    decide +kernel
  obtain ⟨b, himport, hlisted, hsame, htext⟩ := exists_listedLike_of_toSpec hdefect hrows
  exact ⟨by decide +kernel, by decide +kernel, hdefect, hrows, b, himport, hlisted, hsame, htext hsize⟩

end Automaton
end EpsilonAutomata
