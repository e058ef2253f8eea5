import EpsilonAutomata.Files.Specs
import EpsilonAutomata.Proofs.Denotation
import EpsilonAutomata.Proofs.FileTree
import EpsilonAutomata.Proofs.RoundTrip
import Mathlib

/-! Saving what was loaded, and loading it again. The reader takes whatever is written for an automaton but
for one thing: it refuses texts above its limit, and the writer may pass the limit with an automaton whose
own text was shorter. With files this is so in a tree of `Files`, in which no file is kept from being
written and each holds what was last written to it. -/

namespace EpsilonAutomata

namespace Spec

theorem read_of_large {text : String} (h : sizeLimit < text.utf8ByteSize) :
    read text = .error (.tooLarge text.utf8ByteSize) := by
  rw [read, if_pos h]

end Spec

namespace Automaton
variable {a : Automaton}

theorem read_of_large {text : String} (h : Spec.sizeLimit < text.utf8ByteSize) :
    Automaton.read text = .error (.tooLarge text.utf8ByteSize) := by
  rw [Automaton.read, Spec.read_of_large h]

theorem read_toJson_eq (s : Spec) : Automaton.read s.toJson =
    if s.toJson.utf8ByteSize ≤ Spec.sizeLimit then s.toAutomaton
    else .error (.tooLarge s.toJson.utf8ByteSize) := by
  split_ifs with h
  · exact read_toJson_eq_toAutomaton h
  · exact read_of_large (Nat.lt_of_not_le h)

theorem wellFormed_of_read {text : String} (h : Automaton.read text = .ok a) : a.WellFormed := by
  unfold Automaton.read at h
  split at h
  · cases h
  · exact wellFormed_of_toAutomaton h

end Automaton

theorem Editor.read_eq (text : String) :
    Editor.read text = ((Automaton.read text).mapError .spec).map .ofAutomaton := by
  unfold Editor.read Automaton.read
  cases Spec.read text <;> rfl

namespace Files
variable {files : Files} {path : String}

theorem loadSpec_of_read {text : String} (h : files.read path = .ok text) :
    files.loadSpec path = ((Automaton.read text).mapError .spec).map .ofAutomaton := by
  rw [loadSpec, h, ← Editor.read_eq]

theorem saveSpec_eq_ok_iff {files' : Files} {s : Spec} :
    files.saveSpec path s = .ok files' ↔ files.write path s.toJson = .ok files' :=
  mapError_eq_ok_iff _ _ _

end Files

namespace Automaton
variable {a : Automaton}

/-- What was read is written and read again as an equal automaton, through its text or through a file,
as long as the text that is written keeps to the limit of those that are read. Above the limit the text is
still written, and is refused for its size. -/
theorem exists_equiv_of_read {text : String} (h : Automaton.read text = .ok a) :
    ∃ b, b ≈ a ∧ a.toSpec.toAutomaton = .ok b ∧
      (Automaton.read a.toSpec.toJson =
        if a.toSpec.toJson.utf8ByteSize ≤ Spec.sizeLimit then .ok b
        else .error (.tooLarge a.toSpec.toJson.utf8ByteSize)) ∧
      (∀ (files : Files) path, files.isFile [] = false → files.read path = .ok text →
        files.loadSpec path = .ok (.ofAutomaton a) ∧
          ∃ files', files.saveSpec path (Editor.ofAutomaton a).toSpec = .ok files') ∧
      ∀ (files files' : Files) path, files.saveSpec path (Editor.ofAutomaton a).toSpec = .ok files' →
        files'.loadSpec path =
          if a.toSpec.toJson.utf8ByteSize ≤ Spec.sizeLimit then .ok (.ofAutomaton b)
          else .error (.spec (.tooLarge a.toSpec.toJson.utf8ByteSize)) := by
  have hwell := wellFormed_of_read h
  have himport := toAutomaton_toSpec hwell
  have hread := read_toJson_eq a.toSpec
  rw [himport] at hread
  refine ⟨a.arranged, arranged_equiv hwell, himport, hread, ?_, ?_⟩
  · intro files path hroot htext
    have hload : files.loadSpec path = .ok (.ofAutomaton a) := by
      rw [Files.loadSpec_of_read htext, h]
      rfl
    obtain ⟨files', hwrite⟩ := Files.exists_write_of_read hroot htext a.toSpec.toJson
    exact ⟨hload, files', Files.saveSpec_eq_ok_iff.2 hwrite⟩
  · intro files files' path hsave
    have htext : files'.read path = .ok a.toSpec.toJson :=
      Files.read_of_write (Files.saveSpec_eq_ok_iff.1 hsave)
    rw [Files.loadSpec_of_read htext, hread]
    split <;> rfl

def shelf (text : String) : Files := Files.empty.put ["s"] text

theorem write_shelf (text : String) : Files.empty.write "s" text = .ok (shelf text) := by
  have hpath : Files.Path.read "s" = .ok ⟨["s"], false⟩ := by cbv
  exact Files.write_eq_ok_iff.2 ⟨_, hpath, rfl, [], "s", rfl, [], rfl, rfl, ["s"], .fresh rfl, rfl⟩

theorem exists_equiv_of_read_sparse :
    ∃ a b files', Automaton.read Spec.sparse.toJson = .ok a ∧ a.toSpec ≠ Spec.sparse ∧ b ≈ a ∧
      Automaton.read a.toSpec.toJson = .ok b ∧
      (shelf Spec.sparse.toJson).loadSpec "s" = .ok (.ofAutomaton a) ∧
      (shelf Spec.sparse.toJson).saveSpec "s" a.toSpec = .ok files' ∧
      files'.loadSpec "s" = .ok (.ofAutomaton b) := by
  have hsize : Spec.sparse.toJson.utf8ByteSize ≤ Spec.sizeLimit := by
    rw [Spec.utf8ByteSize_toJson]
    decide +kernel
  have hwritten : Spec.sparse.parts.toSpec.toJson.utf8ByteSize ≤ Spec.sizeLimit := by
    rw [Spec.utf8ByteSize_toJson]
    decide +kernel
  have hread : Automaton.read Spec.sparse.toJson = .ok Spec.sparse.parts := by
    rw [read_toJson_eq_toAutomaton hsize, Spec.toAutomaton_of_coherent Spec.coherent_sparse]
  obtain ⟨b, hequiv, _, hagain, hload, hreload⟩ := exists_equiv_of_read hread
  obtain ⟨hfirst, files', hsave⟩ := hload (shelf _) "s" rfl (Files.read_of_write (write_shelf _))
  have hsecond := hreload (shelf _) files' "s" hsave
  rw [if_pos hwritten] at hagain hsecond
  exact ⟨Spec.sparse.parts, b, files', hread, by decide +kernel, hequiv, hagain, hfirst, hsave, hsecond⟩

end Automaton

/-! How long what is written is. -/

namespace Json
open String (utf8Len)

theorem utf8Len_replicate {c : Char} (h : c.utf8Size = 1) (n : Nat) : utf8Len (List.replicate n c) = n := by
  induction n with
  | zero => rfl
  | succ n ih => rw [List.replicate_succ, String.utf8Len_cons, ih, h]

theorem utf8Len_newline (depth : Nat) : utf8Len (newline depth) = 2 * depth + 1 := by
  rw [newline, String.utf8Len_cons, utf8Len_replicate (by decide)]
  rfl

theorem utf8Len_following (last : Char) (depth : Nat) (items : List Text) :
    utf8Len (following last depth items) =
      last.utf8Size + 2 * depth + 1 + (items.map fun item => utf8Len item + 2 * depth + 4).sum := by
  have hcomma : ','.utf8Size = 1 := by decide
  induction items with
  | nil =>
    rw [following, String.utf8Len_append, utf8Len_newline, String.utf8Len_cons, String.utf8Len_nil,
      List.map_nil, List.sum_nil]
    omega
  | cons item items ih =>
    rw [following, String.utf8Len_cons, String.utf8Len_append, String.utf8Len_append, utf8Len_newline, ih,
      List.map_cons, List.sum_cons, hcomma]
    omega

theorem utf8Len_block (first last : Char) (depth : Nat) (item : Text) (items : List Text) :
    utf8Len (block first last depth (item :: items)) = first.utf8Size + last.utf8Size + 2 * depth +
      ((item :: items).map fun item => utf8Len item + 2 * depth + 4).sum := by
  rw [block_eq, inside, String.utf8Len_cons, String.utf8Len_append, String.utf8Len_append, utf8Len_newline,
    utf8Len_following, List.map_cons, List.sum_cons]
  omega

theorem utf8Len_writeList (depth : Nat) (item : Text) (items : List Text) :
    utf8Len (writeList depth (item :: items)) =
      2 * depth + 2 + ((item :: items).map fun item => utf8Len item + 2 * depth + 4).sum := by
  rw [writeList, utf8Len_block, show '['.utf8Size = 1 by decide, show ']'.utf8Size = 1 by decide]
  omega

theorem utf8Len_writeObject (depth : Nat) (field : String × Text) (fields : List (String × Text)) :
    utf8Len (writeObject depth (field :: fields)) = 2 * depth + 2 + ((field :: fields).map fun field =>
      utf8Len (writeText field.1) + utf8Len field.2 + 2 + 2 * depth + 4).sum := by
  have hmember (field : String × Text) : utf8Len (writeMember field.1 field.2) =
      utf8Len (writeText field.1) + utf8Len field.2 + 2 := by
    rw [writeMember, String.utf8Len_append, String.utf8Len_append, show utf8Len [':', ' '] = 2 by decide]
    omega
  rw [writeObject, List.map_cons, utf8Len_block, show '\x7b'.utf8Size = 1 by decide,
    show '\x7d'.utf8Size = 1 by decide]
  simp only [List.map_cons, List.map_map, Function.comp_def, hmember]
  omega

end Json

namespace Spec

def hollow (name : String) : Spec := ⟨[name], [], ∅, name, []⟩

def filled (name : String) : Spec := { hollow name with delta := .ofList [(name, ∅)] }

theorem coherent_hollow (name : String) : (hollow name).Coherent where
  states_ne_nil := List.cons_ne_nil name []
  nodup_states := List.nodup_singleton name
  initial_mem := List.mem_singleton_self name
  accepting_mem := by simp [hollow]
  source_mem p hp := by cases hp
  destinations_ne_nil e he := by cases he
  destination_mem e he := by cases he

theorem toSpec_parts_hollow (name : String) : (hollow name).parts.toSpec = filled name := by
  have hmem : name ∈ OrderedSet.ofList (hollow name).states :=
    (OrderedSet.mem_ofList _ _).2 (List.mem_singleton_self name)
  have hrow : (hollow name).parts.delta.find? name = some ∅ := by
    rw [parts, Automaton.find?_completeRows, if_pos hmem]
    rfl
  have hdelta : (hollow name).parts.toSpec.delta = (filled name).delta := by
    change OrderedMap.ofList [(name, (((hollow name).parts.delta.find? name).getD ∅).map Targets.ofSet)] = _
    rw [hrow]
    rfl
  exact congrArg (fun delta => { hollow name with delta := delta }) hdelta

def long (n : Nat) : String := String.ofList (List.replicate n 'a')

theorem utf8Len_writeText_long (n : Nat) : String.utf8Len (Json.writeText (long n)) = n + 2 := by
  have hletters : (List.replicate n 'a').flatMap Json.escape = List.replicate n 'a' := by
    rw [List.flatMap_replicate]
    exact List.flatten_replicate_singleton
  rw [Json.writeText, long, String.toList_ofList, hletters, String.utf8Len_append, String.utf8Len_append,
    Json.utf8Len_replicate (by decide), show String.utf8Len ['"'] = 1 by decide]
  omega

section Sizes
open Json

theorem size_fields (s : Spec) : s.toJson.utf8ByteSize =
    String.utf8Len (writeList 1 (s.states.map writeText)) +
    String.utf8Len (writeList 1 (s.alphabet.map fun x => writeText x.key)) +
    String.utf8Len (writeDelta 1 s.delta) + String.utf8Len (writeText s.initial) +
    String.utf8Len (writeList 1 (s.accepting.map writeText)) + 67 := by
  rw [utf8ByteSize_toJson, write, utf8Len_writeObject]
  simp only [List.map_cons, List.map_nil, List.sum_cons, List.sum_nil,
    show String.utf8Len (writeText "q") = 3 by decide,
    show String.utf8Len (writeText "sigma") = 7 by decide,
    show String.utf8Len (writeText "delta") = 7 by decide,
    show String.utf8Len (writeText "initial_state") = 15 by decide,
    show String.utf8Len (writeText "f") = 3 by decide]
  omega

theorem size_hollow (n : Nat) : (hollow (long n)).toJson.utf8ByteSize = 2 * n + 87 := by
  have hdelta : String.utf8Len (writeDelta 1 (hollow (long n)).delta) = 2 := rfl
  have hempty : String.utf8Len (writeList 1 []) = 2 := rfl
  rw [size_fields, hdelta]
  simp only [hollow, List.map_cons, List.map_nil, hempty, utf8Len_writeList, utf8Len_writeText_long, List.sum_cons,
    List.sum_nil]
  omega

theorem size_filled (n : Nat) : (filled (long n)).toJson.utf8ByteSize = 3 * n + 101 := by
  have hrow : String.utf8Len (writeRow 2 ∅) = 2 := rfl
  have hentries : (filled (long n)).delta.entries = [(long n, ∅)] := rfl
  have hempty : String.utf8Len (writeList 1 []) = 2 := rfl
  rw [size_fields, writeDelta, hentries]
  simp only [filled, hollow, List.map_cons, List.map_nil, hempty, hrow, utf8Len_writeList, utf8Len_writeObject,
    utf8Len_writeText_long, List.sum_cons, List.sum_nil]
  omega

end Sizes

/-- The row that the state is given is too much for a text that was still short enough. -/
theorem outgrown_hollow {n : Nat} (hread : 2 * n + 87 ≤ sizeLimit) (hwritten : sizeLimit < 3 * n + 101) :
    Automaton.read (hollow (long n)).toJson = .ok (hollow (long n)).parts ∧
      Automaton.read (hollow (long n)).parts.toSpec.toJson = .error (.tooLarge (3 * n + 101)) := by
  rw [toSpec_parts_hollow, Automaton.read_toJson_eq, Automaton.read_toJson_eq, size_hollow, size_filled,
    if_pos hread, if_neg (Nat.not_le.2 hwritten), toAutomaton_of_coherent (coherent_hollow _)]
  exact ⟨rfl, rfl⟩

theorem exists_read_outgrown :
    ∃ a, Automaton.read (hollow (long 21900)).toJson = .ok a ∧
      Automaton.read a.toSpec.toJson = .error (.tooLarge 65801) ∧
      ¬ ∃ b, Automaton.read a.toSpec.toJson = .ok b ∧ b ≈ a := by
  obtain ⟨hread, hwritten⟩ := outgrown_hollow (n := 21900) (by decide) (by decide)
  refine ⟨_, hread, hwritten, ?_⟩
  rintro ⟨b, hb, _⟩
  rw [hwritten] at hb
  cases hb

end Spec
end EpsilonAutomata
