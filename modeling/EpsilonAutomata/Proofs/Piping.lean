import EpsilonAutomata.Proofs.Arguments
import EpsilonAutomata.Proofs.Conversion
import EpsilonAutomata.Proofs.Reloading
import EpsilonAutomata.Proofs.Separation

/-! Converted automata are given to further runs. What a conversion prints is the written form of its result
and a line feed, which the reader passes over. No text is cut into a word with epsilon in it, and over all
other words both conversions keep the language, so that every line of a later run stays as it was. -/

namespace EpsilonAutomata

theorem Symbol.ofKey_eq_epsilon_iff (key : String) : ofKey key = epsilon ↔ key = "" := by
  unfold ofKey
  split_ifs with h <;> simp [h]

namespace Word

theorem epsilon_not_mem_ofText (text : String) : .epsilon ∉ ofText text := by
  intro h
  obtain ⟨c, _, hc⟩ := List.mem_map.1 h
  exact String.singleton_ne_empty ((Symbol.ofKey_eq_epsilon_iff _).1 hc)

theorem epsilon_not_mem_ofSeparated (separator text : String) : .epsilon ∉ ofSeparated separator text := by
  intro h
  obtain ⟨_, _, htoken, _⟩ := (readsBetween_ofSeparated separator text).tokens _ h
  cases htoken

end Word

namespace Automaton
variable {a : Automaton}

theorem wellFormed_minimised (a : Automaton) : a.minimised.WellFormed :=
  a.subsetTable.trim.merge.wellFormed_written a.nodup_letters

theorem read_line (h : a.WellFormed) (hsize : (a.toSpec.toJson ++ "\n").utf8ByteSize ≤ Spec.sizeLimit) :
    Automaton.read (a.toSpec.toJson ++ "\n") = .ok a.arranged := by
  rw [Automaton.read, Spec.read_of_ofJson hsize a.toSpec.ofJson_line]
  exact toAutomaton_toSpec h

end Automaton

namespace CommandLine
variable {a b : Automaton}

theorem epsilon_not_mem_wordOf (separator : Option String) (text : String) :
    .epsilon ∉ wordOf separator text := by
  cases separator with
  | none => exact Word.epsilon_not_mem_ofText text
  | some separator => exact Word.epsilon_not_mem_ofSeparated separator text

/-- Without a trace, the language is all that a run shows of an automaton. -/
theorem runLines_congr (h : ∀ w : Word, .epsilon ∉ w → a.accepts w = b.accepts w)
    (separator : Option String) : runLines a separator false = runLines b separator false := by
  funext text
  have haccepts := h _ (epsilon_not_mem_wordOf separator text)
  simp only [runLines, haccepts]
  rfl

def converted (target : Target) (a : Automaton) : Automaton :=
  match target with
  | .deterministic => a.determinised
  | .minimal => a.minimised

theorem convert_eq_ok (target : Target) (a : Automaton) : convert target a = .ok (converted target a) := by
  cases target with
  | deterministic =>
    rw [convert, a.determinise_eq_ok]
    rfl
  | minimal =>
    rw [convert, a.minimise_eq_ok]
    rfl

theorem wellFormed_converted (target : Target) (a : Automaton) : (converted target a).WellFormed := by
  cases target with
  | deterministic => exact a.wellFormed_determinised
  | minimal => exact a.wellFormed_minimised

theorem accepts_converted (target : Target) (h : a.Consistent) (w : Word) (hw : .epsilon ∉ w) :
    (converted target a).accepts w = a.accepts w := by
  cases target with
  | deterministic => exact Automaton.accepts_determinised h w hw
  | minimal => exact Automaton.accepts_minimised h w hw

theorem load_text (files : Files) (text : String) :
    Source.load files text.toUTF8 .input = Editor.read text := by
  rw [Source.load, (Files.decode_eq_ok_iff _ _).2 rfl]

theorem wellFormed_of_load {files : Files} {piped : Option ByteArray} {e : Editor}
    (h : Source.load files piped .input = .ok e) : e.automaton.WellFormed := by
  cases piped with
  | none => cases h
  | some bytes =>
    rw [Source.load] at h
    split at h
    · cases h
    · next text _ =>
      rw [Editor.read_eq, map_eq_ok_iff] at h
      obtain ⟨a, hread, rfl⟩ := h
      exact Automaton.wellFormed_of_read ((mapError_eq_ok_iff _ _ _).1 hread)

theorem execute_run {files : Files} {piped : Option ByteArray} {e : Editor} {args inputs : List String}
    {separator : Option String} (hargs : parse args = .ok (.run .input inputs separator false))
    (hload : Source.load files piped .input = .ok e) :
    execute files piped args = .success (inputs.flatMap (runLines e.automaton separator false)) := by
  rw [execute_of_parse hargs, Command.lines, hload]
  rfl

theorem execute_convert {files : Files} {piped : Option ByteArray} {e : Editor} {args : List String}
    {target : Target} (hargs : parse args = .ok (.convert .input target))
    (hload : Source.load files piped .input = .ok e) :
    execute files piped args = .success [(converted target e.automaton).toSpec.toJson] := by
  rw [execute_of_parse hargs, Command.lines, hload]
  simp only [bind, Except.bind, convert_eq_ok]
  rfl

theorem exists_load_of_execute_run {files : Files} {piped : Option ByteArray} {args inputs : List String}
    {separator : Option String} {traced : Bool}
    (hargs : parse args = .ok (.run .input inputs separator traced))
    (h : (execute files piped args).exitCode = 0) : ∃ e, Source.load files piped .input = .ok e := by
  rw [execute_of_parse hargs, Outcome.exitCode_ofResult, Command.lines] at h
  obtain ⟨lines, hlines⟩ := h
  cases hload : Source.load files piped .input with
  | error error =>
    rw [hload] at hlines
    cases hlines
  | ok e => exact ⟨e, rfl⟩

/-- An automaton that is converted and piped into a run gives the same lines as before. -/
theorem execute_converted (files : Files) (piped : Option ByteArray) (target : Target)
    (separator : Option String) {inputs : List String} (hinputs : inputs ≠ []) :
    (∃ run, parse run = .ok (.run .input inputs separator false)) ∧
      (∃ conversion, parse conversion = .ok (.convert .input target)) ∧
      ∀ run conversion, parse run = .ok (.run .input inputs separator false) →
        parse conversion = .ok (.convert .input target) → (execute files piped run).exitCode = 0 →
        (execute files piped conversion).exitCode = 0 ∧
          ((execute files piped conversion).output.utf8ByteSize ≤ Spec.sizeLimit →
            execute files (execute files piped conversion).output.toUTF8 run = execute files piped run) := by
  refine ⟨⟨_, parse_runArgs separator hinputs⟩, ⟨_, parse_convertArgs target⟩, ?_⟩
  intro run conversion hrun hconversion hexit
  obtain ⟨e, hload⟩ := exists_load_of_execute_run hrun hexit
  rw [execute_convert hconversion hload, Outcome.output_line]
  refine ⟨rfl, fun hsize => ?_⟩
  let m := converted target e.automaton
  have hm : m.WellFormed := wellFormed_converted target e.automaton
  have hreload : Source.load files (m.toSpec.toJson ++ "\n").toUTF8 .input =
      .ok (.ofAutomaton m.arranged) := by
    rw [load_text, Editor.read_eq, Automaton.read_line hm hsize]
    rfl
  -- what is read again differs from the result of the conversion in the order of the rows only
  have haccepts (w : Word) (hw : .epsilon ∉ w) : m.arranged.accepts w = e.automaton.accepts w :=
    calc
      m.arranged.accepts w = m.accepts w := Automaton.accepts_congr (Automaton.arranged_equiv hm) w
      _ = e.automaton.accepts w := accepts_converted target (wellFormed_of_load hload).toConsistent w hw
  rw [execute_run hrun hreload, execute_run hrun hload]
  exact congrArg (fun lines => Outcome.success (inputs.flatMap lines)) (runLines_congr haccepts separator)

def determinisedSparse : Spec where
  states := ["q0", "q1", "q2"]
  alphabet := [.ofKey "1", .ofKey "0", .ofKey "x", .ofKey "y"]
  delta := .ofList [
    ("q0", .ofList [(.ofKey "0", .one "q1"), (.ofKey "x", .one "q2"), (.ofKey "y", .one "q2")]),
    ("q1", .ofList [(.ofKey "0", .one "q1"), (.ofKey "x", .one "q0"), (.ofKey "y", .one "q2")]),
    ("q2", .ofList [(.ofKey "0", .one "q1"), (.ofKey "x", .one "q2"), (.ofKey "y", .one "q2")])]
  initial := "q0"
  accepting := ["q2"]

theorem execute_converted_sparse :
    let piped := Spec.sparse.toJson.toUTF8
    let run := ["run", "-s,", "0,,y", "", "xx"]
    let conversion := ["convert", "--to", "dfa"]
    execute .empty piped run = ⟨0, "\"0,,y\": accepted\n\"\": rejected\n\"xx\": rejected\n", ""⟩ ∧
      execute .empty piped conversion = .success [determinisedSparse.toJson] ∧
      execute .empty (execute .empty piped conversion).output.toUTF8 run = execute .empty piped run := by
  intro piped run conversion
  have hrun : parse run = .ok (.run .input ["0,,y", "", "xx"] (some ",") false) := by cbv
  have hconversion : parse conversion = .ok (.convert .input .deterministic) := by cbv
  have hread : Automaton.read Spec.sparse.toJson = .ok Spec.sparse.parts := by
    rw [Automaton.read_toJson_eq_toAutomaton, Spec.toAutomaton_of_coherent Spec.coherent_sparse]
    rw [Spec.utf8ByteSize_toJson]
    decide +kernel
  have hload : Source.load .empty piped .input = .ok (.ofAutomaton Spec.sparse.parts) := by
    rw [load_text, Editor.read_eq, hread]
    rfl
  have hanswers : execute .empty piped run =
      ⟨0, "\"0,,y\": accepted\n\"\": rejected\n\"xx\": rejected\n", ""⟩ := by
    rw [execute_run hrun hload]
    cbv
  have hspec : (converted .deterministic Spec.sparse.parts).toSpec = determinisedSparse := by cbv
  have hprinted : execute .empty piped conversion = .success [determinisedSparse.toJson] := by
    rw [execute_convert hconversion hload, Editor.ofAutomaton, hspec]
  have hsize : (execute .empty piped conversion).output.utf8ByteSize ≤ Spec.sizeLimit := by
    rw [hprinted, Outcome.output_line, String.utf8ByteSize_append, Spec.utf8ByteSize_toJson]
    decide +kernel
  have hexit : (execute .empty piped run).exitCode = 0 := by rw [hanswers]
  have hconverted :=
    execute_converted .empty piped .deterministic (some ",") (List.cons_ne_nil "0,,y" ["", "xx"])
  have hsame := (hconverted.2.2 run conversion hrun hconversion hexit).2 hsize
  exact ⟨hanswers, hprinted, hsame⟩

end CommandLine
end EpsilonAutomata
