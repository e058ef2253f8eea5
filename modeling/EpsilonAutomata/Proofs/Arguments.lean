import EpsilonAutomata.CommandLine.Commands
import EpsilonAutomata.Proofs.TransitionText

/-! Arguments that make up a command. A value is attached to its option and the inputs stand behind the end
of the options, so that nothing among them is taken for an option. There are such arguments for any inputs
and any separator, and for any build whose numbers are small enough to be read. -/

namespace EpsilonAutomata.CommandLine

theorem execute_of_parse {args : List String} {command : Command} (h : parse args = .ok command)
    (files : Files) (piped : Option ByteArray) :
    execute files piped args = .ofResult (command.lines (Source.load files piped)) := by
  rw [execute, h]

theorem Outcome.exitCode_ofResult (result : Except Error (List String)) :
    (Outcome.ofResult result).exitCode = 0 ↔ ∃ lines, result = .ok lines := by
  cases result <;> simp [Outcome.ofResult, Outcome.success, Outcome.failure]

theorem Outcome.output_line (text : String) : (Outcome.success [text]).output = text ++ "\n" := by
  simp [Outcome.success, Text.ofLines, String.join]

/-! Options. -/

def attached (switch : Switch) (value : String) : String := "--" ++ switch.long ++ "=" ++ value

theorem toList_attached (switch : Switch) (value : String) :
    (attached switch value).toList = '-' :: '-' :: (switch.long.toList ++ '=' :: value.toList) := by
  simp [attached]

theorem splitLong_attached (switch : Switch) (value : String) :
    splitLong (switch.long.toList ++ '=' :: value.toList) = (switch.long, some value) := by
  have hname : '=' ∉ switch.long.toList := by cases switch <;> decide
  rw [splitLong, dropWhile_ne_append hname, takeWhile_ne_append hname, String.ofList_toList]
  simp only [String.ofList_toList]

def Grammar.Takes (g : Grammar) (switch : Switch) : Prop :=
  g.find? (fun s => s.long == switch.long) = some switch ∧ switch.takesValue = true

instance (g : Grammar) (switch : Switch) : Decidable (g.Takes switch) :=
  inferInstanceAs (Decidable (_ ∧ _))

theorem shapeOf_attached {g : Grammar} {switch : Switch} (h : g.Takes switch) (value : String) :
    shapeOf g (attached switch value) = .cluster ⟨[], some (switch, some value)⟩ := by
  obtain ⟨c, rest, hname⟩ : ∃ c rest, switch.long.toList ++ '=' :: value.toList = c :: rest :=
    List.exists_cons_of_ne_nil (by simp)
  have hsplit := splitLong_attached switch value
  rw [hname] at hsplit
  simp only [shapeOf, toList_attached, hname, hsplit, h.1, h.2, if_true]

theorem split_attached {g : Grammar} {switch : Switch} (h : g.Takes switch) (value : String)
    (pending : List Item) (rest : List String) :
    split g pending (attached switch value :: rest) =
      (split g [] rest).after (pending ++ [.value switch value]) := by
  rw [split]
  simp [shapeOf_attached h]

def attachAll (values : List (Switch × String)) : List String := values.map fun v => attached v.1 v.2

def itemsOf (values : List (Switch × String)) : List Item := values.map fun v => .value v.1 v.2

theorem split_attachAll {g : Grammar} (values : List (Switch × String)) (h : ∀ v ∈ values, g.Takes v.1)
    (rest : List String) :
    split g [] (attachAll values ++ rest) = (split g [] rest).after (itemsOf values) := by
  induction values with
  | nil => rfl
  | cons v values ih =>
    have hrest := ih fun u hu => h u (List.mem_cons_of_mem v hu)
    have hfirst := split_attached (h v List.mem_cons_self) v.2 [] (attachAll values ++ rest)
    rw [hrest] at hfirst
    exact hfirst

theorem split_endOfOptions {g : Grammar} (h : g.takesInputs = true) (inputs : List String) :
    split g [] ("--" :: inputs) = ⟨inputs.map .input, true⟩ := by
  have hshape : shapeOf g "--" = .endOfOptions := rfl
  rw [split]
  simp [hshape, h]

/-! The options are taken in one by one. -/

theorem foldlM_take_cons {o next : Options} {item : Item} (h : o.take item = .ok next) (items : List Item) :
    (item :: items).foldlM Options.take o = items.foldlM Options.take next := by
  rw [List.foldlM_cons, h]
  rfl

theorem foldlM_take_inputs (o : Options) (inputs : List String) :
    (inputs.map Item.input).foldlM Options.take o = .ok { o with inputs := o.inputs ++ inputs } := by
  induction inputs generalizing o with
  | nil => simp [pure, Except.pure]
  | cons text inputs ih =>
    have htake : o.take (.input text) = .ok { o with inputs := o.inputs ++ [text] } := rfl
    rw [List.map_cons, foldlM_take_cons htake, ih, List.append_assoc, List.singleton_append]

theorem foldlM_take_transitions (o : Options) (ts : List Transition) (h : ∀ t ∈ ts, t.Fits) :
    (ts.map fun t => Item.value .transition t.text).foldlM Options.take o =
      .ok { o with transitions := o.transitions ++ ts } := by
  induction ts generalizing o with
  | nil => simp [pure, Except.pure]
  | cons t ts ih =>
    have hread := Transition.read_text (h t List.mem_cons_self)
    have htake : o.take (.value .transition t.text) = .ok { o with transitions := o.transitions ++ [t] } := by
      simp only [Options.take, hread]
    have hrest : ∀ u ∈ ts, u.Fits := fun u hu => h u (List.mem_cons_of_mem t hu)
    rw [List.map_cons, foldlM_take_cons htake, ih _ hrest, List.append_assoc, List.singleton_append]

theorem count?_toString {n : Nat} (h : n ≤ Numeral.word64) : Options.count? (toString n) = some n :=
  Numeral.read?_toString h

theorem Subcommand.parse_eq {s : Subcommand} {args : List String} {items : List Item} {o : Options}
    (hsplit : split s.grammar [] args = ⟨items, true⟩) (htake : items.foldlM Options.take .empty = .ok o)
    (hhelped : o.helped = false) : s.parse args = s.command o := by
  have hoptions : parseOptions s.grammar args = .ok o := by
    rw [parseOptions, hsplit]
    simp only [htake]
    rfl
  rw [Subcommand.parse, hoptions]
  simp only [bind, Except.bind, hhelped]
  rfl

/-! Whole commands. -/

def runValues (separator : Option String) : List (Switch × String) :=
  separator.toList.map fun text => (.separator, text)

def runArgs (separator : Option String) (inputs : List String) : List String :=
  "run" :: (attachAll (runValues separator) ++ "--" :: inputs)

def convertArgs : Target → List String
  | .deterministic => ["convert", "--to=dfa"]
  | .minimal => ["convert", "--to=minimal"]

def buildValues (plain accepting : Nat) (ts : List Transition) : List (Switch × String) :=
  (.plain, toString plain) :: (.accepting, toString accepting) :: ts.map fun t => (.transition, t.text)

def buildArgs (plain accepting : Nat) (ts : List Transition) : List String :=
  "build" :: attachAll (buildValues plain accepting ts)

theorem takes_runValues (separator : Option String) :
    ∀ v ∈ runValues separator, Subcommand.run.grammar.Takes v.1 := by
  have hseparator : Subcommand.run.grammar.Takes .separator := by decide
  simp [runValues, hseparator]

theorem takes_buildValues (plain accepting : Nat) (ts : List Transition) :
    ∀ v ∈ buildValues plain accepting ts, Subcommand.build.grammar.Takes v.1 := by
  have hplain : Subcommand.build.grammar.Takes .plain := by decide
  have haccepting : Subcommand.build.grammar.Takes .accepting := by decide
  have htransition : Subcommand.build.grammar.Takes .transition := by decide
  simp [buildValues, hplain, haccepting, htransition]

theorem parse_runArgs (separator : Option String) {inputs : List String} (h : inputs ≠ []) :
    parse (runArgs separator inputs) = .ok (.run .input inputs separator false) := by
  have hsplit : split Subcommand.run.grammar [] (attachAll (runValues separator) ++ "--" :: inputs) =
      ⟨itemsOf (runValues separator) ++ inputs.map .input, true⟩ := by
    rw [split_attachAll _ (takes_runValues separator), split_endOfOptions rfl]
    rfl
  have htake : (itemsOf (runValues separator) ++ inputs.map Item.input).foldlM Options.take .empty =
      .ok { Options.empty with separator := separator, inputs := inputs } := by
    cases separator with
    | none => exact foldlM_take_inputs .empty inputs
    | some text => exact foldlM_take_inputs { Options.empty with separator := some text } inputs
  have hparse : parse (runArgs separator inputs) =
      Subcommand.run.parse (attachAll (runValues separator) ++ "--" :: inputs) := rfl
  have hinputs : inputs.isEmpty = false := by simpa using h
  rw [hparse, Subcommand.parse_eq hsplit htake rfl]
  simp only [Subcommand.command, hinputs]
  rfl

theorem parse_convertArgs (target : Target) : parse (convertArgs target) = .ok (.convert .input target) := by
  cases target <;> rfl

theorem parse_buildArgs {plain accepting : Nat} (hplain : plain ≤ Numeral.word64)
    (haccepting : accepting ≤ Numeral.word64) {ts : List Transition} (h : ∀ t ∈ ts, t.Fits) :
    parse (buildArgs plain accepting ts) = .ok (.build plain accepting ts) := by
  have hitems : itemsOf (buildValues plain accepting ts) = .value .plain (toString plain) ::
      .value .accepting (toString accepting) :: ts.map fun t => .value .transition t.text := by
    simp [itemsOf, buildValues]
  have hsplit : split Subcommand.build.grammar [] (attachAll (buildValues plain accepting ts)) =
      ⟨itemsOf (buildValues plain accepting ts), true⟩ := by
    have hall := split_attachAll _ (takes_buildValues plain accepting ts) []
    rw [List.append_nil] at hall
    simpa [split, Parsed.after] using hall
  have hfirst : Options.empty.take (.value .plain (toString plain)) =
      .ok { Options.empty with plain := plain } := by
    simp only [Options.take, count?_toString hplain]
    rfl
  have hsecond : Options.take { Options.empty with plain := plain } (.value .accepting (toString accepting)) =
      .ok { Options.empty with plain := plain, accepting := accepting } := by
    simp only [Options.take, count?_toString haccepting]
    rfl
  have htake : (itemsOf (buildValues plain accepting ts)).foldlM Options.take .empty =
      .ok { Options.empty with plain := plain, accepting := accepting, transitions := ts } := by
    rw [hitems, foldlM_take_cons hfirst, foldlM_take_cons hsecond, foldlM_take_transitions _ ts h]
    rfl
  exact Subcommand.parse_eq (s := .build) hsplit htake rfl

end EpsilonAutomata.CommandLine
