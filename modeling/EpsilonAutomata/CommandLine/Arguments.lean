import EpsilonAutomata.CommandLine.Transition

/-!
From arguments to commands. The first argument names a subcommand, the others are its options and inputs.

An option is written `--name value`, `--name=value`, `-n value`, `-nvalue` or `-n=value`, and short options
without values may share an argument, as in `-ds,`. Behind `--` there are inputs only. A hyphen alone is an
input or a value; any other argument that starts with one is an option, and never the value of the option
before it. Names are given in full and no option is given twice, but for `--transition`. All else is a fault,
also that there are no arguments at all.

The arguments are first split into options with their values and inputs; the values are then taken in one
by one. A value that is an argument of its own is taken in only when the next option, the next input or the
end has been recognised, so what is not recognised comes first. Every subcommand can be asked for help; what
stands before that is taken in, what stands behind it is not read. The version is told in the place of a
subcommand only.
-/
namespace EpsilonAutomata.CommandLine

inductive Source where
  | file (path : String)
  | catalogue (key : String)
  | input
deriving DecidableEq

inductive GraphFormat where
  | json
  | dot
deriving DecidableEq

inductive Target where
  | deterministic
  | minimal
deriving DecidableEq

inductive Command where
  | run (source : Source) (inputs : List String) (separator : Option String) (traced : Bool)
  | build (plain accepting : Nat) (transitions : List Transition)
  | graph (source : Source) (format : GraphFormat)
  | convert (source : Source) (target : Target)
  | examples
  | help
  | version
deriving DecidableEq

def Command.source? : Command → Option Source
  | run source _ _ _ => some source
  | graph source _ => some source
  | convert source _ => some source
  | build _ _ _ => none
  | examples => none
  | help => none
  | version => none

inductive UsageFault where
  | transition (fault : TransitionFault)
  | other
deriving DecidableEq

inductive Switch where
  | file
  | pick
  | separator
  | traced
  | plain
  | accepting
  | transition
  | format
  | target
  | help
deriving DecidableEq

namespace Switch

def long : Switch → String
  | file => "file"
  | pick => "example"
  | separator => "separator"
  | traced => "debug"
  | plain => "state"
  | accepting => "accepting"
  | transition => "transition"
  | format => "format"
  | target => "to"
  | help => "help"

def short? : Switch → Option Char
  | file => some 'f'
  | pick => some 'e'
  | separator => some 's'
  | traced => some 'd'
  | plain => some 's'
  | accepting => some 'a'
  | transition => some 't'
  | format => none
  | target => none
  | help => some 'h'

def takesValue : Switch → Bool
  | traced => false
  | help => false
  | _ => true

end Switch

inductive Item where
  | flag (switch : Switch)
  | value (switch : Switch) (text : String)
  | input (text : String)

/-- What a subcommand understands besides the request for help. -/
structure Grammar where
  switches : List Switch
  takesInputs : Bool

def Grammar.find? (g : Grammar) (matching : Switch → Bool) : Option Switch :=
  (Switch.help :: g.switches).find? matching

structure Parsed where
  items : List Item
  complete : Bool

namespace Parsed

def stop : Parsed := ⟨[], false⟩

def after (items : List Item) (p : Parsed) : Parsed := { p with items := items ++ p.items }

end Parsed

/-- An argument that starts with a hyphen is no value, unless it is the hyphen alone. -/
def looksLikeSwitch (arg : String) : Bool := arg.startsWith "-" && arg != "-"

def splitLong (name : List Char) : String × Option String :=
  match name.dropWhile (· ≠ '=') with
  | [] => (String.ofList name, none)
  | _ :: value => (String.ofList (name.takeWhile (· ≠ '=')), some (String.ofList value))

/-- Short options in one argument: flags, and at the end an option with the value attached to it. The
request for help ends them all. -/
structure Cluster where
  flags : List Switch
  last : Option (Switch × Option String)

def splitCluster (g : Grammar) : List Char → Option Cluster
  | [] => some ⟨[], none⟩
  | c :: rest => do
    let switch ← g.find? fun s => s.short? == some c
    if switch = .help then return ⟨[.help], none⟩
    else if switch.takesValue then
      let value :=
        match rest with
        | [] => none
        | '=' :: value => some (String.ofList value)
        | value => some (String.ofList value)
      return ⟨[], some (switch, value)⟩
    else
      let more ← splitCluster g rest
      return { more with flags := switch :: more.flags }

inductive Shape where
  | endOfOptions
  | cluster (c : Cluster)
  | text
  | unknown

def shapeOf (g : Grammar) (arg : String) : Shape :=
  match arg.toList with
  | ['-', '-'] => .endOfOptions
  | '-' :: '-' :: name =>
    let (long, value) := splitLong name
    match g.find? fun s => s.long == long with
    | none => .unknown
    | some switch =>
      if switch.takesValue then .cluster ⟨[], some (switch, value)⟩
      else if value.isNone then .cluster ⟨[switch], none⟩
      else .unknown
  | '-' :: c :: rest =>
    match splitCluster g (c :: rest) with
    | none => .unknown
    | some cluster => .cluster cluster
  | _ => .text

/-- Splits the arguments; `pending` is a value that waits for what comes behind it. -/
def split (g : Grammar) (pending : List Item) : List String → Parsed
  | [] => ⟨pending, true⟩
  | arg :: rest =>
    match shapeOf g arg with
    | .unknown => .stop
    | .text =>
      if g.takesInputs then (split g [] rest).after (pending ++ [.input arg]) else .stop
    | .endOfOptions =>
      if g.takesInputs then ⟨pending ++ rest.map .input, true⟩
      else if rest.isEmpty then ⟨pending, true⟩
      else .stop
    | .cluster ⟨flags, last⟩ =>
      let items := pending ++ flags.map .flag
      if flags.contains .help then ⟨items, true⟩
      else match last, rest with
      | none, rest => (split g [] rest).after items
      | some (switch, some value), rest => (split g [] rest).after (items ++ [.value switch value])
      | some (switch, none), value :: rest =>
        if looksLikeSwitch value then ⟨items, false⟩
        else (split g [.value switch value] rest).after items
      | some (_, none), [] => ⟨items, false⟩

structure Options where
  file : Option String
  pick : Option String
  separator : Option String
  traced : Bool
  inputs : List String
  plain : Option Nat
  accepting : Option Nat
  transitions : List Transition
  format : Option GraphFormat
  target : Option Target
  helped : Bool

namespace Options

def empty : Options := ⟨none, none, none, false, [], none, none, [], none, none, false⟩

def once {α : Type} (old : Option α) (new : Option α) : Except UsageFault (Option α) :=
  match old, new with
  | none, some value => .ok (some value)
  | _, _ => .error .other

def count? (text : String) : Option Nat := Numeral.read? Numeral.word64 text.toList

def format? (text : String) : Option GraphFormat :=
  if text = "json" then some .json else if text = "dot" then some .dot else none

def target? (text : String) : Option Target :=
  if text = "dfa" then some .deterministic else if text = "minimal" then some .minimal else none

def path? (text : String) : Option String := if text = "" then none else some text

def take (o : Options) : Item → Except UsageFault Options
  | .flag .help => .ok { o with helped := true }
  | .flag _ => if o.traced then .error .other else .ok { o with traced := true }
  | .input text => .ok { o with inputs := o.inputs ++ [text] }
  | .value switch text =>
    match switch with
    | .file => (once o.file (path? text)).map fun v => { o with file := v }
    | .pick => (once o.pick (some text)).map fun v => { o with pick := v }
    | .separator => (once o.separator (some text)).map fun v => { o with separator := v }
    | .plain => (once o.plain (count? text)).map fun v => { o with plain := v }
    | .accepting => (once o.accepting (count? text)).map fun v => { o with accepting := v }
    | .format => (once o.format (format? text)).map fun v => { o with format := v }
    | .target => (once o.target (target? text)).map fun v => { o with target := v }
    | .transition =>
      match Transition.read text with
      | .error fault => .error (.transition fault)
      | .ok t => .ok { o with transitions := o.transitions ++ [t] }
    | .traced => .error .other
    | .help => .error .other

def source (o : Options) : Except UsageFault Source :=
  match o.file, o.pick with
  | some _, some _ => .error .other
  | some path, none => .ok (.file path)
  | none, some key => .ok (.catalogue key)
  | none, none => .ok .input

end Options

def parseOptions (g : Grammar) (args : List String) : Except UsageFault Options := do
  let parsed := split g [] args
  let options ← parsed.items.foldlM Options.take Options.empty
  if parsed.complete then return options else throw .other

inductive Subcommand where
  | run
  | build
  | graph
  | convert
  | examples
deriving DecidableEq

namespace Subcommand

def ofName? (name : String) : Option Subcommand :=
  if name = "run" then some run
  else if name = "build" then some build
  else if name = "graph" then some graph
  else if name = "convert" then some convert
  else if name = "examples" then some examples
  else none

def grammar : Subcommand → Grammar
  | run => ⟨[.file, .pick, .separator, .traced], true⟩
  | build => ⟨[.plain, .accepting, .transition], false⟩
  | graph => ⟨[.file, .pick, .format], false⟩
  | convert => ⟨[.file, .pick, .target], false⟩
  | examples => ⟨[], false⟩

def command (o : Options) : Subcommand → Except UsageFault Command
  | run => do
    let source ← o.source
    if o.inputs.isEmpty then throw .other
    return .run source o.inputs o.separator o.traced
  | build => return .build (o.plain.getD 0) (o.accepting.getD 0) o.transitions
  | graph => return .graph (← o.source) (o.format.getD .json)
  | convert => return .convert (← o.source) (o.target.getD .deterministic)
  | examples => return .examples

def parse (s : Subcommand) (args : List String) : Except UsageFault Command := do
  let o ← parseOptions s.grammar args
  if o.helped then return .help else s.command o

end Subcommand

def asksForHelp (name : String) (args : List String) : Bool :=
  if name = "help" then
    match args with
    | [] => true
    | [topic] => topic == "help" || (Subcommand.ofName? topic).isSome
    | _ => false
  else name == "--help" || name.startsWith "-h"

def asksForVersion (name : String) : Bool := name == "--version" || name.startsWith "-V"

def parse : List String → Except UsageFault Command
  | [] => .error .other
  | name :: args =>
    match Subcommand.ofName? name with
    | some s => s.parse args
    | none =>
      if asksForHelp name args then .ok .help
      else if asksForVersion name then .ok .version
      else .error .other

end EpsilonAutomata.CommandLine
