import EpsilonAutomata.Catalogue
import EpsilonAutomata.CommandLine.Arguments
import EpsilonAutomata.Deterministic.Minimal
import EpsilonAutomata.Editor
import EpsilonAutomata.Files.Specs
import EpsilonAutomata.Graph.Dot
import EpsilonAutomata.Graph.Json
import EpsilonAutomata.Simulator

/-!
What the commands print. The texts of the help are this program's own; a fault in its use has no text,
unless a transition cannot be read.
-/
namespace EpsilonAutomata.CommandLine

structure Outcome where
  exitCode : Nat
  output : String
  errors : String
deriving DecidableEq

namespace Outcome

def success (lines : List String) : Outcome := ⟨0, Text.ofLines lines, ""⟩

def failure (error : Error) : Outcome := ⟨1, "", "Error: " ++ error.message⟩

def misuse : UsageFault → Outcome
  | .transition fault => ⟨2, "", fault.message⟩
  | .other => ⟨2, "", ""⟩

def ofResult : Except Error (List String) → Outcome
  | .ok lines => success lines
  | .error error => failure error

end Outcome

def stepLine (s : Simulator) : String :=
  "Step: " ++ toString s.steps ++ ", States: \x7b" ++ ", ".intercalate s.current.names ++ "\x7d"

/-- A line for each step up to the one that leaves no state, and whether the word is accepted. -/
def trace (s : Simulator) : Word → List String × Bool
  | [] => ([], s.isAccepting)
  | x :: rest =>
    let next := s.step x
    if next.isDead then
      ([stepLine next, "No state left after '" ++ x.glyph ++ "'."], next.isAccepting)
    else
      let (lines, accepted) := trace next rest
      (stepLine next :: lines, accepted)

def traceRun (a : Automaton) (w : Word) : List String × Bool :=
  let (lines, accepted) := trace (.new a) w
  (stepLine (.new a) :: lines, accepted)

def wordOf (separator : Option String) (text : String) : Word :=
  match separator with
  | some separator => Word.ofSeparated separator text
  | none => Word.ofText text

def verdictLine (text : String) (accepted : Bool) : String :=
  Text.quote text ++ ": " ++ if accepted then "accepted" else "rejected"

def runLines (a : Automaton) (separator : Option String) (traced : Bool) (text : String) : List String :=
  let w := wordOf separator text
  if traced then (traceRun a w).1 ++ [verdictLine text (traceRun a w).2]
  else [verdictLine text (a.accepts w)]

def addStates (accepting : Bool) : Nat → Editor → Except Error Editor
  | 0, e => .ok e
  | n + 1, e =>
    match e.addState accepting with
    | .error error => .error error
    | .ok (_, e) => addStates accepting n e

def addTransitions : List Transition → Editor → Except Error Editor
  | [], e => .ok e
  | t :: rest, e =>
    match e.addTransition t.source t.target t.symbol with
    | .error error => .error error
    | .ok e => addTransitions rest e

def build (plain accepting : Nat) (transitions : List Transition) : Except Error Editor := do
  addTransitions transitions (← addStates true accepting (← addStates false plain .new))

def convert (target : Target) (a : Automaton) : Except Error Automaton :=
  match target with
  | .deterministic => a.determinise.mapError .invariant
  | .minimal => a.minimise.mapError .invariant

def padLeft (width : Nat) (text : String) : String :=
  String.ofList (List.replicate (width - text.length) ' ') ++ text

def exampleLine (s : Summary) : String :=
  padLeft 2 (toString s.index) ++ ". " ++ s.name ++ " (" ++ toString s.states ++ " states, " ++
    toString s.transitions ++ " transitions, " ++ toString s.accepting ++ " accepting)"

def pick (key : String) : Except Error Editor :=
  let found :=
    match Options.count? key with
    | some n => Catalogue.byIndex n
    | none => Catalogue.byName key
  found.map fun e => .ofAutomaton e.automaton

/-- Nothing is piped where the input is a terminal. -/
def Source.load (files : Files) (piped : Option ByteArray) : Source → Except Error Editor
  | file path => files.loadSpec path
  | catalogue key => pick key
  | input =>
    match piped with
    | none => .error (.file .nothingGiven)
    | some bytes =>
      match Files.decode bytes with
      | .error refusal => .error (.file (.badInput refusal))
      | .ok text => Editor.read text

def usage : List String :=
  ["run [--file PATH | --example KEY] [--separator TEXT] [--debug] INPUT...",
   "build [--state N] [--accepting N] [--transition FROM:TO:SYMBOL]...",
   "graph [--file PATH | --example KEY] [--format json | dot]",
   "convert [--file PATH | --example KEY] [--to dfa | minimal]",
   "examples"]

def version : String := "enfa-cli 0.0.1"

/-- The lines that a command prints; `load` is asked for the automaton it works on. -/
def Command.lines (load : Source → Except Error Editor) : Command → Except Error (List String)
  | run source inputs separator traced => do
    let e ← load source
    return inputs.flatMap (runLines e.automaton separator traced)
  | build plain accepting transitions => do
    let e ← CommandLine.build plain accepting transitions
    return [e.toSpec.toJson]
  | graph source format => do
    let e ← load source
    return [match format with
      | .json => e.graph.toJson
      | .dot => e.graph.toDot]
  | convert source target => do
    let e ← load source
    let a ← CommandLine.convert target e.automaton
    return [a.toSpec.toJson]
  | examples => (List.range Catalogue.examples.length).mapM fun n => (Catalogue.summary n).map exampleLine
  | help => return usage
  | version => return [CommandLine.version]

/-- A whole run of the program among the given files and with what is piped into it. -/
def execute (files : Files) (piped : Option ByteArray) (args : List String) : Outcome :=
  match parse args with
  | .error fault => .misuse fault
  | .ok command => .ofResult (command.lines (Source.load files piped))

end EpsilonAutomata.CommandLine
