import EpsilonAutomata.Deterministic.Minimal
import EpsilonAutomata.Files.Specs
import EpsilonAutomata.Simulator

/-!
What operations report while they work. Each operation that reports anything is given here together with
its notices; the results are those of the operation itself.
-/
namespace EpsilonAutomata

inductive Notice where
  | undeclaredSymbol (symbol : Symbol)
  | imported (states transitions : Nat)
  | stateAdded (state : String) (id : Nat) (accepting : Bool)
  | transitionAdded (transition : Automaton.Transition) (source target : Nat)
  | stepped (count : Nat) (symbol : Symbol) (current : NameSet)
  | determinised (subsets states : Nat)
  | minimised (subsets classes : Nat)

namespace Notice

def level : Notice → String
  | undeclaredSymbol _ => "WARN"
  | stepped _ _ _ => "TRACE"
  | _ => "DEBUG"

def message : Notice → String
  | undeclaredSymbol x => "Symbol '" ++ x.glyph ++ "' is used in delta but not declared in sigma"
  | imported states transitions =>
    "Imported automaton with " ++ toString states ++ " states and " ++ toString transitions ++ " transitions"
  | stateAdded state id accepting =>
    "Added state " ++ state ++ " as node " ++ toString id ++ " (accepting: " ++ toString accepting ++ ")"
  | transitionAdded t source target =>
    "Added transition " ++ t.describe ++ " (" ++ toString source ++ " -> " ++ toString target ++ ")"
  | stepped count x current =>
    "step " ++ toString count ++ " on '" ++ x.glyph ++ "': " ++ Text.quoteSet current.names
  | determinised subsets states =>
    "Subset construction produced " ++ toString subsets ++ " states from " ++ toString states
  | minimised subsets classes =>
    "Minimization merged " ++ toString subsets ++ " deterministic states into " ++ toString classes

def line (n : Notice) : String := n.level ++ " " ++ n.message

end Notice

/-- Results together with the notices given on the way, first one first. -/
abbrev Journal := StateM (Array Notice)

namespace Journal

def note (notice : Notice) : Journal Unit := modify (·.push notice)

def toAutomaton (s : Spec) : Journal (Except SpecFault Automaton) := do
  if s.finding?.isNone then
    for x in s.undeclaredSymbols do note (.undeclaredSymbol x)
  return s.toAutomaton

def readAutomaton (text : String) : Journal (Except SpecFault Automaton) := do
  if let .ok s := Spec.read text then
    discard (toAutomaton s)
  return Automaton.read text

def ofSpec (s : Spec) : Journal (Except Error Editor) := do
  if let .ok a ← toAutomaton s then
    note (.imported a.states.size a.transitionCount)
  return Editor.ofSpec s

def readEditor (text : String) : Journal (Except Error Editor) := do
  if let .ok s := Spec.read text then
    discard (ofSpec s)
  return Editor.read text

def loadSpec (files : Files) (path : String) : Journal (Except Error Editor) := do
  if let .ok text := files.read path then
    discard (readEditor text)
  return files.loadSpec path

def loadDirectory (files : Files) (directory : String) :
    Journal (List (Except Error (String × Editor))) := do
  if let .ok paths := files.specPaths directory then
    for path in paths do discard (loadSpec files path)
  return files.loadDirectory directory

def addState (e : Editor) (accepting : Bool) : Journal (Except Error (String × Editor)) := do
  let result := e.addState accepting
  if let .ok (state, _) := result then
    note (.stateAdded state e.graph.nextId accepting)
  return result

def addTransition (e : Editor) (source target : Nat) (x : Symbol) : Journal (Except Error Editor) := do
  let result := e.addTransition source target x
  if let (.ok _, .ok p, .ok r) := (result, e.labelOf source, e.labelOf target) then
    note (.transitionAdded ⟨p, x, r⟩ source target)
  return result

def addBetween (e : Editor) (source destination : String) (x : Symbol) : Journal (Except Error Editor) := do
  if let (.ok p, .ok r) := (e.idOf source, e.idOf destination) then
    discard (addTransition e p r x)
  return e.addBetween source destination x

def step (s : Simulator) (x : Symbol) : Journal Simulator := do
  let next := s.step x
  note (.stepped next.steps x next.current)
  return next

def runWord (s : Simulator) : Word → Journal Simulator
  | [] => return s
  | x :: rest => do
    let next ← step s x
    if next.isDead then return next else runWord next rest

theorem runWord_fst (s : Simulator) (w : Word) (notices : Array Notice) :
    (runWord s w notices).1 = s.run w := by
  induction w generalizing s notices with
  | nil => rfl
  | cons x rest ih =>
    let next := s.step x
    let noted := notices.push (.stepped next.steps x next.current)
    have unfolded : runWord s (x :: rest) notices =
        (if next.isDead then pure next else runWord next rest : Journal Simulator) noted := rfl
    rw [unfolded, Simulator.run]
    split
    · rfl
    · exact ih next noted

def accepts (a : Automaton) (w : Word) : Journal Bool := return (← runWord (.new a) w).isAccepting

def determinise (a : Automaton) : Journal (Except Defect Automaton) := do
  note (.determinised a.subsets.length a.states.size)
  return a.determinise

def minimise (a : Automaton) : Journal (Except Defect Automaton) := do
  note (.minimised a.subsets.length a.subsetTable.trim.kept.length)
  return a.minimise

end Journal
end EpsilonAutomata
