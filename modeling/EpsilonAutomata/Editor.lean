import EpsilonAutomata.Error
import EpsilonAutomata.Graph

/-!
An automaton under construction together with its drawing. Every operation changes both or, when it
fails, neither.
-/
namespace EpsilonAutomata

structure Editor where
  automaton : Automaton
  graph : Graph
deriving DecidableEq

namespace Editor

def ofAutomaton (a : Automaton) : Editor := ⟨a, .ofAutomaton a⟩

def new : Editor := ofAutomaton .new

/-- The automata are compared up to order, the drawings exactly. -/
instance : HasEquiv Editor := ⟨fun e f => e.automaton ≈ f.automaton ∧ e.graph = f.graph⟩

instance (e f : Editor) : Decidable (e ≈ f) :=
  inferInstanceAs (Decidable (e.automaton ≈ f.automaton ∧ e.graph = f.graph))

def ofSpec (s : Spec) : Except Error Editor := (s.toAutomaton.mapError .spec).map ofAutomaton

def read (text : String) : Except Error Editor :=
  match Spec.read text with
  | .error fault => .error (.spec fault)
  | .ok s => ofSpec s

def toSpec (e : Editor) : Spec := e.automaton.toSpec

/-- Adds a state shown by the next node. Its number is above all numbers in use, and not below that of
the node. -/
def addState (e : Editor) (accepting : Bool) : Except Error (String × Editor) :=
  match e.automaton.nextSuffix with
  | .error defect => .error (.invariant defect)
  | .ok suffix =>
    let id := e.graph.nextId
    let state := stateName (max suffix id)
    if (e.graph.nodeOf? state).isSome then .error (.invariant (.stateShown state))
    else match e.automaton.addState state accepting with
      | .error defect => .error (.invariant defect)
      | .ok a => .ok (state, ⟨a, e.graph.addNode ⟨id, state, accepting⟩⟩)

def labelOf (e : Editor) (id : Nat) : Except Error String :=
  match e.graph.node? id with
  | some node => .ok node.label
  | none => .error (.unknownState (toString id))

def idOf (e : Editor) (state : String) : Except Error Nat :=
  match e.graph.nodeOf? state with
  | some node => .ok node.id
  | none => .error (.unknownState state)

/-- Adds a transition between two nodes, the first one being looked up first. -/
def addTransition (e : Editor) (source target : Nat) (x : Symbol) : Except Error Editor :=
  match e.labelOf source with
  | .error error => .error error
  | .ok p => match e.labelOf target with
    | .error error => .error error
    | .ok r => match e.automaton.addTransition p r x with
      | .error unknown => .error (.unknownState unknown.name)
      | .ok (a, _) => .ok ⟨a, e.graph.addSymbol source target x⟩

def addBetween (e : Editor) (source destination : String) (x : Symbol) : Except Error Editor :=
  match e.idOf source with
  | .error error => .error error
  | .ok p => match e.idOf destination with
    | .error error => .error error
    | .ok r => e.addTransition p r x

end Editor
end EpsilonAutomata
