import EpsilonAutomata.Automaton

/-!
The drawing of an automaton: a node for each state, addressed by a number, and edges that carry the
symbols of transitions. A drawing made at once has one edge per transition; a symbol added later joins
the first edge between its nodes.
-/
namespace EpsilonAutomata

structure Node where
  id : Nat
  label : String
  accepting : Bool
deriving DecidableEq

structure Edge where
  source : Nat
  target : Nat
  symbols : List Symbol
deriving DecidableEq

def Edge.label (e : Edge) : String := ", ".intercalate (e.symbols.map Symbol.glyph)

structure Graph where
  nodes : List Node
  edges : List Edge
deriving DecidableEq

namespace Graph

def empty : Graph := ⟨[], []⟩

def firstId : Nat := 1

def node? (g : Graph) (id : Nat) : Option Node := g.nodes.find? fun node => node.id == id

def nodeOf? (g : Graph) (label : String) : Option Node := g.nodes.find? fun node => node.label == label

def edge? (g : Graph) (source target : Nat) : Option Edge :=
  g.edges.find? fun e => e.source == source && e.target == target

def nextId (g : Graph) : Nat :=
  match (g.nodes.map Node.id).max? with
  | none => firstId
  | some largest => largest + 1

/-- The nodes of an automaton: the initial state first, then the other states in their order. -/
def nodesOf (a : Automaton) : List Node :=
  let labels := a.initial :: a.states.toList.filter (· ≠ a.initial)
  labels.mapIdx fun i label => ⟨firstId + i, label, a.isAccepting label⟩

def edgeOf? (nodes : List Node) (t : Automaton.Transition) : Option Edge := do
  let source ← nodes.find? fun node => node.label == t.source
  let target ← nodes.find? fun node => node.label == t.destination
  return ⟨source.id, target.id, [t.symbol]⟩

def ofAutomaton (a : Automaton) : Graph :=
  let nodes := nodesOf a
  ⟨nodes, a.transitions.filterMap (edgeOf? nodes)⟩

def addNode (g : Graph) (node : Node) : Graph := { g with nodes := g.nodes ++ [node] }

/-- Puts a symbol on the first edge between the nodes, once, or on a new edge at the end. -/
def addSymbolTo (source target : Nat) (x : Symbol) : List Edge → List Edge
  | [] => [⟨source, target, [x]⟩]
  | e :: rest =>
    if e.source = source ∧ e.target = target then
      (if x ∈ e.symbols then e else { e with symbols := e.symbols ++ [x] }) :: rest
    else e :: addSymbolTo source target x rest

def addSymbol (g : Graph) (source target : Nat) (x : Symbol) : Graph :=
  { g with edges := addSymbolTo source target x g.edges }

end Graph
end EpsilonAutomata
