import EpsilonAutomata.Graph

/-!
The drawing in the DOT language of Graphviz, a line for each node and each edge.
-/
namespace EpsilonAutomata

namespace Dot

def escape (c : Char) : List Char :=
  if c = '\\' then ['\\', '\\'] else if c = '"' then ['\\', '"'] else [c]

def quote (label : String) : String :=
  String.ofList (['"'] ++ label.toList.flatMap escape ++ ['"'])

def nodeLine (node : Node) : String :=
  "\t" ++ toString node.id ++ " [label = " ++ quote node.label ++ "];"

def edgeLine (e : Edge) : String :=
  "\t" ++ toString e.source ++ " -> " ++ toString e.target ++ " [label = " ++ quote e.label ++ "];"

def acceptingLines (g : Graph) : List String :=
  match (g.nodes.filter Node.accepting).map fun node => toString node.id with
  | [] => []
  | ids => ["\tnode [shape = doublecircle]; " ++ " ".intercalate ids ++ ";"]

def lines (g : Graph) : List String :=
  ["digraph automaton \x7b", "\trankdir = LR;"] ++ acceptingLines g ++ ["\tnode [shape = circle];"] ++
    g.nodes.map nodeLine ++ ["\tstart [shape = point];", "\tstart -> " ++ toString Graph.firstId ++ ";"] ++
    g.edges.map edgeLine ++ ["\x7d"]

end Dot

def Graph.toDot (g : Graph) : String := "\n".intercalate (Dot.lines g)

end EpsilonAutomata
