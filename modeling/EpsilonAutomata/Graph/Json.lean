import EpsilonAutomata.Graph
import EpsilonAutomata.Json.Layout

/-!
The drawing as JSON, the fields of every object in alphabetical order. Accepting nodes have a bold border
and a title.
-/
namespace EpsilonAutomata

open Json

def writeNumber (n : Nat) : Text := (toString n).toList

def Node.write (depth : Nat) (node : Node) : Text :=
  let border := if node.accepting then [("borderWidth", writeNumber 3)] else []
  let title := if node.accepting then writeText "accepting" else "null".toList
  writeObject depth (border ++ [("id", writeNumber node.id), ("label", writeText node.label), ("title", title)])

def Edge.write (depth : Nat) (e : Edge) : Text :=
  writeObject depth
    [("from", writeNumber e.source), ("label", writeText e.label), ("to", writeNumber e.target)]

def Graph.toJson (g : Graph) : String :=
  String.ofList (writeObject 0 [
    ("edges", writeList 1 (g.edges.map (Edge.write 2))),
    ("nodes", writeList 1 (g.nodes.map (Node.write 2)))])

end EpsilonAutomata
