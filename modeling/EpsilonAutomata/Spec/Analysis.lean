import EpsilonAutomata.NameSet
import EpsilonAutomata.Spec

/-!
What is wrong with a specification. Of several findings the first counts, in the order states, initial
state, accepting states, sources, destinations.
-/
namespace EpsilonAutomata

inductive Finding where
  | noStates
  | repeatedStates (states : List String)
  | undeclaredInitial (state : String)
  | undeclaredAccepting (states : List String)
  | undeclaredSources (states : List String)
  | undeclaredDestinations (states : List String)
  | noDestination (source : String) (symbol : Symbol)
deriving DecidableEq

namespace Spec

def repeated : List String → List String
  | [] => []
  | x :: rest => if x ∈ rest then x :: repeated rest else repeated rest

def undeclared (s : Spec) (names : List String) : List String := names.filter (· ∉ s.states)

def statesFinding? (s : Spec) : Option Finding :=
  if s.states.isEmpty then some .noStates
  else match repeated s.states with
    | [] => none
    | names => some (.repeatedStates (NameSet.ofList names).names)

def initialFinding? (s : Spec) : Option Finding :=
  if s.initial ∈ s.states then none else some (.undeclaredInitial s.initial)

def acceptingFinding? (s : Spec) : Option Finding :=
  match s.undeclared s.accepting with
  | [] => none
  | names => some (.undeclaredAccepting names)

def sourcesFinding? (s : Spec) : Option Finding :=
  match s.undeclared s.delta.keys with
  | [] => none
  | names => some (.undeclaredSources names)

/-- An entry without a destination counts before any destination that is not declared. -/
def destinationsFinding? (s : Spec) : Option Finding :=
  match s.entries.find? fun e => e.targets.toList.isEmpty with
  | some e => some (.noDestination e.source e.symbol)
  | none => match s.undeclared (s.entries.flatMap fun e => e.targets.toList) with
    | [] => none
    | names => some (.undeclaredDestinations (NameSet.ofList names).names)

def finding? (s : Spec) : Option Finding :=
  s.statesFinding? <|> s.initialFinding? <|> s.acceptingFinding? <|> s.sourcesFinding? <|>
    s.destinationsFinding?

end Spec
end EpsilonAutomata
