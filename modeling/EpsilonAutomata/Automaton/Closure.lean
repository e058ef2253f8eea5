import EpsilonAutomata.Automaton
import EpsilonAutomata.NameSet
import EpsilonAutomata.Search

/-!
The states that an automaton reaches without reading, and those it reaches on one symbol.
-/
namespace EpsilonAutomata.Automaton

def silentSuccessors (a : Automaton) (state : String) : List String := a.destinations state .epsilon

def namedDestinations (a : Automaton) : List String := a.transitions.map (·.destination)

theorem mem_namedDestinations (a : Automaton) (p : String) (x : Symbol) (r : String)
    (h : r ∈ a.destinations p x) : r ∈ a.namedDestinations := by
  unfold destinations at h
  split at h
  · next s hs =>
    obtain ⟨row, hrow, hs⟩ := Option.bind_eq_some_iff.1 hs
    refine List.mem_map.2 ⟨⟨p, x, r⟩, ?_, rfl⟩
    refine List.mem_flatMap.2 ⟨(p, row), OrderedMap.find?_eq_some.1 hrow, ?_⟩
    exact List.mem_flatMap.2 ⟨(x, s), OrderedMap.find?_eq_some.1 hs, List.mem_map.2 ⟨r, h, rfl⟩⟩
  · cases h

theorem bounded_silentSuccessors (a : Automaton) (seed : List String) :
    Search.Bounded a.silentSuccessors seed := by
  refine ⟨seed ++ a.namedDestinations, fun x hx => List.mem_append.2 ?_⟩
  cases hx with
  | start h => exact .inl h
  | step _ h => exact .inr (a.mem_namedDestinations _ _ _ h)

/-- All names reached from the given ones by epsilon transitions, the given ones included. -/
def closure (a : Automaton) (seed : NameSet) : NameSet :=
  .ofList (Search.search a.silentSuccessors seed.names (a.bounded_silentSuccessors seed.names))

/-- All names reached by one transition on `x` and then by epsilon transitions. -/
def move (a : Automaton) (current : NameSet) (x : Symbol) : NameSet :=
  a.closure (.ofList (current.names.flatMap fun state => a.destinations state x))

def start (a : Automaton) : NameSet := a.closure (.ofList [a.initial])

def acceptsIn (a : Automaton) (current : NameSet) : Bool := current.names.any a.isAccepting

end EpsilonAutomata.Automaton
