import EpsilonAutomata.Automaton.Closure
import EpsilonAutomata.Symbol.Word

/-!
A run of an automaton: the states it may be in and how many symbols it has consumed. A run is dead once
no state is left; reading a word stops there.
-/
namespace EpsilonAutomata

structure Simulator where
  automaton : Automaton
  current : NameSet
  steps : Nat
deriving DecidableEq

namespace Simulator

def new (a : Automaton) : Simulator := ⟨a, a.start, 0⟩

def reset (s : Simulator) : Simulator := new s.automaton

def step (s : Simulator) (x : Symbol) : Simulator :=
  { s with current := s.automaton.move s.current x, steps := s.steps + 1 }

def isDead (s : Simulator) : Bool := s.current.isEmpty

def isAccepting (s : Simulator) : Bool := s.automaton.acceptsIn s.current

/-- Reads symbols up to and including the first that leaves no state. -/
def run (s : Simulator) : Word → Simulator
  | [] => s
  | x :: rest => if (s.step x).isDead then s.step x else (s.step x).run rest

end Simulator

namespace Automaton

def accepts (a : Automaton) (w : Word) : Bool := ((Simulator.new a).run w).isAccepting

end Automaton
end EpsilonAutomata
