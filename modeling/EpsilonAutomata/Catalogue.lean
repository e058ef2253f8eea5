import EpsilonAutomata.Error

/-!
The built-in examples, found by index or by name, and the texts that they are read from.
-/
namespace EpsilonAutomata

def Text.ofLines (lines : List String) : String := String.join (lines.map (· ++ "\n"))

structure Example where
  name : String
  automaton : Automaton

structure Summary where
  index : Nat
  name : String
  initial : String
  states : Nat
  symbols : Nat
  transitions : Nat
  accepting : Nat

namespace Catalogue

def sampleLines : List String := [
  "\x7b",
  "  \"q\": [\"q0\", \"q2\", \"q3\", \"q4\"],",
  "  \"sigma\": [\"0\", \"1\", \"\"],",
  "  \"delta\": \x7b",
  "    \"q0\": \x7b",
  "      \"0\": [\"q2\", \"q3\", \"q4\"],",
  "      \"1\": \"q4\",",
  "      \"\": \"q4\"",
  "    \x7d,",
  "    \"q2\": \x7b",
  "      \"1\": [\"q2\", \"q3\", \"q4\"]",
  "    \x7d,",
  "    \"q3\": \x7b\x7d,",
  "    \"q4\": \x7b",
  "      \"1\": [\"q2\", \"q0\"]",
  "    \x7d",
  "  \x7d,",
  "  \"initial_state\": \"q0\",",
  "  \"f\": [\"q4\"]",
  "\x7d"]

def endsWithZeroOneLines : List String := [
  "\x7b",
  "  \"q\": [\"q0\", \"q1\", \"q2\"],",
  "  \"sigma\": [\"0\", \"1\"],",
  "  \"delta\": \x7b",
  "    \"q0\": \x7b",
  "      \"0\": [\"q0\", \"q1\"],",
  "      \"1\": \"q0\"",
  "    \x7d,",
  "    \"q1\": \x7b",
  "      \"1\": \"q2\"",
  "    \x7d,",
  "    \"q2\": \x7b\x7d",
  "  \x7d,",
  "  \"initial_state\": \"q0\",",
  "  \"f\": [\"q2\"]",
  "\x7d"]

def evenZerosLines : List String := [
  "\x7b",
  "  \"q\": [\"even\", \"odd\"],",
  "  \"sigma\": [\"0\", \"1\"],",
  "  \"delta\": \x7b",
  "    \"even\": \x7b",
  "      \"0\": \"odd\",",
  "      \"1\": \"even\"",
  "    \x7d,",
  "    \"odd\": \x7b",
  "      \"0\": \"even\",",
  "      \"1\": \"odd\"",
  "    \x7d",
  "  \x7d,",
  "  \"initial_state\": \"even\",",
  "  \"f\": [\"even\"]",
  "\x7d"]

def multiplesOfThreeLines : List String := [
  "\x7b",
  "  \"q\": [\"r0\", \"r1\", \"r2\"],",
  "  \"sigma\": [\"0\", \"1\"],",
  "  \"delta\": \x7b",
  "    \"r0\": \x7b",
  "      \"0\": \"r0\",",
  "      \"1\": \"r1\"",
  "    \x7d,",
  "    \"r1\": \x7b",
  "      \"0\": \"r2\",",
  "      \"1\": \"r0\"",
  "    \x7d,",
  "    \"r2\": \x7b",
  "      \"0\": \"r1\",",
  "      \"1\": \"r2\"",
  "    \x7d",
  "  \x7d,",
  "  \"initial_state\": \"r0\",",
  "  \"f\": [\"r0\"]",
  "\x7d"]

def zerosThenOnesLines : List String := [
  "\x7b",
  "  \"q\": [\"q0\", \"q1\", \"q2\"],",
  "  \"sigma\": [\"0\", \"1\", \"\"],",
  "  \"delta\": \x7b",
  "    \"q0\": \x7b",
  "      \"0\": \"q0\",",
  "      \"\": \"q1\"",
  "    \x7d,",
  "    \"q1\": \x7b",
  "      \"1\": \"q1\",",
  "      \"\": \"q2\"",
  "    \x7d,",
  "    \"q2\": \x7b\x7d",
  "  \x7d,",
  "  \"initial_state\": \"q0\",",
  "  \"f\": [\"q2\"]",
  "\x7d"]

/-- The specifications of the examples, line by line. -/
def texts : List (String × List String) := [
  ("Sample epsilon-NFA", sampleLines),
  ("Ends with 01", endsWithZeroOneLines),
  ("Even number of zeros", evenZerosLines),
  ("Binary multiples of three", multiplesOfThreeLines),
  ("Zeros then ones", zerosThenOnesLines)]

/-- A text that is no automaton is left out. -/
def examples : List Example :=
  texts.filterMap fun (name, lines) =>
    (Automaton.read (Text.ofLines lines)).toOption.map fun a => ⟨name, a⟩

def byIndex (n : Nat) : Except Error Example :=
  examples[n]?.elim (.error (.unknownExample (.index n))) .ok

/-- Small and capital letters from A to Z are not told apart. -/
def byName (name : String) : Except Error Example :=
  (examples.find? fun e => e.name.toLower == name.toLower).elim (.error (.unknownExample (.name name))) .ok

def summary (n : Nat) : Except Error Summary :=
  (byIndex n).map fun e => {
    index := n
    name := e.name
    initial := e.automaton.initial
    states := e.automaton.states.size
    symbols := e.automaton.alphabet.size
    transitions := e.automaton.transitionCount
    accepting := e.automaton.accepting.size }

end Catalogue
end EpsilonAutomata
