/-!
The symbols of an alphabet. Epsilon, the symbol that reads nothing, is kept apart from every token; its
key in written form is the empty text, so a token is never empty (`ofKey_key`, `key_ofKey`).
-/
namespace EpsilonAutomata

inductive Symbol where
  | epsilon
  | token (text : String) (nonempty : text ≠ "")
deriving DecidableEq

namespace Symbol

def ofKey (key : String) : Symbol := if h : key = "" then epsilon else token key h

def ofChar (c : Char) : Symbol := ofKey (String.singleton c)

def key : Symbol → String
  | epsilon => ""
  | token text _ => text

/-- The text drawn on an edge. The token `ε` looks the same as epsilon there. -/
def glyph : Symbol → String
  | epsilon => "ε"
  | token text _ => text

def isEpsilon : Symbol → Bool
  | epsilon => true
  | token _ _ => false

@[simp] theorem ofKey_key (x : Symbol) : ofKey x.key = x := by
  cases x with
  | epsilon => rfl
  | token text nonempty => simp [key, ofKey, nonempty]

@[simp] theorem key_ofKey (text : String) : (ofKey text).key = text := by
  unfold ofKey
  split
  · next h => exact h.symm
  · rfl

theorem key_injective {x y : Symbol} (h : x.key = y.key) : x = y := by
  rw [← ofKey_key x, ← ofKey_key y, h]

theorem isEpsilon_iff (x : Symbol) : x.isEpsilon = true ↔ x = epsilon := by
  cases x <;> simp [isEpsilon]

def sort (l : List Symbol) : List Symbol := l.mergeSort fun x y => decide (x.key ≤ y.key)

end Symbol
end EpsilonAutomata
