import EpsilonAutomata.Json.Reader

/-!
Numbers. They are scanned first and valued afterwards. A whole number of 64 bits is exact. Of any other
number the leading digits that fit into 64 bits count, scaled by a power of ten in floating point.
-/
namespace EpsilonAutomata.Json

structure Numeral where
  negative : Bool
  whole : List Char
  fraction : List Char
  exponent : Option (Bool × List Char)

namespace Numeral

def isDigit (c : Char) : Bool := '0' ≤ c && c ≤ '9'

def digitValue (c : Char) : Nat := c.toNat - '0'.toNat

def scanDigits (atEnd : Fault) (s : Text) : Except Fault (List Char × Text) :=
  match s with
  | [] => .error atEnd
  | c :: rest =>
    if isDigit c then .ok (c :: rest.takeWhile isDigit, rest.dropWhile isDigit)
    else .error .invalidNumber

/-- The digits before the point: no zero in front of another digit. -/
def scanWhole (atEnd : Fault) (s : Text) : Except Fault (List Char × Text) :=
  match s with
  | '0' :: c :: rest => if isDigit c then .error .invalidNumber else .ok (['0'], c :: rest)
  | s => scanDigits atEnd s

def scanFraction (atEnd : Fault) (s : Text) : Except Fault (List Char × Text) :=
  match s with
  | '.' :: rest => scanDigits atEnd rest
  | s => .ok ([], s)

def scanSign (s : Text) : Bool × Text :=
  match s with
  | '-' :: rest => (true, rest)
  | '+' :: rest => (false, rest)
  | s => (false, s)

def scanExponent (atEnd : Fault) (s : Text) : Except Fault (Option (Bool × List Char) × Text) :=
  match s with
  | c :: rest =>
    if c = 'e' ∨ c = 'E' then
      (scanDigits atEnd (scanSign rest).2).map fun (digits, after) =>
        (some ((scanSign rest).1, digits), after)
    else .ok (none, c :: rest)
  | [] => .ok (none, [])

def scan (atEnd : Fault) (negative : Bool) (s : Text) : Except Fault (Numeral × Text) :=
  match scanWhole atEnd s with
  | .error fault => .error fault
  | .ok (whole, s) =>
    match scanFraction atEnd s with
    | .error fault => .error fault
    | .ok (fraction, s) =>
      (scanExponent atEnd s).map fun (exponent, s) => (⟨negative, whole, fraction, exponent⟩, s)

theorem scanDigits_shrinks {atEnd : Fault} {s rest : Text} {digits : List Char}
    (h : scanDigits atEnd s = .ok (digits, rest)) : rest.length < s.length := by
  unfold scanDigits at h
  split at h
  · cases h
  · next c t =>
    split at h
    · cases h
      have := (List.dropWhile_suffix isDigit (l := t)).length_le
      rw [List.length_cons]
      omega
    · cases h

theorem scanWhole_shrinks {atEnd : Fault} {s rest : Text} {digits : List Char}
    (h : scanWhole atEnd s = .ok (digits, rest)) : rest.length < s.length := by
  unfold scanWhole at h
  split at h
  · split at h
    · cases h
    · cases h; simp
  · exact scanDigits_shrinks h

theorem length_scanFraction_le {atEnd : Fault} {s rest : Text} {digits : List Char}
    (h : scanFraction atEnd s = .ok (digits, rest)) : rest.length ≤ s.length := by
  unfold scanFraction at h
  split at h
  · have := scanDigits_shrinks h
    rw [List.length_cons]
    omega
  · cases h; exact Nat.le_refl _

theorem length_scanSign_le (s : Text) : (scanSign s).2.length ≤ s.length := by
  unfold scanSign
  split <;> simp

theorem length_scanExponent_le {atEnd : Fault} {s rest : Text} {exponent : Option (Bool × List Char)}
    (h : scanExponent atEnd s = .ok (exponent, rest)) : rest.length ≤ s.length := by
  unfold scanExponent at h
  split at h
  · next c t =>
    split at h
    · cases hd : scanDigits atEnd (scanSign t).2 with
      | error fault => rw [hd] at h; cases h
      | ok p =>
        rw [hd] at h
        cases h
        have h1 := scanDigits_shrinks hd
        have h2 := length_scanSign_le t
        rw [List.length_cons]
        omega
    · cases h; simp
  · cases h; simp

theorem scan_shrinks {atEnd : Fault} {negative : Bool} {s rest : Text} {n : Numeral}
    (h : scan atEnd negative s = .ok (n, rest)) : rest.length < s.length := by
  unfold scan at h
  split at h
  · cases h
  · next whole s1 h1 =>
    split at h
    · cases h
    · next fraction s2 h2 =>
      cases h3 : scanExponent atEnd s2 with
      | error fault => rw [h3] at h; cases h
      | ok p =>
        rw [h3] at h
        cases h
        have := scanWhole_shrinks h1
        have := length_scanFraction_le h2
        have := length_scanExponent_le h3
        omega

def limit : Nat := 0x10000000000000000

/-- Takes in digits as long as the number stays below the limit, and returns those left over. -/
def significand (n : Nat) : List Char → Nat × List Char
  | [] => (n, [])
  | c :: rest =>
    if n * 10 + digitValue c < limit then significand (n * 10 + digitValue c) rest else (n, c :: rest)

def powerOfTen (n : Nat) : Float := Float.ofScientific 1 false n

def isInfinite (x : Float) : Bool := x == 1.0 / 0.0 || x == -1.0 / 0.0

def divideByPower (x : Float) (n : Nat) : Float :=
  if n ≤ 308 then x / powerOfTen n
  else if x == 0.0 then x
  else divideByPower (x / powerOfTen 308) (n - 308)
termination_by n
decreasing_by omega

def scale (significand : Nat) (exponent : Int) : Except Fault Float :=
  let x := significand.toUInt64.toFloat
  if exponent < 0 then .ok (divideByPower x exponent.natAbs)
  else if exponent.natAbs ≤ 308 then
    let y := x * powerOfTen exponent.natAbs
    if isInfinite y then .error .numberOutOfRange else .ok y
  else if significand = 0 then .ok x
  else .error .numberOutOfRange

/-- Exponents beyond 31 bits are not added up. -/
def exponentLimit : Nat := 2147483647

/-- The digits after the point that count lower the exponent by one each; digits before it that do not
fit raise it. -/
def magnitude (n : Numeral) : Except Fault Float :=
  let (leading, surplus) := significand 0 n.whole
  let (all, ignored) := significand leading n.fraction
  let shift : Int := surplus.length - (n.fraction.length - ignored.length : Nat)
  match n.exponent with
  | none => scale all shift
  | some (negative, digits) =>
    let e := Nat.ofDigitChars 10 digits 0
    if exponentLimit < e then
      if all ≠ 0 ∧ ¬ negative then .error .numberOutOfRange else .ok 0.0
    else scale all (if negative then shift - e else shift + e)

def isWhole (n : Numeral) : Bool := n.fraction.isEmpty && n.exponent.isNone

/-- Negative zero and whole numbers beyond 64 bits are floating point numbers. -/
def value (n : Numeral) : Except Fault Number :=
  let size := Nat.ofDigitChars 10 n.whole 0
  if n.isWhole ∧ ¬ n.negative ∧ size < limit then .ok (.whole size)
  else if n.isWhole ∧ n.negative ∧ 0 < size ∧ 2 * size ≤ limit then .ok (.whole (-size))
  else n.magnitude.map fun x => .floating (if n.negative then -x else x).toBits

end Numeral
end EpsilonAutomata.Json
