/-!
The shortest decimal text of a floating point number. A number `m * 2 ^ e` is what the reals within half
a unit of it are rounded to, the two ends of that range counting when `m` is even. Of the decimals in the
range the ones with the fewest digits are looked for, and of two such neighbours the nearer one is taken.
-/
namespace EpsilonAutomata.Decimal

/-- A positive number `num / den` and the ends `low / den` and `high / den` of its range. -/
structure Range where
  low : Nat
  num : Nat
  high : Nat
  den : Nat
  closed : Bool

def mantissaSize : Nat := 0x10000000000000

def signBit : Nat := 0x8000000000000000

/-- The range of the finite positive number with these bits. Below a power of two the numbers lie twice
as close. -/
def Range.ofBits (bits : Nat) : Range :=
  let stored := bits % mantissaSize
  let level := bits / mantissaSize
  let m := if level = 0 then stored else stored + mantissaSize
  let e : Int := (if level = 0 then 1 else level : Nat) - 1075
  let below := if stored = 0 ∧ 1 < level then 1 else 2
  let up := Nat.pow 2 e.toNat
  { low := (4 * m - below) * up, num := 4 * m * up, high := (4 * m + 2) * up
    den := 4 * Nat.pow 2 (-e).toNat, closed := m % 2 = 0 }

def Range.contains (r : Range) (digits : Nat) (exponent : Int) : Bool :=
  let x := digits * Nat.pow 10 exponent.toNat * r.den
  let scale := Nat.pow 10 (-exponent).toNat
  if r.closed then r.low * scale ≤ x && x ≤ r.high * scale else r.low * scale < x && x < r.high * scale

def Range.neighbour? (r : Range) (exponent : Int) : Option Nat :=
  let unit := Nat.pow 10 exponent.toNat * r.den
  let x := r.num * Nat.pow 10 (-exponent).toNat
  let below := x / unit
  let twice := 2 * (x % unit)
  let preferred := if twice < unit ∨ twice = unit ∧ below % 2 = 0 then below else below + 1
  let other := if preferred = below then below + 1 else below
  if r.contains preferred exponent then some preferred
  else if r.contains other exponent then some other
  else none

def Range.leading (r : Range) : Int :=
  if r.den ≤ r.num then ((Nat.toDigits 10 (r.num / r.den)).length : Int) - 1
  else
    let inverse := (r.den + r.num - 1) / r.num
    Int.negOfNat (Nat.toDigits 10 (inverse - 1)).length

def withoutZeros (digits : Nat) (exponent : Int) : List Char × Int :=
  let written := Nat.toDigits 10 digits
  let zeros := written.reverse.takeWhile (· = '0')
  (written.take (written.length - zeros.length), exponent + zeros.length)

/-- Tries one digit, two digits and so on; seventeen always do. -/
def Range.shortest (r : Range) : List Char × Int :=
  let exponents := (List.range 17).map fun (n : Nat) => r.leading - n
  match exponents.findSome? fun e => (r.neighbour? e).map fun d => (d, e) with
  | some (digits, e) => withoutZeros digits e
  | none => (['0'], 0)

def writePower (power : Int) : List Char :=
  'e' :: (if power < 0 then '-' else '+') :: Nat.toDigits 10 power.natAbs

/-- Positional between 10 to the power of -5 and 16, with at least one digit after the point; else a
digit before the point and an exponent. -/
def layOut (digits : List Char) (exponent : Int) : List Char :=
  let point := digits.length + exponent
  if 0 ≤ exponent ∧ point ≤ 16 then digits ++ List.replicate exponent.toNat '0' ++ ['.', '0']
  else if 0 < point ∧ point ≤ 16 then digits.take point.toNat ++ ['.'] ++ digits.drop point.toNat
  else if -5 < point ∧ point ≤ 0 then ['0', '.'] ++ List.replicate (-point).toNat '0' ++ digits
  else
    match digits with
    | [d] => d :: writePower (point - 1)
    | d :: rest => [d, '.'] ++ rest ++ writePower (point - 1)
    | [] => []

def write (bits : UInt64) : String :=
  let n := bits.toNat
  let sign := if signBit ≤ n then ['-'] else []
  let size := n % signBit
  if size = 0 then String.ofList (sign ++ ['0', '.', '0'])
  else
    let (digits, exponent) := (Range.ofBits size).shortest
    String.ofList (sign ++ layOut digits exponent)

end EpsilonAutomata.Decimal
