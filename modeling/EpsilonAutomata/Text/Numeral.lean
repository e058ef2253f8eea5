/-!
Decimal numerals of natural numbers up to a limit. A numeral may open with a plus sign and with zeros;
a text that exceeds the limit is no numeral.
-/
namespace EpsilonAutomata.Numeral

def word32 : Nat := 4294967295

def word64 : Nat := 18446744073709551615

def unsigned (text : List Char) : List Char :=
  match text with
  | '+' :: rest => rest
  | _ => text

def read? (limit : Nat) (text : List Char) : Option Nat :=
  let digits := unsigned text
  if digits.isEmpty || !digits.all Char.isDigit then none
  else
    let value := Nat.ofDigitChars 10 digits 0
    if value ≤ limit then some value else none

end EpsilonAutomata.Numeral
