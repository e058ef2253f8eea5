/-!
What can be wrong with a JSON text that is to be read as data of a given form.
-/
namespace EpsilonAutomata.Json

/-- Numbers as they are read: whole ones of 64 bits, and the bits of a floating point number. -/
inductive Number where
  | whole (value : Int)
  | floating (bits : UInt64)
deriving DecidableEq

inductive Found where
  | null
  | bool (value : Bool)
  | number (value : Number)
  | text (value : String)
  | list
  | object
deriving DecidableEq

inductive Needed where
  | text
  | list
  | map
  | spec
deriving DecidableEq

inductive Bracket where
  | list
  | object
deriving DecidableEq

inductive Fault where
  | endInValue
  | endInText
  | endInside (bracket : Bracket)
  | valueNeeded
  | literalNeeded
  | colonNeeded
  | commaOrEndNeeded (bracket : Bracket)
  | trailingComma
  | trailingCharacters
  | keyNotText
  | invalidNumber
  | numberOutOfRange
  | controlCharacter
  | invalidEscape
  | halfSurrogatePair
  | loneSurrogate
  | tooDeep
  | mismatch (found : Found) (needed : Needed)
  | tooShort (length : Nat)
  | fieldMissing (name : String)
  | fieldRepeated (name : String)
  | notDestinations
deriving DecidableEq

end EpsilonAutomata.Json
