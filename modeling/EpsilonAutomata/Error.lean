import EpsilonAutomata.Automaton.Edit
import EpsilonAutomata.Decimal.Shortest
import EpsilonAutomata.Spec.Conversion
import EpsilonAutomata.Text.Quoted

/-!
Everything that can go wrong, by cause, and the wording of each cause.
-/
namespace EpsilonAutomata

namespace Json

def Number.describe : Number → String
  | whole value => "integer `" ++ toString value ++ "`"
  | floating bits => "floating point `" ++ Decimal.write bits ++ "`"

def Found.describe : Found → String
  | null => "null"
  | bool value => "boolean `" ++ toString value ++ "`"
  | number value => value.describe
  | text value => "string " ++ Text.quote value
  | list => "sequence"
  | object => "map"

def specName : String := "struct AutomatonSpec"

def Needed.describe : Needed → String
  | text => "a string"
  | list => "a sequence"
  | map => "a map"
  | spec => specName

def Fault.message : Fault → String
  | endInValue => "EOF while parsing a value"
  | endInText => "EOF while parsing a string"
  | endInside .list => "EOF while parsing a list"
  | endInside .object => "EOF while parsing an object"
  | valueNeeded => "expected value"
  | literalNeeded => "expected ident"
  | colonNeeded => "expected `:`"
  | commaOrEndNeeded .list => "expected `,` or `]`"
  | commaOrEndNeeded .object => "expected `,` or `\x7d`"
  | trailingComma => "trailing comma"
  | trailingCharacters => "trailing characters"
  | keyNotText => "key must be a string"
  | invalidNumber => "invalid number"
  | numberOutOfRange => "number out of range"
  | controlCharacter => "control character (\\u0000-\\u001F) found while parsing a string"
  | invalidEscape => "invalid escape"
  | halfSurrogatePair => "unexpected end of hex escape"
  | loneSurrogate => "lone leading surrogate in hex escape"
  | tooDeep => "recursion limit exceeded"
  | mismatch found needed => "invalid type: " ++ found.describe ++ ", expected " ++ needed.describe
  | tooShort length => "invalid length " ++ toString length ++ ", expected " ++ specName ++ " with 5 elements"
  | fieldMissing name => "missing field `" ++ name ++ "`"
  | fieldRepeated name => "duplicate field `" ++ name ++ "`"
  | notDestinations => "data did not match any variant of untagged enum Targets"

end Json

def Automaton.Transition.describe (t : Automaton.Transition) : String :=
  t.source ++ " --" ++ t.symbol.glyph ++ "--> " ++ t.destination

def Defect.message : Defect → String
  | undeclaredInitial state => "initial state '" ++ state ++ "' is not a declared state"
  | undeclaredAccepting state => "accepting state '" ++ state ++ "' is not a declared state"
  | undeclaredSource state => "transition source '" ++ state ++ "' is not a declared state"
  | undeclaredDestination t => "transition " ++ t.describe ++ " targets an undeclared state"
  | foreignSymbol t => "transition " ++ t.describe ++ " uses a symbol outside the alphabet"
  | noDestination source x => "transition from '" ++ source ++ "' on '" ++ x.glyph ++ "' has no destination"
  | stateInUse state => "state identifier '" ++ state ++ "' is already in use"
  | stateShown state => "state identifier '" ++ state ++ "' is already shown in the graph"
  | suffixesExhausted largest => "no state identifier left above '" ++ stateName largest ++ "'"

def Finding.message : Finding → String
  | noStates => "No states declared in q"
  | repeatedStates states => "States declared more than once: " ++ Text.quoteList states
  | undeclaredInitial state => "Initial state '" ++ state ++ "' is not declared in q"
  | undeclaredAccepting states => "Accepting states not declared in q: " ++ Text.quoteList states
  | undeclaredSources states => "Transitions leave states not declared in q: " ++ Text.quoteList states
  | undeclaredDestinations states =>
    "Transitions reference states not declared in q: " ++ Text.quoteList states
  | noDestination source x => "Transition from '" ++ source ++ "' on '" ++ x.glyph ++ "' has no destination"

def Defect.title : String := "Invariant violation: "

def SpecFault.message : SpecFault → String
  | tooLarge bytes =>
    "Specification is " ++ toString bytes ++ " bytes, the limit is " ++ toString Spec.sizeLimit ++ " bytes"
  | json f => f.message
  | finding f => f.message
  | defect d => Defect.title ++ d.message

inductive FileRefusal where
  | notFound
  | isDirectory
  | notDirectory
  | notText
  | nameTooLong
  | nulInName
  | denied
  | other (text : String)
deriving DecidableEq

def FileRefusal.message : FileRefusal → String
  | notFound => "No such file or directory (os error 2)"
  | isDirectory => "Is a directory (os error 21)"
  | notDirectory => "Not a directory (os error 20)"
  | notText => "stream did not contain valid UTF-8"
  | nameTooLong => "File name too long (os error 36)"
  | nulInName => "file name contained an unexpected NUL byte"
  | denied => "Permission denied (os error 13)"
  | other text => text

inductive FileFault where
  | unreadable (path : String) (refusal : FileRefusal)
  | unwritable (path : String) (refusal : FileRefusal)
  | unlistable (path : String) (refusal : FileRefusal)
  | noDirectory (path : String)
  | badInput (refusal : FileRefusal)
  | nothingGiven
deriving DecidableEq

def FileFault.message : FileFault → String
  | unreadable path refusal => "Failed to read file " ++ path ++ ": " ++ refusal.message
  | unwritable path refusal => "Failed to write file " ++ path ++ ": " ++ refusal.message
  | unlistable path refusal => "Failed to read directory " ++ path ++ ": " ++ refusal.message
  | noDirectory path => "Directory " ++ path ++ " does not exist"
  | badInput refusal => "Failed to read from stdin: " ++ refusal.message
  | nothingGiven => "No automaton given; use --file, --example or pipe a specification on stdin"

inductive ExampleKey where
  | index (n : Nat)
  | name (text : String)
deriving DecidableEq

def ExampleKey.describe : ExampleKey → String
  | index n => "#" ++ toString n
  | name text => "'" ++ text ++ "'"

inductive Error where
  | unknownState (name : String)
  | spec (fault : SpecFault)
  | invariant (defect : Defect)
  | unknownExample (key : ExampleKey)
  | file (fault : FileFault)
deriving DecidableEq

def Error.message : Error → String
  | unknownState name => "Unknown state: " ++ name
  | spec fault => "Specification parsing error: " ++ fault.message
  | invariant defect => Defect.title ++ defect.message
  | unknownExample key => "Unknown example: " ++ key.describe
  | file fault => "File error: " ++ fault.message

end EpsilonAutomata
