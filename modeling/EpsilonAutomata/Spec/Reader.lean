import EpsilonAutomata.Json.Value
import EpsilonAutomata.Spec

/-!
Reading a specification from JSON. The fields `q`, `sigma`, `delta`, `initial_state` and `f` stand in an
object in any order, each once, among others that are passed over; or their values stand in a list in
this order.
-/
namespace EpsilonAutomata
namespace Spec

inductive Field where
  | states
  | alphabet
  | delta
  | initial
  | accepting
deriving DecidableEq

namespace Field

def key : Field → String
  | states => "q"
  | alphabet => "sigma"
  | delta => "delta"
  | initial => "initial_state"
  | accepting => "f"

def all : List Field := [states, alphabet, delta, initial, accepting]

def ofKey? (key : String) : Option Field := all.find? fun field => field.key == key

end Field

structure Draft where
  states : Option (List String)
  alphabet : Option (List Symbol)
  delta : Option (OrderedMap String (OrderedMap Symbol Targets))
  initial : Option String
  accepting : Option (List String)

namespace Draft

def empty : Draft := ⟨none, none, none, none, none⟩

def has (d : Draft) : Field → Bool
  | .states => d.states.isSome
  | .alphabet => d.alphabet.isSome
  | .delta => d.delta.isSome
  | .initial => d.initial.isSome
  | .accepting => d.accepting.isSome

def need {α : Type} (field : Field) : Option α → Except Json.Fault α
  | some value => .ok value
  | none => .error (.fieldMissing field.key)

def toSpec (d : Draft) : Except Json.Fault Spec := do
  let states ← need .states d.states
  let alphabet ← need .alphabet d.alphabet
  let delta ← need .delta d.delta
  let initial ← need .initial d.initial
  let accepting ← need .accepting d.accepting
  return ⟨states, alphabet, delta, initial, accepting⟩

end Draft

/-- How deep a value among the destinations may be nested: 127 brackets less the three around it. -/
def targetDepth : Nat := 124

open Json (Reader)

def texts : Reader (List String) := Reader.list Reader.text

def symbols : Reader (List Symbol) := Reader.list (Reader.text.map Symbol.ofKey)

def targets : Reader Targets :=
  (Reader.shape targetDepth).check fun
    | .text value => .ok (.one value)
    | .texts values => .ok (.many values)
    | .other => .error .notDestinations

def rowReader : Reader (OrderedMap Symbol Targets) :=
  Reader.object (fun row key => targets.map (row.insert (Symbol.ofKey key))) ∅

def deltaReader : Reader (OrderedMap String (OrderedMap Symbol Targets)) :=
  Reader.object (fun delta key => rowReader.map (delta.insert key)) ∅

def fieldReader (d : Draft) : Field → Reader Draft
  | .states => texts.map fun states => { d with states := some states }
  | .alphabet => symbols.map fun alphabet => { d with alphabet := some alphabet }
  | .delta => deltaReader.map fun delta => { d with delta := some delta }
  | .initial => Reader.text.map fun initial => { d with initial := some initial }
  | .accepting => texts.map fun accepting => { d with accepting := some accepting }

/-- A field behind its opening quotation mark. That it is there already shows before its value. -/
def member (d : Draft) : Reader Draft :=
  Reader.textBody.andThen fun key =>
    match Field.ofKey? key with
    | none => Reader.colon.andThen fun _ => Reader.skipped.map fun _ => d
    | some field =>
      if d.has field then Reader.fail (.fieldRepeated field.key)
      else Reader.colon.andThen fun _ => fieldReader d field

def inObject : Reader Spec := (Reader.members member Draft.empty).check Draft.toSpec

def inList : Reader Spec :=
  (Reader.element 0 texts).andThen fun states =>
  (Reader.element 1 symbols).andThen fun alphabet =>
  (Reader.element 2 deltaReader).andThen fun delta =>
  (Reader.element 3 Reader.text).andThen fun initial =>
  (Reader.element 4 texts).andThen fun accepting =>
  Reader.endOfList.map fun _ => ⟨states, alphabet, delta, initial, accepting⟩

def reader : Reader Spec :=
  Reader.scalar.andThen fun
    | .object => inObject
    | .list => inList
    | found => Reader.fail (.mismatch found .spec)

def ofJson (text : List Char) : Except Json.Fault Spec :=
  match reader.read text with
  | .error fault => .error fault
  | .ok (s, rest) => if (Json.skipBlank rest).isEmpty then .ok s else .error .trailingCharacters

end Spec
end EpsilonAutomata
