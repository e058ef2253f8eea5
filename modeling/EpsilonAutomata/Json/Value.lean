import EpsilonAutomata.Json.Number
import EpsilonAutomata.Json.Text

/-!
Values whose form is not known before they are met: `scalar` reads a value as far as one has to in order
to tell its form, `shape` reads all of it, `skipped` passes over it.
-/
namespace EpsilonAutomata.Json

def literal (word : List Char) (s : Text) : Except Fault Text :=
  match word, s with
  | [], s => .ok s
  | _ :: _, [] => .error .endInValue
  | w :: word, c :: rest => if w = c then literal word rest else .error .literalNeeded

theorem length_literal_le {word : List Char} {s rest : Text} (h : literal word s = .ok rest) :
    rest.length ≤ s.length := by
  induction word generalizing s with
  | nil => cases h; exact Nat.le_refl _
  | cons w word ih =>
    cases s with
    | nil => cases h
    | cons c s =>
      unfold literal at h
      split at h
      · have := ih h
        rw [List.length_cons]
        omega
      · cases h

def constant? (c : Char) : Option (Found × List Char) :=
  match c with
  | 'n' => some (.null, ['u', 'l', 'l'])
  | 't' => some (.bool true, ['r', 'u', 'e'])
  | 'f' => some (.bool false, ['a', 'l', 's', 'e'])
  | _ => none

def valued (scanned : Except Fault (Numeral × Text)) : Except Fault (Found × Text) :=
  match scanned with
  | .error fault => .error fault
  | .ok (numeral, rest) => numeral.value.map fun n => (.number n, rest)

theorem valued_eq_ok {scanned : Except Fault (Numeral × Text)} {found : Found} {rest : Text}
    (h : valued scanned = .ok (found, rest)) : ∃ n, scanned = .ok (n, rest) := by
  unfold valued at h
  split at h
  · cases h
  · next n rest' =>
    cases hv : n.value with
    | error fault => rw [hv] at h; cases h
    | ok v => rw [hv] at h; cases h; exact ⟨n, rfl⟩

namespace Reader

/-- Constants, numbers and texts are read to their end; of a list or an object only the bracket is. -/
def scalar : Reader Found where
  read s :=
    match skipBlank s with
    | [] => .error .endInValue
    | c :: rest =>
      if c = '[' then .ok (.list, rest)
      else if c = '\x7b' then .ok (.object, rest)
      else if c = '"' then (textBody.map Found.text).read rest
      else if c = '-' then valued (Numeral.scan .endInValue true rest)
      else if Numeral.isDigit c then valued (Numeral.scan .endInValue false (c :: rest))
      else match constant? c with
        | some (found, word) => (literal word rest).map fun rest => (found, rest)
        | none => .error .valueNeeded
  shrinks := by
    intro s found after h
    split at h
    · cases h
    · next c rest hs =>
      have shorter := length_lt_of_skipBlank hs
      split at h
      · cases h; exact shorter
      split at h
      · cases h; exact shorter
      split at h
      · exact Nat.lt_trans (Reader.shrinks _ h) shorter
      split at h
      · obtain ⟨n, hn⟩ := valued_eq_ok h
        exact Nat.lt_trans (Numeral.scan_shrinks hn) shorter
      split at h
      · obtain ⟨n, hn⟩ := valued_eq_ok h
        have := Numeral.scan_shrinks hn
        rw [List.length_cons] at this
        omega
      split at h
      · next found' word _ =>
        cases hl : literal word rest with
        | error fault => rw [hl] at h; cases h
        | ok r =>
          rw [hl] at h
          cases h
          exact Nat.lt_of_le_of_lt (length_literal_le hl) shorter
      · cases h

def text : Reader String :=
  scalar.check fun
    | .text t => .ok t
    | found => .error (.mismatch found .text)

def list {α : Type} (item : Reader α) : Reader (List α) :=
  scalar.andThen fun
    | .list => elements item
    | found => fail (.mismatch found .list)

/-- An object that is built member by member; `member` gets the key and reads the value. -/
def object {α : Type} (member : α → String → Reader α) (start : α) : Reader α :=
  scalar.andThen fun
    | .object => members (fun state => textBody.andThen fun key => colon.andThen fun _ => member state key) start
    | found => fail (.mismatch found .map)

end Reader

/-- What a value is worth as a set of destinations. -/
inductive Shape where
  | text (value : String)
  | texts (values : List String)
  | other

def Shape.text? : Shape → Option String
  | text value => some value
  | _ => none

def Shape.ofElements (items : List Shape) : Shape :=
  match items.mapM Shape.text? with
  | some values => texts values
  | none => other

namespace Reader

def shapeWith (inList inObject : Reader Shape) : Reader Shape :=
  scalar.branch fun
    | .list => .inr inList
    | .object => .inr inObject
    | .text value => .inl (.text value)
    | _ => .inl .other

/-- Reads any value in which at most `depth` brackets are open at a time. -/
def shape : (depth : Nat) → Reader Shape
  | 0 => shapeWith (fail .tooDeep) (fail .tooDeep)
  | depth + 1 =>
    let value := textBody.andThen fun _ => colon.andThen fun _ => (shape depth).map fun _ => Shape.other
    shapeWith ((elements (shape depth)).map Shape.ofElements) (members (fun _ => value) Shape.other)

end Reader

def Bracket.closing : Bracket → Char
  | list => ']'
  | object => '\x7d'

def skipKey (bracket : Bracket) (s : Text) : Except Fault Text :=
  match bracket with
  | .list => .ok s
  | .object =>
    match skipBlank s with
    | [] => .error (.endInside .object)
    | c :: rest =>
      if c = '"' then
        ((Reader.skippedText.andThen fun _ => Reader.colon).read rest).map fun (_, rest) => rest
      else .error .keyNotText

/-- After a value: closes brackets up to a comma. The brackets that stay open are those around the next
value; when none is open, there is no next value. -/
def closeBrackets : List Bracket → Text → Except Fault (List Bracket × Text)
  | [], s => .ok ([], s)
  | bracket :: outer, s =>
    match skipBlank s with
    | [] => .error (.endInside bracket)
    | c :: rest =>
      if c = bracket.closing then closeBrackets outer rest
      else if c = ',' then (skipKey bracket rest).map fun rest => (bracket :: outer, rest)
      else .error (.commaOrEndNeeded bracket)

def openBracket (bracket : Bracket) (outer : List Bracket) (s : Text) :
    Except Fault (List Bracket × Text) :=
  match skipBlank s with
  | [] => .error (.endInside bracket)
  | c :: rest =>
    if c = bracket.closing then closeBrackets outer rest
    else (skipKey bracket (c :: rest)).map fun rest => (bracket :: outer, rest)

theorem length_skipKey_le {bracket : Bracket} {s rest : Text} (h : skipKey bracket s = .ok rest) :
    rest.length ≤ s.length := by
  unfold skipKey at h
  split at h
  · cases h; exact Nat.le_refl _
  · split at h
    · cases h
    · next c t hs =>
      have shorter := length_lt_of_skipBlank hs
      split at h
      · cases hr : (Reader.skippedText.andThen fun _ => Reader.colon).read t with
        | error fault => rw [hr] at h; cases h
        | ok p =>
          obtain ⟨_, r⟩ := p
          rw [hr] at h
          cases h
          exact Nat.le_of_lt (Nat.lt_trans (Reader.shrinks _ hr) shorter)
      · cases h

theorem length_closeBrackets_le {stack inner : List Bracket} {s rest : Text}
    (h : closeBrackets stack s = .ok (inner, rest)) : rest.length ≤ s.length := by
  induction stack generalizing s with
  | nil => cases h; exact Nat.le_refl _
  | cons bracket outer ih =>
    unfold closeBrackets at h
    split at h
    · cases h
    · next c t hs =>
      have shorter := length_lt_of_skipBlank hs
      split at h
      · have := ih h
        omega
      split at h
      · cases hr : skipKey bracket t with
        | error fault => rw [hr] at h; cases h
        | ok p =>
          rw [hr] at h
          cases h
          have := length_skipKey_le hr
          omega
      · cases h

theorem length_openBracket_le {bracket : Bracket} {outer inner : List Bracket} {s rest : Text}
    (h : openBracket bracket outer s = .ok (inner, rest)) : rest.length ≤ s.length := by
  unfold openBracket at h
  split at h
  · cases h
  · next c t hs =>
    have shorter := length_lt_of_skipBlank hs
    split at h
    · have := length_closeBrackets_le h
      omega
    · cases hr : skipKey bracket (c :: t) with
      | error fault => rw [hr] at h; cases h
      | ok p =>
        rw [hr] at h
        cases h
        have := length_skipKey_le hr
        rw [List.length_cons] at this
        omega

namespace Reader

/-- A value that is passed over, or the bracket that opens it. Numbers may be of any size here. -/
def skippedScalar : Reader (Option Bracket) where
  read s :=
    match skipBlank s with
    | [] => .error .endInValue
    | c :: rest =>
      if c = '[' then .ok (some .list, rest)
      else if c = '\x7b' then .ok (some .object, rest)
      else if c = '"' then (skippedText.map fun _ => none).read rest
      else if c = '-' then (Numeral.scan .invalidNumber true rest).map fun (_, rest) => (none, rest)
      else if Numeral.isDigit c then
        (Numeral.scan .invalidNumber false (c :: rest)).map fun (_, rest) => (none, rest)
      else match constant? c with
        | some (_, word) => (literal word rest).map fun rest => (none, rest)
        | none => .error .valueNeeded
  shrinks := by
    intro s found after h
    split at h
    · cases h
    · next c rest hs =>
      have shorter := length_lt_of_skipBlank hs
      split at h
      · cases h; exact shorter
      split at h
      · cases h; exact shorter
      split at h
      · exact Nat.lt_trans (Reader.shrinks _ h) shorter
      split at h
      · cases hn : Numeral.scan .invalidNumber true rest with
        | error fault => rw [hn] at h; cases h
        | ok p => rw [hn] at h; cases h; exact Nat.lt_trans (Numeral.scan_shrinks hn) shorter
      split at h
      · cases hn : Numeral.scan .invalidNumber false (c :: rest) with
        | error fault => rw [hn] at h; cases h
        | ok p =>
          rw [hn] at h
          cases h
          have := Numeral.scan_shrinks hn
          rw [List.length_cons] at this
          omega
      split at h
      · next word _ =>
        cases hl : literal word rest with
        | error fault => rw [hl] at h; cases h
        | ok r =>
          rw [hl] at h
          cases h
          exact Nat.lt_of_le_of_lt (length_literal_le hl) shorter
      · cases h

end Reader

def nextValue (opened : Option Bracket) (stack : List Bracket) (s : Text) :
    Except Fault (List Bracket × Text) :=
  match opened with
  | none => closeBrackets stack s
  | some bracket => openBracket bracket stack s

theorem length_nextValue_le {opened : Option Bracket} {stack inner : List Bracket} {s rest : Text}
    (h : nextValue opened stack s = .ok (inner, rest)) : rest.length ≤ s.length := by
  unfold nextValue at h
  split at h
  · exact length_closeBrackets_le h
  · exact length_openBracket_le h

/-- Passes over a value inside the brackets of `stack`, and on until all of these are closed. Brackets
may be nested to any depth. -/
def skipInside (stack : List Bracket) (s : Text) : Except Fault Text :=
  match _hs : Reader.skippedScalar.read s with
  | .error fault => .error fault
  | .ok (opened, rest) =>
    match _hn : nextValue opened stack rest with
    | .error fault => .error fault
    | .ok ([], rest') => .ok rest'
    | .ok (bracket :: outer, rest') => skipInside (bracket :: outer) rest'
termination_by s.length
decreasing_by exact Nat.lt_of_le_of_lt (length_nextValue_le _hn) (Reader.skippedScalar.shrinks _hs)

theorem skipInside_shrinks {stack : List Bracket} {s rest : Text} (h : skipInside stack s = .ok rest) :
    rest.length < s.length := by
  fun_induction skipInside stack s with
  | case1 => cases h
  | case2 => cases h
  | case3 =>
    cases h
    exact Nat.lt_of_le_of_lt (length_nextValue_le ‹_›) (Reader.skippedScalar.shrinks ‹_›)
  | case4 =>
    rename_i ih
    exact Nat.lt_trans (ih h)
      (Nat.lt_of_le_of_lt (length_nextValue_le ‹_›) (Reader.skippedScalar.shrinks ‹_›))

namespace Reader

def skipped : Reader Unit where
  read s := (skipInside [] s).map fun rest => ((), rest)
  shrinks := by
    intro s a rest h
    cases hr : skipInside [] s with
    | error fault => rw [hr] at h; cases h
    | ok r => rw [hr] at h; cases h; exact skipInside_shrinks hr

end Reader
end EpsilonAutomata.Json
