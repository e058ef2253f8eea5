import EpsilonAutomata.Json.Reader

/-!
Texts between quotation marks: the escapes that are written, and those that are read. Beyond the
characters of 16 bits an escape is a pair of surrogates; half a pair stands for nothing.
-/
namespace EpsilonAutomata.Json

def hexDigit? (c : Char) : Option Nat :=
  if '0' ≤ c ∧ c ≤ '9' then some (c.toNat - '0'.toNat)
  else if 'a' ≤ c ∧ c ≤ 'f' then some (c.toNat - 'a'.toNat + 10)
  else if 'A' ≤ c ∧ c ≤ 'F' then some (c.toNat - 'A'.toNat + 10)
  else none

def hexValue? (a b c d : Char) : Option Nat := do
  let a ← hexDigit? a
  let b ← hexDigit? b
  let c ← hexDigit? c
  let d ← hexDigit? d
  return ((a * 16 + b) * 16 + c) * 16 + d

def byteLength (s : Text) : Nat := (String.ofList s).utf8ByteSize

namespace Reader

/-- Four hexadecimal digits. Fewer than four bytes are a text cut short, other bytes a bad escape. -/
def hex : Reader Nat where
  read s :=
    match s with
    | a :: b :: c :: d :: rest =>
      match hexValue? a b c d with
      | some n => .ok (n, rest)
      | none => .error .invalidEscape
    | short => .error (if byteLength short < 4 then .endInText else .invalidEscape)
  shrinks := by
    intro s n rest h
    split at h
    · split at h
      · cases h; simp only [List.length_cons]; omega
      · cases h
    · cases h

def expect (c : Char) (fault : Fault) : Reader Unit where
  read s :=
    match s with
    | [] => .error .endInText
    | d :: rest => if d = c then .ok ((), rest) else .error fault
  shrinks := by
    intro s a rest h
    split at h
    · cases h
    · split at h
      · cases h; simp
      · cases h

def lowSurrogate (high : Nat) : Reader Char :=
  hex.check fun low =>
    if 0xdc00 ≤ low ∧ low < 0xe000 then
      .ok (Char.ofNat (0x10000 + (high - 0xd800) * 0x400 + (low - 0xdc00)))
    else .error .loneSurrogate

/-- The digits of a numeric escape, and those of the second one where the first is a high surrogate. -/
def numericEscape : Reader Char where
  read s :=
    match hex.read s with
    | .error fault => .error fault
    | .ok (n, rest) =>
      if n < 0xd800 ∨ 0xe000 ≤ n then .ok (Char.ofNat n, rest)
      else if 0xdc00 ≤ n then .error .loneSurrogate
      else ((expect '\\' .halfSurrogatePair).andThen fun _ =>
        (expect 'u' .halfSurrogatePair).andThen fun _ => lowSurrogate n).read rest
  shrinks := by
    intro s c rest h
    split at h
    · cases h
    · next n rest' hr =>
      have h1 := hex.shrinks hr
      split at h
      · cases h; exact h1
      · split at h
        · cases h
        · exact Nat.lt_trans (Reader.shrinks _ h) h1

def simpleEscape? (c : Char) : Option Char :=
  match c with
  | '"' => some '"'
  | '\\' => some '\\'
  | '/' => some '/'
  | 'b' => some '\x08'
  | 'f' => some '\x0c'
  | 'n' => some '\n'
  | 'r' => some '\r'
  | 't' => some '\t'
  | _ => none

def escapeWith {α : Type} (simple : Char → α) (numeric : Reader α) : Reader α where
  read s :=
    match s with
    | [] => .error .endInText
    | c :: rest =>
      if c = 'u' then numeric.read rest
      else match simpleEscape? c with
        | some d => .ok (simple d, rest)
        | none => .error .invalidEscape
  shrinks := by
    intro s a rest h
    split at h
    · cases h
    · split at h
      · exact Nat.lt_trans (numeric.shrinks h) (by simp)
      · split at h
        · cases h; simp
        · cases h

/-- The characters of a text up to its closing quotation mark; `done` holds those before, last first. -/
def moreText {α : Type} (plain : Char → α) (escape : Reader α) (done : List α) (s : Text) :
    Except Fault (List α × Text) :=
  match s with
  | [] => .error .endInText
  | c :: rest =>
    if c = '"' then .ok (done.reverse, rest)
    else if c = '\\' then
      match _hr : escape.read rest with
      | .error fault => .error fault
      | .ok (a, rest') => moreText plain escape (a :: done) rest'
    else if c.toNat < 0x20 then .error .controlCharacter
    else moreText plain escape (plain c :: done) rest
termination_by s.length
decreasing_by
  · exact Nat.lt_trans (escape.shrinks _hr) (by simp)
  · simp

theorem moreText_shrinks {α : Type} (plain : Char → α) (escape : Reader α) (done : List α) (s : Text)
    (l : List α) (rest : Text) (h : moreText plain escape done s = .ok (l, rest)) :
    rest.length < s.length := by
  fun_induction moreText plain escape done s with
  | case1 => cases h
  | case2 => cases h; simp
  | case3 => cases h
  | case4 =>
    rename_i ih
    exact Nat.lt_trans (ih h) (Nat.lt_trans (escape.shrinks ‹_›) (by simp))
  | case5 => cases h
  | case6 =>
    rename_i ih
    exact Nat.lt_trans (ih h) (by simp)

def textBody : Reader String where
  read s := (moreText id (escapeWith id numericEscape) [] s).map fun (l, rest) => (String.ofList l, rest)
  shrinks := by
    intro s a rest h
    cases hr : moreText id (escapeWith id numericEscape) [] s with
    | error fault => rw [hr] at h; cases h
    | ok p => rw [hr] at h; cases h; exact moreText_shrinks _ _ _ _ _ _ hr

/-- A text that is passed over: its escapes need not stand for characters. -/
def skippedText : Reader Unit where
  read s :=
    (moreText (fun _ => ()) (escapeWith (fun _ => ()) (hex.map fun _ => ())) [] s).map fun (_, rest) => ((), rest)
  shrinks := by
    intro s a rest h
    cases hr : moreText (fun _ => ()) (escapeWith (fun _ => ()) (hex.map fun _ => ())) [] s with
    | error fault => rw [hr] at h; cases h
    | ok p => rw [hr] at h; cases h; exact moreText_shrinks _ _ _ _ _ _ hr

end Reader

def escape (c : Char) : Text :=
  if c = '"' then ['\\', '"']
  else if c = '\\' then ['\\', '\\']
  else if c = '\x08' then ['\\', 'b']
  else if c = '\x0c' then ['\\', 'f']
  else if c = '\n' then ['\\', 'n']
  else if c = '\r' then ['\\', 'r']
  else if c = '\t' then ['\\', 't']
  else if c.toNat < 0x20 then
    ['\\', 'u', '0', '0', Nat.digitChar (c.toNat / 16), Nat.digitChar (c.toNat % 16)]
  else [c]

def writeText (text : String) : Text := ['"'] ++ text.toList.flatMap escape ++ ['"']

end EpsilonAutomata.Json
