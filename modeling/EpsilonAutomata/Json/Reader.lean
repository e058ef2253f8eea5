import EpsilonAutomata.Json.Fault

/-!
Readers of JSON texts. A reader takes a value off the front of a text, or reports the first fault met
from left to right. Whatever it reads is not empty, so readers can be repeated until a list or an object
ends.
-/
namespace EpsilonAutomata.Json

abbrev Text := List Char

structure Reader (α : Type) where
  read : Text → Except Fault (α × Text)
  shrinks : ∀ {s a rest}, read s = .ok (a, rest) → rest.length < s.length

def isBlank (c : Char) : Bool := c = ' ' || c = '\n' || c = '\t' || c = '\r'

def skipBlank (s : Text) : Text := s.dropWhile isBlank

theorem length_skipBlank_le (s : Text) : (skipBlank s).length ≤ s.length :=
  (List.dropWhile_suffix isBlank).length_le

theorem length_lt_of_skipBlank {s rest : Text} {c : Char} (h : skipBlank s = c :: rest) :
    rest.length < s.length := by
  have := length_skipBlank_le s
  rw [h, List.length_cons] at this
  omega

namespace Reader
variable {α β : Type}

def fail (fault : Fault) : Reader α := ⟨fun _ => .error fault, by simp⟩

def check (r : Reader α) (f : α → Except Fault β) : Reader β where
  read s :=
    match r.read s with
    | .error fault => .error fault
    | .ok (a, rest) => (f a).map fun b => (b, rest)
  shrinks := by
    intro s b rest h
    split at h
    · cases h
    · next a rest' hr =>
      cases hf : f a with
      | error fault => rw [hf] at h; cases h
      | ok b' =>
        rw [hf] at h
        cases h
        exact r.shrinks hr

def map (f : α → β) (r : Reader α) : Reader β := r.check fun a => .ok (f a)

def andThen (r : Reader α) (f : α → Reader β) : Reader β where
  read s :=
    match r.read s with
    | .error fault => .error fault
    | .ok (a, rest) => (f a).read rest
  shrinks := by
    intro s b rest h
    split at h
    · cases h
    · next a rest' hr => exact Nat.lt_trans ((f a).shrinks h) (r.shrinks hr)

/-- Ends with a result or reads on, as the first value calls for. -/
def branch (r : Reader α) (f : α → β ⊕ Reader β) : Reader β where
  read s :=
    match r.read s with
    | .error fault => .error fault
    | .ok (a, rest) =>
      match f a with
      | .inl b => .ok (b, rest)
      | .inr more => more.read rest
  shrinks := by
    intro s b rest h
    split at h
    · cases h
    · next a rest' hr =>
      have shorter := r.shrinks hr
      split at h
      · cases h; exact shorter
      · next more _ => exact Nat.lt_trans (more.shrinks h) shorter

def colon : Reader Unit where
  read s :=
    match skipBlank s with
    | [] => .error (.endInside .object)
    | c :: rest => if c = ':' then .ok ((), rest) else .error .colonNeeded
  shrinks := by
    intro s a rest h
    split at h
    · cases h
    · next c rest' hs =>
      split at h
      · cases h; exact length_lt_of_skipBlank hs
      · cases h

/-- What follows the elements in `done`, last one first. -/
def moreElements (item : Reader α) (done : List α) (s : Text) : Except Fault (List α × Text) :=
  match _hs : skipBlank s with
  | [] => .error (.endInside .list)
  | c :: rest =>
    if c = ']' then .ok (done.reverse, rest)
    else if c = ',' then
      if (skipBlank rest).head? = some ']' then .error .trailingComma
      else match _hr : item.read rest with
        | .error fault => .error fault
        | .ok (a, rest') => moreElements item (a :: done) rest'
    else .error (.commaOrEndNeeded .list)
termination_by s.length
decreasing_by exact Nat.lt_trans (item.shrinks _hr) (length_lt_of_skipBlank _hs)

theorem moreElements_shrinks (item : Reader α) (done : List α) (s : Text) (l : List α) (rest : Text)
    (h : moreElements item done s = .ok (l, rest)) : rest.length < s.length := by
  fun_induction moreElements item done s with
  | case1 => cases h
  | case2 => cases h; exact length_lt_of_skipBlank ‹_›
  | case3 => cases h
  | case4 => cases h
  | case5 =>
    rename_i ih
    exact Nat.lt_trans (ih h) (Nat.lt_trans (item.shrinks ‹_›) (length_lt_of_skipBlank ‹_›))
  | case6 => cases h

def elements (item : Reader α) : Reader (List α) where
  read s :=
    match skipBlank s with
    | [] => .error (.endInside .list)
    | c :: rest =>
      if c = ']' then .ok ([], rest)
      else match item.read (c :: rest) with
        | .error fault => .error fault
        | .ok (a, rest') => moreElements item [a] rest'
  shrinks := by
    intro s l rest h
    split at h
    · cases h
    · next c rest' hs =>
      split at h
      · cases h; exact length_lt_of_skipBlank hs
      · split at h
        · cases h
        · next a rest'' hr =>
          have h1 := moreElements_shrinks item [a] rest'' l rest h
          have h2 := item.shrinks hr
          have h3 := length_lt_of_skipBlank hs
          rw [List.length_cons] at h2
          omega

/-- The element at `index` of a list of fixed length, with the comma in front of it. -/
def element (index : Nat) (item : Reader α) : Reader α where
  read s :=
    match skipBlank s with
    | [] => .error (.endInside .list)
    | c :: rest =>
      if c = ']' then .error (.tooShort index)
      else if index = 0 then item.read (c :: rest)
      else if c = ',' then
        if (skipBlank rest).head? = some ']' then .error .trailingComma else item.read rest
      else .error (.commaOrEndNeeded .list)
  shrinks := by
    intro s a rest h
    split at h
    · cases h
    · next c t hs =>
      have shorter := length_lt_of_skipBlank hs
      split at h
      · cases h
      split at h
      · have := item.shrinks h
        rw [List.length_cons] at this
        omega
      split at h
      · split at h
        · cases h
        · exact Nat.lt_trans (item.shrinks h) shorter
      · cases h

def endOfList : Reader Unit where
  read s :=
    match skipBlank s with
    | [] => .error (.endInside .list)
    | c :: rest =>
      if c = ']' then .ok ((), rest)
      else if c = ',' ∧ (skipBlank rest).head? = some ']' then .error .trailingComma
      else .error .trailingCharacters
  shrinks := by
    intro s a rest h
    split at h
    · cases h
    · next c t hs =>
      split at h
      · cases h; exact length_lt_of_skipBlank hs
      split at h <;> cases h

/-- What follows the members that led to `state`. The reader `member state` starts behind the quotation
mark of a key. -/
def moreMembers (member : α → Reader α) (state : α) (s : Text) : Except Fault (α × Text) :=
  match _hs : skipBlank s with
  | [] => .error (.endInside .object)
  | c :: rest =>
    if c = '\x7d' then .ok (state, rest)
    else if c = ',' then
      match _hk : skipBlank rest with
      | [] => .error .endInValue
      | d :: key =>
        if d = '"' then
          match _hr : (member state).read key with
          | .error fault => .error fault
          | .ok (next, rest') => moreMembers member next rest'
        else if d = '\x7d' then .error .trailingComma
        else .error .keyNotText
    else .error (.commaOrEndNeeded .object)
termination_by s.length
decreasing_by
  exact Nat.lt_trans ((member state).shrinks _hr)
    (Nat.lt_trans (length_lt_of_skipBlank _hk) (length_lt_of_skipBlank _hs))

theorem moreMembers_shrinks (member : α → Reader α) (state : α) (s : Text) (a : α) (rest : Text)
    (h : moreMembers member state s = .ok (a, rest)) : rest.length < s.length := by
  fun_induction moreMembers member state s with
  | case1 => cases h
  | case2 => cases h; exact length_lt_of_skipBlank ‹_›
  | case3 => cases h
  | case4 => cases h
  | case5 =>
    rename_i ih
    exact Nat.lt_trans (ih h) (Nat.lt_trans ((member _).shrinks ‹_›)
      (Nat.lt_trans (length_lt_of_skipBlank ‹_›) (length_lt_of_skipBlank ‹_›)))
  | case6 => cases h
  | case7 => cases h
  | case8 => cases h

def members (member : α → Reader α) (state : α) : Reader α where
  read s :=
    match skipBlank s with
    | [] => .error (.endInside .object)
    | c :: rest =>
      if c = '\x7d' then .ok (state, rest)
      else if c = '"' then
        match (member state).read rest with
        | .error fault => .error fault
        | .ok (next, rest') => moreMembers member next rest'
      else .error .keyNotText
  shrinks := by
    intro s a rest h
    split at h
    · cases h
    · next c rest' hs =>
      have h3 := length_lt_of_skipBlank hs
      split at h
      · cases h; exact h3
      · split at h
        · split at h
          · cases h
          · next b rest'' hr =>
            have h1 := moreMembers_shrinks member b rest'' a rest h
            have h2 := (member state).shrinks hr
            omega
        · cases h

end Reader
end EpsilonAutomata.Json
