import EpsilonAutomata.Json.Layout
import EpsilonAutomata.Json.Value
import Mathlib.Data.List.Forall2

/-! Readers on what is written for them. A value is read off its written form whatever blanks stand before
it and whatever text behind it; texts, lists and objects pass this on from their parts. -/

namespace EpsilonAutomata.Json

theorem skipBlank_cons {c : Char} (h : isBlank c = false) (s : Text) : skipBlank (c :: s) = c :: s :=
  List.dropWhile_cons_of_neg (by simp [h])

theorem skipBlank_append {blank : Text} (h : ∀ c ∈ blank, isBlank c = true) (s : Text) :
    skipBlank (blank ++ s) = skipBlank s :=
  List.dropWhile_append_of_pos h

theorem isBlank_of_mem_newline {depth : Nat} {c : Char} (h : c ∈ newline depth) : isBlank c = true := by
  rw [newline, List.mem_cons, List.mem_replicate] at h
  rcases h with rfl | ⟨_, rfl⟩ <;> rfl

theorem skipBlank_newline (depth : Nat) (s : Text) : skipBlank (newline depth ++ s) = skipBlank s :=
  skipBlank_append (fun _ => isBlank_of_mem_newline) s

/-- The reader takes the written form off the front of any text, blanks before it included. -/
structure Reads {α : Type} (r : Reader α) (written : Text) (value : α) : Prop where
  starts : ∃ c rest, written = c :: rest ∧ isBlank c = false ∧ c ≠ ']'
  read : ∀ blank rest, (∀ c ∈ blank, isBlank c = true) →
    r.read (blank ++ (written ++ rest)) = .ok (value, rest)

namespace Reads
variable {α β : Type} {r : Reader α} {written : Text} {value : α}

theorem read_front (h : Reads r written value) (rest : Text) :
    r.read (written ++ rest) = .ok (value, rest) :=
  h.read [] rest (by simp)

theorem check {f : α → Except Fault β} {b : β} (h : Reads r written value) (hf : f value = .ok b) :
    Reads (r.check f) written b where
  starts := h.starts
  read blank rest hblank := by
    simp only [Reader.check, h.read blank rest hblank, hf]
    rfl

theorem map (f : α → β) (h : Reads r written value) : Reads (r.map f) written (f value) :=
  h.check rfl

end Reads

/-! Between quotation marks. -/

section Texts
variable {α : Type} (plain : Char → α) (escaped : Reader α) (done : List α)

open Reader

theorem moreText_quote (rest : Text) :
    moreText plain escaped done ('"' :: rest) = .ok (done.reverse, rest) := by
  rw [moreText, if_pos rfl]

theorem moreText_plain {c : Char} (hquote : c ≠ '"') (hbackslash : c ≠ '\\') (hcontrol : ¬ c.toNat < 0x20)
    (rest : Text) :
    moreText plain escaped done (c :: rest) = moreText plain escaped (plain c :: done) rest := by
  rw [moreText, if_neg hquote, if_neg hbackslash, if_neg hcontrol]

theorem moreText_backslash {s rest : Text} {a : α} (h : escaped.read s = .ok (a, rest)) :
    moreText plain escaped done ('\\' :: s) = moreText plain escaped (a :: done) rest := by
  rw [moreText, if_neg (by decide), if_pos rfl]
  split
  · next fault hr => rw [h] at hr; cases hr
  · next a' rest' hr => rw [h] at hr; cases hr; rfl

theorem escapeWith_simple {e d : Char} (hu : e ≠ 'u') (h : simpleEscape? e = some d) (rest : Text) :
    (escapeWith plain escaped).read (e :: rest) = .ok (plain d, rest) := by
  simp only [escapeWith, if_neg hu, h]

end Texts

theorem hexValue?_digitChar : ∀ n < 32,
    hexValue? '0' '0' (Nat.digitChar (n / 16)) (Nat.digitChar (n % 16)) = some n := by
  decide

theorem numericEscape_digitChar {c : Char} (h : c.toNat < 0x20) (rest : Text) :
    Reader.numericEscape.read
      ('0' :: '0' :: Nat.digitChar (c.toNat / 16) :: Nat.digitChar (c.toNat % 16) :: rest) =
      .ok (c, rest) := by
  -- no control is half of a surrogate pair
  have hsmall : c.toNat < 0xd800 ∨ 0xe000 ≤ c.toNat := .inl (Nat.lt_trans h (by decide))
  simp only [Reader.numericEscape, Reader.hex, hexValue?_digitChar c.toNat h, if_pos hsmall,
    Char.ofNat_toNat]

abbrev readText (done : List Char) (s : Text) : Except Fault (List Char × Text) :=
  Reader.moreText id (Reader.escapeWith id Reader.numericEscape) done s

theorem readText_escape (done : List Char) (c : Char) (rest : Text) :
    readText done (escape c ++ rest) = readText (c :: done) rest := by
  have simple (e d : Char) (hu : e ≠ 'u') (h : Reader.simpleEscape? e = some d) :
      readText done ('\\' :: e :: rest) = readText (d :: done) rest :=
    moreText_backslash id _ done (escapeWith_simple id _ hu h rest)
  unfold escape
  split_ifs with hquote hbackslash hb hf hn hr ht hcontrol
  · subst hquote; exact simple '"' '"' (by decide) rfl
  · subst hbackslash; exact simple '\\' '\\' (by decide) rfl
  · subst hb; exact simple 'b' '\x08' (by decide) rfl
  · subst hf; exact simple 'f' '\x0c' (by decide) rfl
  · subst hn; exact simple 'n' '\n' (by decide) rfl
  · subst hr; exact simple 'r' '\r' (by decide) rfl
  · subst ht; exact simple 't' '\t' (by decide) rfl
  · exact moreText_backslash id _ done (numericEscape_digitChar hcontrol rest)
  · exact moreText_plain id _ done hquote hbackslash hcontrol rest

theorem readText_flatMap_escape (done l : List Char) (rest : Text) :
    readText done (l.flatMap escape ++ '"' :: rest) = .ok (done.reverse ++ l, rest) := by
  induction l generalizing done with
  | nil => rw [List.append_nil]; exact moreText_quote id _ done rest
  | cons c l ih =>
    rw [List.flatMap_cons, List.append_assoc, readText_escape, ih]
    simp

def writtenTail (text : String) : Text := text.toList.flatMap escape ++ ['"']

theorem writeText_eq (text : String) : writeText text = '"' :: writtenTail text := by
  simp [writeText, writtenTail]

theorem textBody_writtenTail (text : String) (rest : Text) :
    Reader.textBody.read (writtenTail text ++ rest) = .ok (text, rest) := by
  have h := readText_flatMap_escape [] text.toList rest
  rw [List.reverse_nil, List.nil_append] at h
  simp only [Reader.textBody, writtenTail, List.append_assoc, List.singleton_append, h]
  simp [Except.map]

/-! What `scalar` makes of each value that is written. -/

section Scalars
variable (blank : Text) (hblank : ∀ c ∈ blank, isBlank c = true) (rest : Text)
include hblank

theorem scalar_bracket : Reader.scalar.read (blank ++ '[' :: rest) = .ok (.list, rest) := by
  simp only [Reader.scalar, skipBlank_append hblank, skipBlank_cons (show isBlank '[' = false from rfl)]
  rfl

theorem scalar_brace : Reader.scalar.read (blank ++ '\x7b' :: rest) = .ok (.object, rest) := by
  simp only [Reader.scalar, skipBlank_append hblank, skipBlank_cons (show isBlank '\x7b' = false from rfl)]
  rfl

theorem scalar_writeText (text : String) :
    Reader.scalar.read (blank ++ (writeText text ++ rest)) = .ok (.text text, rest) := by
  have hbody : (Reader.textBody.map Found.text).read (writtenTail text ++ rest) = .ok (.text text, rest) := by
    simp only [Reader.map, Reader.check, textBody_writtenTail]
    rfl
  simp only [Reader.scalar, skipBlank_append hblank, writeText_eq, List.cons_append,
    skipBlank_cons (show isBlank '"' = false from rfl)]
  exact hbody

end Scalars

theorem reads_text (text : String) : Reads Reader.text (writeText text) text where
  starts := ⟨'"', writtenTail text, writeText_eq text, rfl, by decide⟩
  read blank rest hblank := by
    simp only [Reader.text, Reader.check, scalar_writeText blank hblank]
    rfl

/-! Between brackets. -/

def following (last : Char) (depth : Nat) : List Text → Text
  | [] => newline depth ++ [last]
  | item :: items => ',' :: (newline (depth + 1) ++ (item ++ following last depth items))

def inside (last : Char) (depth : Nat) : List Text → Text
  | [] => [last]
  | item :: items => newline (depth + 1) ++ (item ++ following last depth items)

theorem intercalate_append_newline (last : Char) (depth : Nat) (item : Text) (items : List Text) :
    [','].intercalate ((item :: items).map fun item => newline (depth + 1) ++ item) ++
      (newline depth ++ [last]) = newline (depth + 1) ++ (item ++ following last depth items) := by
  induction items generalizing item with
  | nil => simp [following]
  | cons next items ih =>
    rw [List.map_cons, List.map_cons, List.intercalate_cons_cons, List.append_assoc, List.append_assoc,
      ← List.map_cons (f := fun item => newline (depth + 1) ++ item), ih, following, List.append_assoc]
    rfl

theorem block_eq (first last : Char) (depth : Nat) (items : List Text) :
    block first last depth items = first :: inside last depth items := by
  cases items with
  | nil => rfl
  | cons item items =>
    rw [block, List.append_assoc, List.append_assoc, intercalate_append_newline]
    · rfl
    · exact List.cons_ne_nil _ _

theorem skipBlank_following_nil {last : Char} (h : isBlank last = false) (depth : Nat) (rest : Text) :
    skipBlank (following last depth [] ++ rest) = last :: rest := by
  rw [following, List.append_assoc, skipBlank_newline]
  exact skipBlank_cons h rest

theorem skipBlank_following_cons (last : Char) (depth : Nat) (item : Text) (items : List Text) (rest : Text) :
    skipBlank (following last depth (item :: items) ++ rest) =
      ',' :: (newline (depth + 1) ++ (item ++ (following last depth items ++ rest))) := by
  simp only [following, List.cons_append, List.append_assoc]
  exact skipBlank_cons rfl _

section Elements
variable {α : Type} {item : Reader α} {depth : Nat} {items : List Text} {values : List α}

open Reader

theorem moreElements_end {s rest : Text} (hs : skipBlank s = ']' :: rest) (done : List α) :
    moreElements item done s = .ok (done.reverse, rest) := by
  rw [moreElements]
  split
  · next hs' => rw [hs] at hs'; cases hs'
  · next hs' =>
    rw [hs] at hs'
    cases hs'
    rw [if_pos rfl]

theorem moreElements_next {s t rest : Text} {a : α} (hs : skipBlank s = ',' :: t)
    (hstart : (skipBlank t).head? ≠ some ']') (hr : item.read t = .ok (a, rest)) (done : List α) :
    moreElements item done s = moreElements item (a :: done) rest := by
  rw [moreElements]
  split
  · next hs' => rw [hs] at hs'; cases hs'
  · next hs' =>
    rw [hs] at hs'
    cases hs'
    rw [if_neg (by decide), if_pos rfl, if_neg hstart]
    split
    · next hr' => rw [hr] at hr'; cases hr'
    · next hr' => rw [hr] at hr'; cases hr'; rfl

theorem moreElements_following (h : List.Forall₂ (Reads item) items values) (done : List α) (rest : Text) :
    moreElements item done (following ']' depth items ++ rest) = .ok (done.reverse ++ values, rest) := by
  induction h generalizing done with
  | nil =>
    rw [moreElements_end (skipBlank_following_nil rfl depth rest), List.append_nil]
  | @cons written value items values hitem _ ih =>
    have hcomma := skipBlank_following_cons ']' depth written items rest
    have hvalue : item.read (newline (depth + 1) ++ (written ++ (following ']' depth items ++ rest))) =
        .ok (value, following ']' depth items ++ rest) :=
      hitem.read _ _ fun _ => isBlank_of_mem_newline
    -- behind the comma no bracket may come next
    have hstart : (skipBlank (newline (depth + 1) ++ (written ++ (following ']' depth items ++ rest)))).head? ≠
        some ']' := by
      obtain ⟨c, tail, rfl, hc, hne⟩ := hitem.starts
      rw [skipBlank_newline, List.cons_append, skipBlank_cons hc]
      simpa using hne
    rw [moreElements_next hcomma hstart hvalue, ih]
    simp

theorem elements_inside (h : List.Forall₂ (Reads item) items values) (rest : Text) :
    (elements item).read (inside ']' depth items ++ rest) = .ok (values, rest) := by
  cases h with
  | nil => rfl
  | @cons written value items values hitem hitems =>
    obtain ⟨c, tail, rfl, hc, hne⟩ := hitem.starts
    have hvalue := hitem.read_front (following ']' depth items ++ rest)
    rw [List.cons_append] at hvalue
    simp only [elements, inside, List.append_assoc, List.cons_append, skipBlank_newline, skipBlank_cons hc,
      if_neg hne, hvalue]
    exact moreElements_following hitems [value] rest

theorem reads_list (h : List.Forall₂ (Reads item) items values) :
    Reads (Reader.list item) (writeList depth items) values where
  starts := ⟨'[', inside ']' depth items, block_eq '[' ']' depth items, rfl, by decide⟩
  read blank rest hblank := by
    rw [writeList, block_eq, List.cons_append]
    simp only [Reader.list, andThen, scalar_bracket blank hblank]
    exact elements_inside h rest

end Elements

/-- Written members that lead a reader of members from one state to another. -/
inductive Leads {α : Type} (member : α → Reader α) : α → List (String × Text) → α → Prop
  | nil (state : α) : Leads member state [] state
  | cons {state next last : α} {key : String} {value : Text} {fields : List (String × Text)}
      (read : ∀ rest, (member state).read (writtenTail key ++ (':' :: ' ' :: (value ++ rest))) =
        .ok (next, rest))
      (more : Leads member next fields last) : Leads member state ((key, value) :: fields) last

section Members
variable {α β : Type} {member : α → Reader α} (depth : Nat) {fields : List (String × Text)} {state last : α}

open Reader

theorem writeMember_eq (key : String) (value : Text) :
    writeMember key value = '"' :: (writtenTail key ++ (':' :: ' ' :: value)) := by
  simp [writeMember, writeText_eq]

theorem moreMembers_end {s rest : Text} (hs : skipBlank s = '\x7d' :: rest) :
    moreMembers member state s = .ok (state, rest) := by
  rw [moreMembers]
  split
  · next hs' => rw [hs] at hs'; cases hs'
  · next hs' =>
    rw [hs] at hs'
    cases hs'
    rw [if_pos rfl]

theorem moreMembers_next {s t key rest : Text} {next : α} (hs : skipBlank s = ',' :: t)
    (hk : skipBlank t = '"' :: key) (hr : (member state).read key = .ok (next, rest)) :
    moreMembers member state s = moreMembers member next rest := by
  rw [moreMembers]
  split
  · next hs' => rw [hs] at hs'; cases hs'
  · next hs' =>
    rw [hs] at hs'
    cases hs'
    rw [if_neg (by decide), if_pos rfl]
    split
    · next hk' => rw [hk] at hk'; cases hk'
    · next hk' =>
      rw [hk] at hk'
      cases hk'
      rw [if_pos rfl]
      split
      · next hr' => rw [hr] at hr'; cases hr'
      · next hr' => rw [hr] at hr'; cases hr'; rfl

theorem moreMembers_following (h : Leads member state fields last) (rest : Text) :
    moreMembers member state
      (following '\x7d' depth (fields.map fun (key, value) => writeMember key value) ++ rest) =
      .ok (last, rest) := by
  induction h with
  | nil state => exact moreMembers_end (skipBlank_following_nil rfl depth rest)
  | @cons state next last key value fields read _ ih =>
    rw [List.map_cons]
    generalize fields.map (fun (key, value) => writeMember key value) = others at ih ⊢
    have hcomma := skipBlank_following_cons '\x7d' depth (writeMember key value) others rest
    have hquote : skipBlank
        (newline (depth + 1) ++ (writeMember key value ++ (following '\x7d' depth others ++ rest))) =
        '"' :: (writtenTail key ++ (':' :: ' ' :: (value ++ (following '\x7d' depth others ++ rest)))) := by
      rw [skipBlank_newline, writeMember_eq]
      simp only [List.cons_append, List.append_assoc]
      exact skipBlank_cons rfl _
    rw [moreMembers_next hcomma hquote (read _)]
    exact ih

theorem members_inside (h : Leads member state fields last) (rest : Text) :
    (members member state).read
      (inside '\x7d' depth (fields.map fun (key, value) => writeMember key value) ++ rest) =
      .ok (last, rest) := by
  cases h with
  | nil => rfl
  | @cons state next last key value fields read more =>
    have hfirst := writeMember_eq key value
    rw [members]
    simp only [List.map_cons, inside, hfirst, List.append_assoc, List.cons_append, skipBlank_newline,
      skipBlank_cons (show isBlank '"' = false from rfl)]
    rw [if_neg (by decide), if_pos trivial, read]
    exact moreMembers_following depth more rest

theorem read_keyed {step : Reader α} {value : Text} {next : α} (h : Reads step value next) (rest : Text) :
    (colon.andThen fun _ => step).read (':' :: ' ' :: (value ++ rest)) = .ok (next, rest) := by
  have hcolon : colon.read (':' :: ' ' :: (value ++ rest)) = .ok ((), ' ' :: (value ++ rest)) := rfl
  simp only [andThen, hcolon]
  exact h.read [' '] rest (by simp [isBlank])

theorem leads_map {step : α → String → Reader α} {key : β → String} {write : β → Text} {next : α → β → α}
    {l : List β} (h : ∀ e ∈ l, ∀ state, Reads (step state (key e)) (write e) (next state e)) (start : α) :
    Leads (fun state => textBody.andThen fun key => colon.andThen fun _ => step state key)
      start (l.map fun e => (key e, write e)) (l.foldl next start) := by
  induction l generalizing start with
  | nil => exact .nil start
  | cons e l ih =>
    refine .cons ?_ (ih (fun e he => h e (List.mem_cons_of_mem _ he)) (next start e))
    intro rest
    rw [andThen]
    simp only [textBody_writtenTail]
    exact read_keyed (h e List.mem_cons_self start) rest

/-- An object whose members each turn the state into the next one. -/
theorem reads_object (step : α → String → Reader α) (key : β → String) (write : β → Text) (next : α → β → α)
    (l : List β) (h : ∀ e ∈ l, ∀ state, Reads (step state (key e)) (write e) (next state e)) (start : α) :
    Reads (Reader.object step start) (writeObject depth (l.map fun e => (key e, write e)))
      (l.foldl next start) where
  starts := ⟨'\x7b', _, block_eq '\x7b' '\x7d' depth _, rfl, by decide⟩
  read blank rest hblank := by
    rw [writeObject, block_eq, List.cons_append]
    simp only [Reader.object, andThen, scalar_brace blank hblank]
    exact members_inside depth (leads_map h start) rest

end Members

/-! Values whose form shows only when they are met. -/

theorem ofElements_text (l : List String) : Shape.ofElements (l.map Shape.text) = .texts l := by
  have hall : (l.map Shape.text).mapM Shape.text? = some l := by
    induction l with
    | nil => rfl
    | cons text l ih => simp [Shape.text?, ih]
  rw [Shape.ofElements, hall]

theorem reads_shape_text (depth : Nat) (text : String) :
    Reads (Reader.shape depth) (writeText text) (.text text) where
  starts := (reads_text text).starts
  read blank rest hblank := by
    cases depth <;>
      simp only [Reader.shape, Reader.shapeWith, Reader.branch, scalar_writeText blank hblank]

theorem reads_shape_texts (depth level : Nat) (l : List String) :
    Reads (Reader.shape (depth + 1)) (writeList level (l.map writeText)) (.texts l) where
  starts := ⟨'[', inside ']' level (l.map writeText), block_eq '[' ']' level _, rfl, by decide⟩
  read blank rest hblank := by
    have hitems : List.Forall₂ (Reads (Reader.shape depth)) (l.map writeText) (l.map Shape.text) := by
      rw [List.forall₂_map_left_iff, List.forall₂_map_right_iff, List.forall₂_same]
      exact fun text _ => reads_shape_text depth text
    rw [writeList, block_eq, List.cons_append]
    simp only [Reader.shape, Reader.shapeWith, Reader.branch, scalar_bracket blank hblank, Reader.map,
      Reader.check, elements_inside hitems, ofElements_text]
    rfl

end EpsilonAutomata.Json
