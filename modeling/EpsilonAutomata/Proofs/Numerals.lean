import EpsilonAutomata.Text.Numeral
import Mathlib.Data.List.Basic
import Mathlib.Data.List.Induction

/-! Decimal numerals. A text is read as a number exactly when it is the decimal form of this number behind
any zeros, with a plus sign in front or without, and the number is within the limit. -/

namespace EpsilonAutomata.Numeral

/-- The decimal form of the number, with zeros and then a plus sign put in front or not. -/
def Writes (text : List Char) (n : Nat) : Prop :=
  ∃ zeros, text = List.replicate zeros '0' ++ (toString n).toList ∨
    text = '+' :: (List.replicate zeros '0' ++ (toString n).toList)

theorem writes_toString (n : Nat) : Writes (toString n).toList n := ⟨0, .inl rfl⟩

theorem toList_toString (n : Nat) : (toString n).toList = Nat.toDigits 10 n := by
  rw [Nat.toString_eq_repr, Nat.toList_repr]

theorem isDigit_of_mem_toString {n : Nat} {c : Char} (h : c ∈ (toString n).toList) : c.isDigit = true := by
  rw [toList_toString] at h
  exact Nat.isDigit_of_mem_toDigits (by decide) (by decide) h

theorem exists_digitChar {c : Char} (h : c.isDigit = true) : ∃ d < 10, c = Nat.digitChar d := by
  obtain ⟨hlow, hhigh⟩ := Char.isDigit_iff_toNat.1 h
  have hd : c.toNat - 48 < 10 := Nat.sub_lt_left_of_lt_add hlow (Nat.lt_succ_of_le hhigh)
  refine ⟨c.toNat - 48, hd, Char.toNat_inj.1 ?_⟩
  rw [Nat.toNat_digitChar_of_lt_ten hd]
  exact (Nat.add_sub_of_le hlow).symm

theorem eq_unsigned_or (text : List Char) : text = unsigned text ∨ text = '+' :: unsigned text := by
  unfold unsigned
  split
  · exact .inr rfl
  · exact .inl rfl

theorem unsigned_of_isDigit {text : List Char} (h : ∀ c ∈ text, c.isDigit = true) : unsigned text = text := by
  unfold unsigned
  split
  · next rest =>
    have hplus := h '+' List.mem_cons_self
    exact absurd hplus (by decide)
  · rfl

theorem read?_eq_some_iff_unsigned (limit : Nat) (text : List Char) (n : Nat) :
    read? limit text = some n ↔ unsigned text ≠ [] ∧ (∀ c ∈ unsigned text, c.isDigit = true) ∧
      Nat.ofDigitChars 10 (unsigned text) 0 = n ∧ n ≤ limit := by
  simp only [read?, Option.ite_none_left_eq_some, Option.ite_none_right_eq_some, Option.some.injEq,
    Bool.or_eq_true, List.isEmpty_iff, Bool.not_eq_true', not_or, Bool.not_eq_false, List.all_eq_true]
  constructor
  · rintro ⟨⟨hne, hdigits⟩, hle, rfl⟩
    exact ⟨hne, hdigits, rfl, hle⟩
  · rintro ⟨hne, hdigits, rfl, hle⟩
    exact ⟨⟨hne, hdigits⟩, hle, rfl⟩

theorem exists_zeros {digits : List Char} (hne : digits ≠ []) (h : ∀ c ∈ digits, c.isDigit = true) :
    ∃ zeros, digits = List.replicate zeros '0' ++ (toString (Nat.ofDigitChars 10 digits 0)).toList := by
  induction digits using List.reverseRecOn with
  | nil => exact absurd rfl hne
  | append_singleton before c ih =>
    obtain ⟨hbefore, hc⟩ := List.forall_mem_append.1 h
    obtain ⟨d, hd, rfl⟩ := exists_digitChar (hc c List.mem_cons_self)
    have hlast : Nat.toDigits 10 d = [d.digitChar] := Nat.toDigits_of_lt_base hd
    have hvalue : Nat.ofDigitChars 10 (before ++ [d.digitChar]) 0 = 10 * Nat.ofDigitChars 10 before 0 + d := by
      rw [Nat.ofDigitChars_append, Nat.ofDigitChars_cons_digitChar_of_lt_ten hd, Nat.ofDigitChars_nil]
    rw [hvalue, toList_toString]
    rcases Nat.eq_zero_or_pos (Nat.ofDigitChars 10 before 0) with hzero | hpos
    · -- all that comes before is zeros
      obtain ⟨zeros, hzeros⟩ : ∃ zeros, before = List.replicate zeros '0' := by
        by_cases hnil : before = []
        · exact ⟨0, hnil⟩
        · obtain ⟨zeros, hzeros⟩ := ih hnil hbefore
          rw [hzero] at hzeros
          exact ⟨zeros + 1, hzeros.trans List.replicate_succ'.symm⟩
      refine ⟨zeros, ?_⟩
      rw [hzero, Nat.mul_zero, Nat.zero_add, hlast, hzeros]
    · have hnil : before ≠ [] := by
        rintro rfl
        exact Nat.lt_irrefl 0 hpos
      obtain ⟨zeros, hzeros⟩ := ih hnil hbefore
      refine ⟨zeros, ?_⟩
      rw [← Nat.toDigits_append_toDigits (by decide) hpos hd, hlast, ← List.append_assoc, ← toList_toString,
        ← hzeros]

theorem ofDigitChars_zeros (zeros n : Nat) :
    Nat.ofDigitChars 10 (List.replicate zeros '0' ++ (toString n).toList) 0 = n := by
  rw [Nat.ofDigitChars_append, Nat.ofDigitChars_replicate_zero, Nat.mul_zero, toList_toString,
    Nat.ofDigitChars_ten_toDigits]

theorem read?_eq_some_iff (limit : Nat) (text : List Char) (n : Nat) :
    read? limit text = some n ↔ Writes text n ∧ n ≤ limit := by
  rw [read?_eq_some_iff_unsigned]
  constructor
  · rintro ⟨hne, hdigits, rfl, hle⟩
    obtain ⟨zeros, hzeros⟩ := exists_zeros hne hdigits
    refine ⟨⟨zeros, ?_⟩, hle⟩
    rw [← hzeros]
    exact eq_unsigned_or text
  · rintro ⟨⟨zeros, htext⟩, hle⟩
    have hdigits : ∀ c ∈ List.replicate zeros '0' ++ (toString n).toList, c.isDigit = true := by
      intro c hc
      rcases List.mem_append.1 hc with hc | hc
      · rw [List.eq_of_mem_replicate hc]
        decide
      · exact isDigit_of_mem_toString hc
    have hunsigned : unsigned text = List.replicate zeros '0' ++ (toString n).toList := by
      rcases htext with rfl | rfl
      · exact unsigned_of_isDigit hdigits
      · rfl
    rw [hunsigned]
    refine ⟨?_, hdigits, ofDigitChars_zeros zeros n, hle⟩
    exact List.append_ne_nil_of_right_ne_nil _ (toList_toString n ▸ Nat.toDigits_ne_nil)

theorem read?_toString {limit n : Nat} (h : n ≤ limit) : read? limit (toString n).toList = some n :=
  (read?_eq_some_iff limit _ n).2 ⟨writes_toString n, h⟩

theorem le_of_read? {limit n : Nat} {text : List Char} (h : read? limit text = some n) : n ≤ limit :=
  ((read?_eq_some_iff limit text n).1 h).2

end EpsilonAutomata.Numeral
