import EpsilonAutomata.CommandLine.Transition
import EpsilonAutomata.Proofs.Numerals
import Mathlib.Data.List.TakeWhile

/-! Transitions as they are written on the command line. A text is read as a transition exactly when two
colons part two numerals of 32 bits from the key of a symbol, which may hold more colons or be empty. -/

namespace EpsilonAutomata.CommandLine

section Cuts
variable {c : Char} {before : List Char} (h : c ∉ before) (rest : List Char)
include h

theorem forall_ne_of_not_mem : ∀ d ∈ before, decide (d ≠ c) = true := by
  intro d hd
  apply decide_eq_true
  rintro rfl
  exact h hd

theorem takeWhile_ne_append : (before ++ c :: rest).takeWhile (· ≠ c) = before := by
  rw [List.takeWhile_append_of_pos (forall_ne_of_not_mem h), List.takeWhile_cons_of_neg (by simp),
    List.append_nil]

theorem dropWhile_ne_append : (before ++ c :: rest).dropWhile (· ≠ c) = c :: rest := by
  rw [List.dropWhile_append_of_pos (forall_ne_of_not_mem h), List.dropWhile_cons_of_neg (by simp)]

end Cuts

theorem splitColon_append {before : List Char} (h : ':' ∉ before) (rest : List Char) :
    splitColon (before ++ ':' :: rest) = some (before, rest) := by
  rw [splitColon, dropWhile_ne_append h, takeWhile_ne_append h]

theorem splitColon_of_not_mem {text : List Char} (h : ':' ∉ text) : splitColon text = none := by
  have hall : text.dropWhile (· ≠ ':') = [] := List.dropWhile_eq_nil_iff.2 (forall_ne_of_not_mem h)
  rw [splitColon, hall]

theorem splitColon_eq_some_iff (text before rest : List Char) :
    splitColon text = some (before, rest) ↔ text = before ++ ':' :: rest ∧ ':' ∉ before := by
  constructor
  · intro h
    by_cases hmem : ':' ∈ text
    · obtain ⟨first, behind, rfl, hfirst⟩ := List.eq_append_cons_of_mem hmem
      rw [splitColon_append hfirst] at h
      cases h
      exact ⟨rfl, hfirst⟩
    · rw [splitColon_of_not_mem hmem] at h
      cases h
  · rintro ⟨rfl, h⟩
    exact splitColon_append h rest

theorem readId_eq_ok_iff (text : List Char) (n : Nat) :
    readId text = .ok n ↔ Numeral.Writes text n ∧ n ≤ Numeral.word32 := by
  rw [← Numeral.read?_eq_some_iff, readId]
  cases Numeral.read? Numeral.word32 text <;> simp

theorem colon_not_mem_toString (n : Nat) : ':' ∉ (toString n).toList := fun h =>
  absurd (Numeral.isDigit_of_mem_toString h) (by decide)

namespace Transition

def text (t : Transition) : String :=
  toString t.source ++ ":" ++ toString t.target ++ ":" ++ t.symbol.key

def Fits (t : Transition) : Prop := t.source ≤ Numeral.word32 ∧ t.target ≤ Numeral.word32

theorem toList_text (t : Transition) : t.text.toList =
    (toString t.source).toList ++ ':' :: ((toString t.target).toList ++ ':' :: t.symbol.key.toList) := by
  simp [text]

/-- Numerals of the two nodes stand before the first colon and between the first two, and all that is behind
is the key of the symbol. -/
def Spells (text : String) (t : Transition) : Prop :=
  ∃ source target : List Char, text.toList = source ++ ':' :: (target ++ ':' :: t.symbol.key.toList) ∧
    ':' ∉ source ∧ ':' ∉ target ∧ Numeral.Writes source t.source ∧ Numeral.Writes target t.target ∧ t.Fits

theorem spells_text {t : Transition} (h : t.Fits) : Spells t.text t :=
  ⟨_, _, t.toList_text, colon_not_mem_toString _, colon_not_mem_toString _, Numeral.writes_toString _,
    Numeral.writes_toString _, h⟩

theorem read_of_spells {text : String} {t : Transition} (h : Spells text t) : read text = .ok t := by
  obtain ⟨source, target, htext, hsource, htarget, hsourceId, htargetId, hfits⟩ := h
  have hfirst := (readId_eq_ok_iff source t.source).2 ⟨hsourceId, hfits.1⟩
  have hsecond := (readId_eq_ok_iff target t.target).2 ⟨htargetId, hfits.2⟩
  rw [read, htext, splitColon_append hsource]
  simp only [splitColon_append htarget, hfirst, hsecond, String.ofList_toList, Symbol.ofKey_key]

theorem spells_of_read {text : String} {t : Transition} (h : read text = .ok t) : Spells text t := by
  unfold read at h
  split at h
  · cases h
  · next source rest hfirst =>
    obtain ⟨htext, hsource⟩ := (splitColon_eq_some_iff _ _ _).1 hfirst
    split at h
    · cases h
    · next target symbol hsecond =>
      obtain ⟨rfl, htarget⟩ := (splitColon_eq_some_iff _ _ _).1 hsecond
      split at h
      · cases h
      · next n hn =>
        split at h
        · cases h
        · next m hm =>
          cases h
          obtain ⟨hsourceId, hn⟩ := (readId_eq_ok_iff _ _).1 hn
          obtain ⟨htargetId, hm⟩ := (readId_eq_ok_iff _ _).1 hm
          refine ⟨source, target, ?_, hsource, htarget, hsourceId, htargetId, hn, hm⟩
          rw [Symbol.key_ofKey, String.toList_ofList, htext]

theorem read_text {t : Transition} (h : t.Fits) : read t.text = .ok t := read_of_spells (spells_text h)

/-- Every transition with numbers of 32 bits is read back from its text, and a text is read only as a
transition that it spells. -/
theorem read_exact :
    (∀ t : Transition, t.Fits → read t.text = .ok t) ∧
      ∀ (text : String) (t : Transition), read text = .ok t ↔ Spells text t :=
  ⟨fun _ h => read_text h, fun _ _ => ⟨spells_of_read, read_of_spells⟩⟩

theorem read_exact_colons :
    Fits ⟨4294967295, 0, .ofKey "::"⟩ ∧ read "4294967295:0:::" = .ok ⟨4294967295, 0, .ofKey "::"⟩ ∧
      read "+04294967295:00:::" = .ok ⟨4294967295, 0, .ofKey "::"⟩ := by
  have hfits : Fits ⟨4294967295, 0, .ofKey "::"⟩ := ⟨by decide, by decide⟩
  refine ⟨hfits, read_exact.1 _ hfits, (read_exact.2 _ _).2 ?_⟩
  exact ⟨"+04294967295".toList, "00".toList, by decide, by decide, by decide, ⟨1, by decide⟩, ⟨1, by decide⟩,
    hfits⟩

end Transition
end EpsilonAutomata.CommandLine
