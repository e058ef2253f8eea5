import EpsilonAutomata.Symbol.Word
import Mathlib.Data.List.Basic

/-! Texts cut at a separator. The cuts are the leftmost occurrences that do not overlap, which a text leaves
no choice about; an empty separator occurs at both ends and between any two characters. No piece holds the
separator, and a word has a token for each piece that is not empty, in their order. -/

namespace EpsilonAutomata.Word

def OccursAt (separator text : List Char) (place : Nat) : Prop :=
  place ≤ text.length ∧ separator <+: text.drop place

/-- The leftmost occurrences from `start` on that do not overlap. -/
structure Cuts (separator text : List Char) (start : Nat) (places : List Nat) : Prop where
  ascending : places.Pairwise (· < ·)
  occurs : ∀ p ∈ places, start ≤ p ∧ OccursAt separator text p
  apart : ∀ p ∈ places, ∀ q ∈ places, p < q → p + separator.length ≤ q
  leftmost : ∀ q, start ≤ q → OccursAt separator text q →
    q ∈ places ∨ ∃ p ∈ places, p < q ∧ q < p + separator.length

def between (text : List Char) (width start : Nat) : List Nat → List (List Char)
  | [] => [text.drop start]
  | p :: rest => (text.drop start).take (p - start) :: between text width (p + width) rest

def ofPieces (pieces : List (List Char)) : Word :=
  (pieces.filter fun piece => !piece.isEmpty).map fun piece => Symbol.ofKey (String.ofList piece)

theorem ofSeparated_of_ne_empty {separator : String} (h : separator ≠ "") (text : String) :
    ofSeparated separator text = ofPieces (pieces separator.toList [] text.toList) := by
  have hempty : separator.isEmpty = false := by simpa using h
  rw [ofSeparated, hempty]
  rfl

theorem exists_of_mem_ofPieces {pieces : List (List Char)} {x : Symbol} (h : x ∈ ofPieces pieces) :
    ∃ piece ∈ pieces, ∃ nonempty, x = .token (String.ofList piece) nonempty := by
  obtain ⟨piece, hpiece, rfl⟩ := List.mem_map.1 h
  obtain ⟨hmem, hkept⟩ := List.mem_filter.1 hpiece
  have hne : String.ofList piece ≠ "" := by
    rw [Ne, String.ofList_eq_empty_iff]
    simpa using hkept
  exact ⟨piece, hmem, hne, dif_neg hne⟩

section Cuts
variable {separator text : List Char} {start : Nat} {places others : List Nat}

theorem occursAt_of_prefix (hsep : separator ≠ []) {before : List Char}
    (h : before ++ separator <+: text.drop start) : OccursAt separator text (start + before.length) := by
  have hpos : 0 < separator.length := List.length_pos_iff.2 hsep
  have hlength := h.length_le
  rw [List.length_append, List.length_drop] at hlength
  refine ⟨by omega, ?_⟩
  obtain ⟨behind, hbehind⟩ := h
  rw [← List.drop_drop, ← hbehind, List.append_assoc, List.drop_left]
  exact List.prefix_append separator behind

theorem Cuts.mem_of_mem (h : Cuts separator text start places) (h' : Cuts separator text start others) {p : Nat}
    (hbefore : ∀ q < p, q ∈ others → q ∈ places) (hp : p ∈ places) : p ∈ others := by
  obtain ⟨hstart, hoccurs⟩ := h.occurs p hp
  rcases h'.leftmost p hstart hoccurs with hmem | ⟨q, hq, hqp, hover⟩
  · exact hmem
  · have := h.apart q (hbefore q hqp hq) p hp hqp
    omega

theorem Cuts.unique (h : Cuts separator text start places) (h' : Cuts separator text start others) :
    places = others := by
  have hmem (p : Nat) : p ∈ places ↔ p ∈ others := by
    induction p using Nat.strongRecOn with
    | ind p ih =>
      exact ⟨h.mem_of_mem h' fun q hq => (ih q hq).2, h'.mem_of_mem h fun q hq => (ih q hq).1⟩
  have hperm : places.Perm others :=
    (List.perm_ext_iff_of_nodup (h.ascending.imp Nat.ne_of_lt) (h'.ascending.imp Nat.ne_of_lt)).2 hmem
  exact hperm.eq_of_pairwise (fun p q _ _ hpq hqp => absurd hqp (Nat.lt_asymm hpq)) h.ascending h'.ascending

theorem cuts_nil (h : ∀ q, start ≤ q → ¬ OccursAt separator text q) : Cuts separator text start [] where
  ascending := .nil
  occurs := by simp
  apart := by simp
  leftmost q hstart hq := absurd hq (h q hstart)

theorem Cuts.skip (h : Cuts separator text (start + 1) places) (hno : ¬ OccursAt separator text start) :
    Cuts separator text start places where
  ascending := h.ascending
  occurs p hp := ⟨Nat.le_of_succ_le (h.occurs p hp).1, (h.occurs p hp).2⟩
  apart := h.apart
  leftmost q hstart hq := by
    rcases Nat.eq_or_lt_of_le hstart with rfl | hlt
    · exact absurd hq hno
    · exact h.leftmost q hlt hq

theorem Cuts.cut (h : Cuts separator text (start + separator.length) places) (hsep : separator ≠ [])
    (hoccurs : OccursAt separator text start) : Cuts separator text start (start :: places) := by
  have hpos : 0 < separator.length := List.length_pos_iff.2 hsep
  have hbehind (p : Nat) (hp : p ∈ places) : start + separator.length ≤ p := (h.occurs p hp).1
  refine ⟨List.pairwise_cons.2 ⟨fun p hp => ?_, h.ascending⟩, ?_, ?_, fun q hstart hq => ?_⟩
  · have := hbehind p hp
    omega
  · refine List.forall_mem_cons.2 ⟨⟨Nat.le_refl start, hoccurs⟩, fun p hp => ?_⟩
    exact ⟨Nat.le_of_add_right_le (hbehind p hp), (h.occurs p hp).2⟩
  · refine List.forall_mem_cons.2 ⟨List.forall_mem_cons.2 ⟨?_, fun p hp _ => hbehind p hp⟩, fun p hp => ?_⟩
    · exact fun hlt => absurd hlt (Nat.lt_irrefl start)
    · refine List.forall_mem_cons.2 ⟨fun hlt => ?_, h.apart p hp⟩
      have := hbehind p hp
      omega
  · by_cases hend : start + separator.length ≤ q
    · rcases h.leftmost q hend hq with hmem | ⟨p, hp, hover⟩
      · exact .inl (List.mem_cons_of_mem start hmem)
      · exact .inr ⟨p, List.mem_cons_of_mem start hp, hover⟩
    · rcases Nat.eq_or_lt_of_le hstart with rfl | hlt
      · exact .inl List.mem_cons_self
      · exact .inr ⟨start, List.mem_cons_self, hlt, Nat.not_le.1 hend⟩

theorem Cuts.tail {p : Nat} (h : Cuts separator text start (p :: places)) (hsep : separator ≠ []) :
    Cuts separator text (p + separator.length) places := by
  have hpos : 0 < separator.length := List.length_pos_iff.2 hsep
  obtain ⟨hfirst, hascending⟩ := List.pairwise_cons.1 h.ascending
  obtain ⟨⟨hstart, _⟩, hoccurs⟩ := List.forall_mem_cons.1 h.occurs
  have hmem {q : Nat} (hq : q ∈ places) : q ∈ p :: places := List.mem_cons_of_mem p hq
  refine ⟨hascending, fun q hq => ?_, fun q hq r hr => h.apart q (hmem hq) r (hmem hr), fun q hend hq => ?_⟩
  · exact ⟨h.apart p List.mem_cons_self q (hmem hq) (hfirst q hq), (hoccurs q hq).2⟩
  · rcases h.leftmost q (by omega) hq with hq | ⟨r, hr, hrq, hover⟩
    · exact .inl ((List.mem_cons.1 hq).resolve_left (by omega))
    · exact .inr ⟨r, (List.mem_cons.1 hr).resolve_left (by omega), hrq, hover⟩

theorem Cuts.not_infix_of_mem_between (h : Cuts separator text start places) (hsep : separator ≠ [])
    {piece : List Char} (hpiece : piece ∈ between text separator.length start places) :
    ¬ separator <:+: piece := by
  rintro ⟨before, behind, rfl⟩
  induction places generalizing start with
  | nil =>
    have hrest : before ++ separator ++ behind = text.drop start := List.mem_singleton.1 hpiece
    have hoccurs := occursAt_of_prefix hsep (hrest ▸ List.prefix_append _ _)
    simpa using h.leftmost _ (Nat.le_add_right start _) hoccurs
  | cons p places ih =>
    rcases List.mem_cons.1 hpiece with hfirst | hpiece
    · -- it would be an occurrence before the first cut
      have hoccurs : OccursAt separator text (start + before.length) := by
        apply occursAt_of_prefix hsep
        exact (hfirst ▸ List.prefix_append _ _ : _ <+: (text.drop start).take (p - start)).trans
          (List.take_prefix _ _)
      have hbefore : start + before.length < p := by
        have hlength := congrArg List.length hfirst
        have hpos : 0 < separator.length := List.length_pos_iff.2 hsep
        simp only [List.length_append, List.length_take] at hlength
        omega
      have hfirst : ∀ q ∈ p :: places, p ≤ q :=
        List.forall_mem_cons.2 ⟨Nat.le_refl p, fun q hq =>
          Nat.le_of_lt ((List.pairwise_cons.1 h.ascending).1 q hq)⟩
      rcases h.leftmost _ (Nat.le_add_right start _) hoccurs with hq | ⟨q, hq, hlt, _⟩
      · have := hfirst _ hq
        omega
      · have := hfirst q hq
        omega
    · exact ih (h.tail hsep) hpiece

end Cuts

theorem drop_add_length {text current rest : List Char} {start : Nat}
    (h : text.drop start = current.reverse ++ rest) : text.drop (start + current.length) = rest := by
  rw [← List.drop_drop, h, List.drop_left' List.length_reverse]

/-- Cutting piece by piece makes these cuts. `current` is what has been passed over since `start`. -/
theorem exists_cuts_pieces {separator : List Char} (hsep : separator ≠ []) (text current rest : List Char)
    (start : Nat) (hdrop : text.drop start = current.reverse ++ rest) :
    ∃ places, Cuts separator text (start + current.length) places ∧
      pieces separator current rest = between text separator.length start places := by
  fun_induction pieces separator current rest generalizing start with
  | case1 current =>
    have hend : text.length ≤ start + current.length := List.drop_eq_nil_iff.1 (drop_add_length hdrop)
    refine ⟨[], cuts_nil fun q hq hoccurs => hsep ?_, ?_⟩
    · have hnil : text.drop q = [] := List.drop_eq_nil_of_le (Nat.le_trans hend hq)
      exact List.prefix_nil.1 (hnil ▸ hoccurs.2)
    · rw [between, hdrop, List.append_nil]
  | case2 current c rest hprefix ih =>
    have hrest := drop_add_length hdrop
    have hplace : start + current.length < text.length :=
      List.length_lt_of_drop_ne_nil (hrest ▸ List.cons_ne_nil c rest)
    have hoccurs : OccursAt separator text (start + current.length) :=
      ⟨Nat.le_of_lt hplace, hrest ▸ List.isPrefixOf_iff_prefix.1 hprefix⟩
    have hbehind : text.drop (start + current.length + separator.length) =
        rest.drop (separator.length - 1) := by
      obtain ⟨n, hn⟩ : ∃ n, separator.length = n + 1 := Nat.exists_eq_add_one.2 (List.length_pos_iff.2 hsep)
      rw [← List.drop_drop, hrest, hn, List.drop_succ_cons, Nat.add_sub_cancel]
    obtain ⟨places, hcuts, hpieces⟩ := ih (start + current.length + separator.length) hbehind
    refine ⟨(start + current.length) :: places, hcuts.cut hsep hoccurs, ?_⟩
    rw [between, hdrop, Nat.add_sub_cancel_left, List.take_left' List.length_reverse, hpieces]
  | case3 current c rest hprefix ih =>
    have hno : ¬ OccursAt separator text (start + current.length) := by
      rintro ⟨_, hoccurs⟩
      exact hprefix (List.isPrefixOf_iff_prefix.2 (drop_add_length hdrop ▸ hoccurs))
    obtain ⟨places, hcuts, hpieces⟩ := ih start (by simpa using hdrop)
    exact ⟨places, hcuts.skip hno, hpieces⟩

/-! The empty separator. -/

theorem cuts_range (text : List Char) : Cuts [] text 0 (List.range (text.length + 1)) where
  ascending := List.pairwise_lt_range
  occurs p hp := ⟨Nat.zero_le p, Nat.lt_succ_iff.1 (List.mem_range.1 hp), List.nil_prefix⟩
  apart _ _ _ _ h := Nat.le_of_lt h
  leftmost _ _ h := .inl (List.mem_range.2 (Nat.lt_succ_of_le h.1))

theorem between_range' (text : List Char) (start count : Nat) (h : text.length = start + count) :
    between text 0 start (List.range' (start + 1) count) = (text.drop start).map ([·]) ++ [[]] := by
  induction count generalizing start with
  | zero =>
    rw [Nat.add_zero] at h
    rw [List.range'_zero, between, List.drop_eq_nil_of_le (Nat.le_of_eq h)]
    rfl
  | succ count ih =>
    have hlt : start < text.length := by omega
    rw [List.range'_succ, between, Nat.add_zero, ih (start + 1) (by omega), List.drop_eq_getElem_cons hlt,
      Nat.add_sub_cancel_left]
    rfl

theorem ofPieces_between_range (text : String) :
    ofPieces (between text.toList 0 0 (List.range (text.toList.length + 1))) = ofText text := by
  have hpieces : between text.toList 0 0 (List.range (text.toList.length + 1)) =
      [] :: (text.toList.map ([·]) ++ [[]]) := by
    rw [List.range_eq_range', List.range'_succ, between, between_range' _ _ _ (Nat.zero_add _).symm]
    rfl
  have hkept : (text.toList.map fun c => [c]).filter (fun piece => !piece.isEmpty) =
      text.toList.map fun c => [c] := by
    refine List.filter_eq_self.2 fun piece hpiece => ?_
    obtain ⟨c, _, rfl⟩ := List.mem_map.1 hpiece
    rfl
  have hends (pieces : List (List Char)) :
      ([] :: (pieces ++ [[]])).filter (fun piece => !piece.isEmpty) =
        pieces.filter fun piece => !piece.isEmpty := by
    simp
  rw [hpieces, ofPieces, hends, hkept, List.map_map]
  rfl

/-! A separator of one character. -/

theorem pieces_append {c : Char} (current rest : List Char) {piece : List Char} (h : c ∉ piece) :
    pieces [c] current (piece ++ rest) = pieces [c] (piece.reverse ++ current) rest := by
  induction piece generalizing current with
  | nil => rfl
  | cons d piece ih =>
    obtain ⟨hd, hpiece⟩ := not_or.1 (List.mem_cons.not.1 h)
    rw [List.cons_append, pieces, if_neg (by simpa using hd), ih _ hpiece]
    simp

theorem pieces_intercalate {c : Char} {texts : List (List Char)} (h : ∀ t ∈ texts, c ∉ t) (hne : texts ≠ []) :
    pieces [c] [] ([c].intercalate texts) = texts := by
  induction texts with
  | nil => exact absurd rfl hne
  | cons first texts ih =>
    obtain ⟨hfirst, hrest⟩ := List.forall_mem_cons.1 h
    cases texts with
    | nil =>
      have hpieces := pieces_append [] [] hfirst
      rw [List.append_nil] at hpieces
      rw [List.intercalate_singleton, hpieces, pieces]
      simp
    | cons next texts =>
      rw [List.intercalate_cons_cons, List.append_assoc, pieces_append [] _ hfirst, List.singleton_append,
        pieces, if_pos (by simp)]
      simpa using ih hrest (List.cons_ne_nil next texts)

theorem ofPieces_map_toList (texts : List String) :
    ofPieces (texts.map String.toList) = (texts.filter (· ≠ "")).map Symbol.ofKey := by
  induction texts with
  | nil => rfl
  | cons text texts ih =>
    by_cases h : text = ""
    · subst h
      exact ih
    · have hkept : text.toList.isEmpty = false := by simpa using h
      have hpieces : ofPieces ((text :: texts).map String.toList) =
          Symbol.ofKey (String.ofList text.toList) :: ofPieces (texts.map String.toList) := by
        simp only [ofPieces, List.map_cons, List.filter_cons, hkept]
        rfl
      rw [hpieces, ih, String.ofList_toList, List.filter_cons_of_pos (by simpa using h)]
      rfl

structure ReadsBetween (separator text : String) (w : Word) : Prop where
  /-- There is one choice of cuts, and the word holds what stands between them. -/
  cuts : ∃ places, (∀ others, Cuts separator.toList text.toList 0 others ↔ others = places) ∧
    w = ofPieces (between text.toList separator.toList.length 0 places)
  tokens : ∀ x ∈ w, ∃ token nonempty, x = .token token nonempty ∧
    (separator ≠ "" → ¬ separator.toList <:+: token.toList)
  characters : separator = "" → w = ofText text

theorem exists_cuts_ofSeparated (separator text : String) :
    ∃ places, Cuts separator.toList text.toList 0 places ∧
      ofSeparated separator text = ofPieces (between text.toList separator.toList.length 0 places) := by
  by_cases h : separator = ""
  · subst h
    exact ⟨_, cuts_range text.toList, (ofPieces_between_range text).symm⟩
  · have hsep : separator.toList ≠ [] := by simpa using h
    obtain ⟨places, hcuts, hpieces⟩ := exists_cuts_pieces hsep text.toList [] text.toList 0 rfl
    exact ⟨places, hcuts, (ofSeparated_of_ne_empty h text).trans (congrArg ofPieces hpieces)⟩

theorem readsBetween_ofSeparated (separator text : String) :
    ReadsBetween separator text (ofSeparated separator text) := by
  obtain ⟨places, hcuts, hword⟩ := exists_cuts_ofSeparated separator text
  refine ⟨⟨places, fun others => ⟨fun h => h.unique hcuts, fun h => h ▸ hcuts⟩, hword⟩, fun x hx => ?_, ?_⟩
  · obtain ⟨piece, hpiece, hne, rfl⟩ := exists_of_mem_ofPieces (hword ▸ hx)
    refine ⟨_, hne, rfl, fun hsep => ?_⟩
    rw [String.toList_ofList]
    exact hcuts.not_infix_of_mem_between (by simpa using hsep) hpiece
  · rintro rfl
    rfl

/-- A text is split faithfully: every separator cuts at its leftmost occurrences, and texts that were joined
with one character, which none of them holds, come back as tokens unless they are empty. -/
theorem ofSeparated_faithful :
    (∀ separator text, ReadsBetween separator text (ofSeparated separator text)) ∧
      ∀ (c : Char) (texts : List String), (∀ t ∈ texts, c ∉ t.toList) →
        ofSeparated (String.singleton c) ((String.singleton c).intercalate texts) =
          (texts.filter (· ≠ "")).map Symbol.ofKey := by
  refine ⟨readsBetween_ofSeparated, fun c texts h => ?_⟩
  rw [ofSeparated_of_ne_empty String.singleton_ne_empty, String.toList_intercalate, ← ofPieces_map_toList]
  cases texts with
  | nil =>
    rw [List.map_nil, List.intercalate_nil, pieces]
    rfl
  | cons first texts =>
    have hpieces : pieces [c] [] ([c].intercalate ((first :: texts).map String.toList)) =
        (first :: texts).map String.toList := pieces_intercalate (by simpa using h) (by simp)
    rw [String.toList_singleton, hpieces]

theorem ofSeparated_faithful_commas :
    (∀ t ∈ ["", "ab", "", "c,", ""], ';' ∉ t.toList) ∧
      ofSeparated ";" ";ab;;c,;" = [Symbol.ofKey "ab", Symbol.ofKey "c,"] := by
  have h : ∀ t ∈ ["", "ab", "", "c,", ""], ';' ∉ t.toList := by decide
  exact ⟨h, ofSeparated_faithful.2 ';' ["", "ab", "", "c,", ""] h⟩

end EpsilonAutomata.Word
