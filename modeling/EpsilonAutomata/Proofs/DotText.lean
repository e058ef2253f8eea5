import EpsilonAutomata.Graph.Dot
import EpsilonAutomata.Proofs.Arguments
import Mathlib

/-! What the DOT text of a drawing tells. A label may hold line feeds and whole lines of DOT, so the text
is not cut into lines: each piece of it, from left to right, tells what it shows and where it ends. A numeral
ends before what is no digit, a label at the first quotation mark that is not escaped, a list of lines before
a line that starts like none of them. -/

namespace EpsilonAutomata

namespace Dot

/-- The text of a thing tells what the thing shows, and where the text ends, whatever stands behind it. -/
def Delimited {α β : Type} (write : α → List Char) (view : α → β) : Prop :=
  ∀ a b u v, write a ++ u = write b ++ v → view a = view b ∧ u = v

namespace Delimited
variable {α β γ : Type} {write : α → List Char} {view : α → β}

theorem opened (h : Delimited write view) (opening : List Char) :
    Delimited (fun a => opening ++ write a) view := by
  intro a b u v heq
  rw [List.append_assoc, List.append_assoc] at heq
  exact h a b u v (List.append_cancel_left heq)

theorem closed (h : Delimited write view) (closing : List Char) :
    Delimited (fun a => write a ++ closing) view := by
  intro a b u v heq
  rw [List.append_assoc, List.append_assoc] at heq
  obtain ⟨hview, hrest⟩ := h a b _ _ heq
  exact ⟨hview, List.append_cancel_left hrest⟩

theorem append {write' : α → List Char} {view' : α → γ} (h : Delimited write view)
    (h' : Delimited write' view') : Delimited (fun a => write a ++ write' a) fun a => (view a, view' a) := by
  intro a b u v heq
  rw [List.append_assoc, List.append_assoc] at heq
  obtain ⟨hview, hrest⟩ := h a b _ _ heq
  obtain ⟨hview', hrest'⟩ := h' a b _ _ hrest
  exact ⟨Prod.ext hview hview', hrest'⟩

theorem comp (h : Delimited write view) (f : γ → α) : Delimited (write ∘ f) (view ∘ f) :=
  fun a b u v heq => h (f a) (f b) u v heq

theorem flatMap (h : Delimited write view) {closing : List Char}
    (hclosing : ∀ a u v, write a ++ u ≠ closing ++ v) :
    Delimited (fun as : List α => as.flatMap write ++ closing) (List.map view) := by
  intro as bs u v heq
  induction as generalizing bs with
  | nil =>
    cases bs with
    | nil => exact ⟨rfl, List.append_cancel_left heq⟩
    | cons b bs =>
      simp only [List.flatMap_nil, List.nil_append, List.flatMap_cons, List.append_assoc] at heq
      exact absurd heq.symm (hclosing b _ _)
  | cons a as ih =>
    cases bs with
    | nil =>
      simp only [List.flatMap_nil, List.nil_append, List.flatMap_cons, List.append_assoc] at heq
      exact absurd heq (hclosing a _ _)
    | cons b bs =>
      simp only [List.flatMap_cons, List.append_assoc] at heq ih
      obtain ⟨hview, hrest⟩ := h a b _ _ heq
      obtain ⟨hviews, hend⟩ := ih bs hrest
      exact ⟨congrArg₂ List.cons hview hviews, hend⟩

end Delimited

/-! Numerals. -/

def NoDigitFirst (text : List Char) : Prop := ∀ c ∈ text.head?, c.isDigit = false

def digits (n : Nat) : List Char := (toString n).toList

theorem isDigit_of_mem_digits {n : Nat} {c : Char} (h : c ∈ digits n) : c.isDigit = true :=
  Numeral.isDigit_of_mem_toString h

theorem exists_digits_eq_cons (n : Nat) : ∃ c rest, digits n = c :: rest := by
  apply List.exists_cons_of_ne_nil
  rw [digits, Nat.toString_eq_repr, Nat.toList_repr]
  exact Nat.toDigits_ne_nil

theorem digits_injective : Function.Injective digits := by
  intro m n h
  exact Nat.repr_injective (String.toList_inj.1 h)

theorem takeWhile_digits_append (n : Nat) {rest : List Char} (h : NoDigitFirst rest) :
    (digits n ++ rest).takeWhile Char.isDigit = digits n := by
  rw [List.takeWhile_append_of_pos fun c hc => isDigit_of_mem_digits hc]
  cases rest with
  | nil => rw [List.takeWhile_nil, List.append_nil]
  | cons c rest =>
    have hc : c.isDigit = false := h c rfl
    rw [List.takeWhile_cons_of_neg (by simp [hc]), List.append_nil]

theorem digits_append_inj {m n : Nat} {u v : List Char} (hu : NoDigitFirst u) (hv : NoDigitFirst v)
    (h : digits m ++ u = digits n ++ v) : m = n ∧ u = v := by
  have hdigits : digits m = digits n := by
    rw [← takeWhile_digits_append m hu, h, takeWhile_digits_append n hv]
  rw [hdigits] at h
  exact ⟨digits_injective hdigits, List.append_cancel_left h⟩

theorem noDigitFirst_cons {c : Char} (hc : c.isDigit = false) (rest : List Char) :
    NoDigitFirst (c :: rest) := by
  simpa [NoDigitFirst] using hc

theorem delimited_digits {c : Char} (hc : c.isDigit = false) :
    Delimited (fun n => digits n ++ [c]) id := by
  intro m n u v heq
  simp only [List.append_assoc, List.singleton_append] at heq
  obtain ⟨hmn, hrest⟩ := digits_append_inj (noDigitFirst_cons hc u) (noDigitFirst_cons hc v) heq
  exact ⟨hmn, (List.cons.inj hrest).2⟩

/-! Labels. -/

/-- Reads up to the first quotation mark that no backslash escapes. -/
def scanLabel : List Char → Option (List Char × List Char)
  | [] => none
  | '"' :: rest => some ([], rest)
  | '\\' :: c :: rest => (scanLabel rest).map fun (label, behind) => (c :: label, behind)
  | c :: rest => (scanLabel rest).map fun (label, behind) => (c :: label, behind)

theorem scanLabel_escape (c : Char) (rest : List Char) :
    scanLabel (escape c ++ rest) = (scanLabel rest).map fun (label, behind) => (c :: label, behind) := by
  unfold escape
  split_ifs with hbackslash hquote
  · subst hbackslash
    rfl
  · subst hquote
    rfl
  · rw [List.singleton_append, scanLabel]
    · exact hquote
    · exact fun d _ h _ => hbackslash h

theorem scanLabel_flatMap_escape (label rest : List Char) :
    scanLabel (label.flatMap escape ++ '"' :: rest) = some (label, rest) := by
  induction label with
  | nil => rfl
  | cons c label ih =>
    rw [List.flatMap_cons, List.append_assoc, scanLabel_escape, ih, Option.map_some]

def behindQuote (text : List Char) : List Char := (text.dropWhile (· ≠ '"')).tail

theorem behindQuote_append {before : List Char} (h : '"' ∉ before) (rest : List Char) :
    behindQuote (before ++ '"' :: rest) = rest := by
  rw [behindQuote, CommandLine.dropWhile_ne_append h, List.tail_cons]

theorem toList_quote (label : String) :
    (quote label).toList = '"' :: (label.toList.flatMap escape ++ ['"']) := by
  simp [quote]

theorem delimited_quote : Delimited (fun label => (quote label).toList) id := by
  intro l m u v heq
  simp only [toList_quote, List.cons_append, List.append_assoc, List.nil_append, List.cons.injEq,
    true_and] at heq
  have hread := congrArg scanLabel heq
  rw [scanLabel_flatMap_escape, scanLabel_flatMap_escape] at hread
  obtain ⟨hlabel, hrest⟩ := Prod.mk.inj (Option.some.inj hread)
  exact ⟨String.toList_inj.1 hlabel, hrest⟩

/-! Lines. -/

theorem toList_intercalate_cons (separator first : String) (rest : List String) :
    (separator.intercalate (first :: rest)).toList =
      first.toList ++ rest.flatMap fun text => separator.toList ++ text.toList := by
  rw [String.toList_intercalate, List.map_cons]
  induction rest generalizing first with
  | nil => simp
  | cons next rest ih =>
    rw [List.map_cons, List.intercalate_cons_cons, ih next]
    simp

def below (line : String) : List Char := "\n".toList ++ line.toList

theorem below_nodeLine (node : Node) : below (nodeLine node) =
    ['\n', '\t'] ++ ((digits node.id ++ [' ']) ++ ("[label = ".toList ++ (quote node.label).toList)) ++
      [']', ';'] := by
  simp [below, nodeLine, digits]

theorem delimited_nodeLine :
    Delimited (fun node => below (nodeLine node)) fun node => (node.id, node.label) := by
  have hid := (delimited_digits (c := ' ') rfl).comp Node.id
  have hlabel := (delimited_quote.comp Node.label).opened "[label = ".toList
  simp only [below_nodeLine]
  exact ((hid.append hlabel).opened _).closed _

theorem below_edgeLine (e : Edge) : below (edgeLine e) =
    ['\n', '\t'] ++ ((digits e.source ++ [' ']) ++ (['-', '>', ' '] ++ (digits e.target ++ [' ']) ++
      ("[label = ".toList ++ (quote e.label).toList))) ++ [']', ';'] := by
  simp [below, edgeLine, digits]

theorem delimited_edgeLine :
    Delimited (fun e => below (edgeLine e)) fun e => (e.source, e.target, e.label) := by
  have hsource := (delimited_digits (c := ' ') rfl).comp Edge.source
  have htarget := ((delimited_digits (c := ' ') rfl).comp Edge.target).opened ['-', '>', ' ']
  have hlabel := (delimited_quote.comp Edge.label).opened "[label = ".toList
  simp only [below_edgeLine]
  exact ((hsource.append (htarget.append hlabel)).opened _).closed _

theorem quote_not_mem_digits (n : Nat) : '"' ∉ digits n := fun h =>
  absurd (isDigit_of_mem_digits h) (by decide)

theorem scanLabel_nodeLine (node : Node) (rest : List Char) :
    scanLabel (behindQuote ((nodeLine node).toList ++ rest)) =
      some (node.label.toList, "];".toList ++ rest) := by
  have hline : (nodeLine node).toList ++ rest = ('\t' :: digits node.id ++ " [label = ".toList) ++
      '"' :: (node.label.toList.flatMap escape ++ '"' :: ("];".toList ++ rest)) := by
    simp [nodeLine, toList_quote, digits]
  have hbefore : '"' ∉ '\t' :: digits node.id ++ " [label = ".toList := by
    simp [quote_not_mem_digits]
  rw [hline, behindQuote_append hbefore, scanLabel_flatMap_escape]

theorem scanLabel_edgeLine (e : Edge) (rest : List Char) :
    scanLabel (behindQuote ((edgeLine e).toList ++ rest)) =
      some (e.label.toList, "];".toList ++ rest) := by
  have hline : (edgeLine e).toList ++ rest =
      ('\t' :: digits e.source ++ " -> ".toList ++ digits e.target ++ " [label = ".toList) ++
        '"' :: (e.label.toList.flatMap escape ++ '"' :: ("];".toList ++ rest)) := by
    simp [edgeLine, toList_quote, digits]
  have hbefore : '"' ∉
      '\t' :: digits e.source ++ " -> ".toList ++ digits e.target ++ " [label = ".toList := by
    simp [quote_not_mem_digits]
  rw [hline, behindQuote_append hbefore, scanLabel_flatMap_escape]

/-! The accepting nodes. -/

def acceptingIds (g : Graph) : List Nat := (g.nodes.filter Node.accepting).map Node.id

def spaced (ids : List Nat) : List Char := ids.flatMap fun id => ' ' :: digits id

theorem noDigitFirst_spaced_append (ids : List Nat) (rest : List Char) :
    NoDigitFirst (spaced ids ++ ';' :: rest) := by
  cases ids <;> exact noDigitFirst_cons rfl _

theorem delimited_spaced : Delimited (fun ids => spaced ids ++ [';']) id := by
  intro l m u v heq
  simp only [List.append_assoc, List.singleton_append] at heq
  induction l generalizing m with
  | nil =>
    cases m with
    | nil => exact ⟨rfl, (List.cons.inj heq).2⟩
    | cons n m => simp [spaced] at heq
  | cons k l ih =>
    cases m with
    | nil => simp [spaced] at heq
    | cons n m =>
      have hfirst : digits k ++ (spaced l ++ ';' :: u) = digits n ++ (spaced m ++ ';' :: v) := by
        simpa [spaced] using heq
      obtain ⟨rfl, hrest⟩ :=
        digits_append_inj (noDigitFirst_spaced_append l u) (noDigitFirst_spaced_append m v) hfirst
      obtain ⟨hids, hend⟩ := ih m hrest
      exact ⟨congrArg (List.cons k) hids, hend⟩

def circleLine : String := "\tnode [shape = circle];"

theorem flatMap_below_acceptingLines_nil {g : Graph} (h : acceptingIds g = []) :
    (acceptingLines g).flatMap below = [] := by
  have hlines : acceptingLines g = [] := by
    rw [acceptingLines, List.map_eq_nil_iff.1 h]
    rfl
  rw [hlines, List.flatMap_nil]

theorem flatMap_below_acceptingLines_cons {g : Graph} {id : Nat} {ids : List Nat}
    (h : acceptingIds g = id :: ids) : (acceptingLines g).flatMap below =
      "\n\tnode [shape = doublecircle];".toList ++ (spaced (id :: ids) ++ [';']) := by
  have htexts : (g.nodes.filter Node.accepting).map (fun node => toString node.id) =
      toString id :: ids.map fun id => toString id := by
    rw [← List.map_cons, ← h, acceptingIds, List.map_map]
    rfl
  have hids : (" ".intercalate (toString id :: ids.map fun id => toString id)).toList =
      digits id ++ spaced ids := by
    rw [toList_intercalate_cons, List.flatMap_map]
    rfl
  rw [acceptingLines, htexts]
  simp only [List.flatMap_singleton, below, String.toList_append, hids]
  simp [spaced]

theorem delimited_acceptingLines :
    Delimited (fun g => (acceptingLines g).flatMap below ++ below circleLine) acceptingIds := by
  intro g g' u v heq
  cases h : acceptingIds g with
  | nil =>
    cases h' : acceptingIds g' with
    | nil =>
      simp only [flatMap_below_acceptingLines_nil h, flatMap_below_acceptingLines_nil h'] at heq
      exact ⟨rfl, List.append_cancel_left heq⟩
    | cons id ids =>
      simp only [flatMap_below_acceptingLines_nil h, flatMap_below_acceptingLines_cons h'] at heq
      simp [below, circleLine] at heq
  | cons id ids =>
    cases h' : acceptingIds g' with
    | nil =>
      simp only [flatMap_below_acceptingLines_cons h, flatMap_below_acceptingLines_nil h'] at heq
      simp [below, circleLine] at heq
    | cons id' ids' =>
      simp only [flatMap_below_acceptingLines_cons h, flatMap_below_acceptingLines_cons h'] at heq
      exact ((delimited_spaced.opened _).closed _) (id :: ids) (id' :: ids') u v heq

/-! The whole text. -/

def opening : List Char := "digraph automaton \x7b".toList ++ below "\trankdir = LR;"

theorem toList_toDot (g : Graph) : g.toDot.toList =
    opening ++ (((acceptingLines g).flatMap below ++ below circleLine) ++
      ((g.nodes.flatMap (fun node => below (nodeLine node)) ++ below "\tstart [shape = point];") ++
        (below ("\tstart -> " ++ toString Graph.firstId ++ ";") ++
          (g.edges.flatMap (fun e => below (edgeLine e)) ++ below "\x7d")))) := by
  unfold Graph.toDot lines opening circleLine
  simp only [List.cons_append, List.nil_append]
  rw [toList_intercalate_cons]
  change _ ++ List.flatMap below _ = _
  simp only [List.flatMap_cons, List.flatMap_append, List.flatMap_map, List.flatMap_nil, List.append_nil,
    List.append_assoc]

theorem delimited_nodeLines :
    Delimited (fun g : Graph =>
        g.nodes.flatMap (fun node => below (nodeLine node)) ++ below "\tstart [shape = point];")
      fun g => g.nodes.map fun node => (node.id, node.label) := by
  refine (delimited_nodeLine.flatMap ?_).comp Graph.nodes
  intro node u v heq
  obtain ⟨c, rest, hdigits⟩ := exists_digits_eq_cons node.id
  have hc : c.isDigit = true := isDigit_of_mem_digits (hdigits ▸ List.mem_cons_self)
  rw [below_nodeLine, hdigits] at heq
  -- a node's line goes on with a number, the closing one with the name of the start
  have hletter : c = 's' := by
    simp [below] at heq
    exact heq.1
  rw [hletter] at hc
  exact absurd hc (by decide)

theorem delimited_edgeLines :
    Delimited (fun g : Graph => g.edges.flatMap (fun e => below (edgeLine e)) ++ below "\x7d")
      fun g => g.edges.map fun e => (e.source, e.target, e.label) := by
  refine (delimited_edgeLine.flatMap ?_).comp Graph.edges
  intro e u v heq
  rw [below_edgeLine] at heq
  simp [below] at heq

theorem delimited_toDot : Delimited (fun g : Graph => g.toDot.toList) fun g =>
    (acceptingIds g, g.nodes.map (fun node => (node.id, node.label)),
      g.edges.map fun e => (e.source, e.target, e.label)) := by
  simp only [toList_toDot]
  exact (delimited_acceptingLines.append (delimited_nodeLines.append (delimited_edgeLines.opened _))).opened _

/-- Nodes of these numbers and labels, the numbers of the accepting ones being known. -/
def rebuild (acceptingIds : List Nat) (views : List (Nat × String)) : List Node :=
  views.map fun view => ⟨view.1, view.2, decide (view.1 ∈ acceptingIds)⟩

theorem rebuild_eq {g : Graph} (h : (g.nodes.map Node.id).Nodup) :
    rebuild (acceptingIds g) (g.nodes.map fun node => (node.id, node.label)) = g.nodes := by
  have hflag : ∀ node ∈ g.nodes, decide (node.id ∈ acceptingIds g) = node.accepting := by
    intro node hnode
    have hiff : node.id ∈ acceptingIds g ↔ node.accepting = true := by
      rw [acceptingIds, List.mem_map]
      constructor
      · rintro ⟨other, hother, hid⟩
        obtain ⟨hmem, haccepting⟩ := List.mem_filter.1 hother
        rwa [List.inj_on_of_nodup_map h hmem hnode hid] at haccepting
      · intro haccepting
        exact ⟨node, List.mem_filter.2 ⟨hnode, haccepting⟩, rfl⟩
    simp [hiff]
  rw [rebuild, List.map_map]
  refine (List.map_congr_left fun node hnode => ?_).trans (List.map_id _)
  simp only [Function.comp, hflag node hnode, id]

/-- Drawings with the same text have the same nodes and the same edges, one after the other, whatever their
labels hold. A label is read back from its line up to the quotation mark that was put behind it. -/
theorem toDot_unambiguous :
    (∀ g g' : Graph, (g.nodes.map Node.id).Nodup → (g'.nodes.map Node.id).Nodup → g.toDot = g'.toDot →
      g.nodes = g'.nodes ∧
        g.edges.map (fun e => (e.source, e.target, e.label)) =
          g'.edges.map fun e => (e.source, e.target, e.label)) ∧
    (∀ (node : Node) (rest : List Char), scanLabel (behindQuote ((nodeLine node).toList ++ rest)) =
      some (node.label.toList, "];".toList ++ rest)) ∧
    ∀ (e : Edge) (rest : List Char), scanLabel (behindQuote ((edgeLine e).toList ++ rest)) =
      some (e.label.toList, "];".toList ++ rest) := by
  refine ⟨?_, scanLabel_nodeLine, scanLabel_edgeLine⟩
  intro g g' hg hg' htext
  have hshown := (delimited_toDot g g' [] [] (congrArg (fun text => text.toList ++ []) htext)).1
  obtain ⟨haccepting, hrest⟩ := Prod.mk.inj hshown
  obtain ⟨hnodes, hedges⟩ := Prod.mk.inj hrest
  refine ⟨?_, hedges⟩
  rw [← rebuild_eq hg, haccepting, hnodes, rebuild_eq hg']

def intruder : String := "\\\"];\n\t2 [label = \"b"

def joined (symbols : List Symbol) : Graph where
  nodes := [⟨1, intruder, true⟩, ⟨2, "", false⟩]
  edges := [⟨1, 2, symbols⟩]

theorem toDot_unambiguous_joined :
    let one := joined [.ofKey "a, b"]
    let two := joined [.ofKey "a", .ofKey "b"]
    (one.nodes.map Node.id).Nodup ∧ (two.nodes.map Node.id).Nodup ∧ one ≠ two ∧
      one.toDot = two.toDot ∧
      one.edges.map (fun e => (e.source, e.target, e.label)) =
        two.edges.map fun e => (e.source, e.target, e.label) := by
  intro one two
  have hone : (one.nodes.map Node.id).Nodup := by decide
  have htwo : (two.nodes.map Node.id).Nodup := by decide
  have htext : one.toDot = two.toDot := by decide +kernel
  exact ⟨hone, htwo, by decide +kernel, htext, (toDot_unambiguous.1 one two hone htwo htext).2⟩

end Dot

end EpsilonAutomata
