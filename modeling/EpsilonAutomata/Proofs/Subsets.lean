import EpsilonAutomata.Proofs.TableAutomaton

/-! The words of an automaton over a list of letters, and the subset construction. The table of
reached sets accepts the words that the automaton accepts; a consistent automaton accepts no other
word without epsilon than those made of its letters. -/

namespace EpsilonAutomata.Automaton

/-- The accepted words, letters given by their places in a list. -/
def languageOver (a : Automaton) (letters : List Symbol) (v : List (Fin letters.length)) : Bool :=
  a.accepts (v.map letters.get)

theorem mem_letters (a : Automaton) (x : Symbol) :
    x ∈ a.letters ↔ x ∈ a.alphabet ∧ x ≠ .epsilon := by
  rw [letters, List.mem_filter, OrderedSet.mem_toList, Bool.not_eq_true', Bool.eq_false_iff, Ne,
    Symbol.isEpsilon_iff]

theorem nodup_letters (a : Automaton) : a.letters.Nodup := a.alphabet.nodup.filter _

theorem epsilon_not_mem_letters (a : Automaton) : .epsilon ∉ a.letters :=
  fun h => ((a.mem_letters _).1 h).2 rfl

theorem language_subsetMachine (a : Automaton) (s : NameSet) (v : List (Fin a.letters.length)) :
    a.subsetMachine.language s v = a.acceptsIn (a.after s (v.map a.letters.get)) := by
  induction v generalizing s with
  | nil => rfl
  | cons j v ih =>
    rw [Machine.language_cons, List.map_cons, after, List.foldl_cons, ← after]
    simp only [subsetMachine]
    split
    · next hempty => exact (acceptsIn_of_isEmpty _ (isEmpty_after _ hempty _)).symm
    · exact ih _

theorem language_subsetTable (a : Automaton) :
    a.subsetTable.machine.language a.subsetTable.start = a.languageOver a.letters := by
  have hmachine := a.subsetMachine.language_tabulate a.bounded_subsetMachine
  refine hmachine.trans ?_
  funext v
  rw [language_subsetMachine, languageOver, accepts_eq_acceptsIn]
  rfl

theorem exists_places (letters : List Symbol) (w : Word) (h : ∀ x ∈ w, x ∈ letters) :
    ∃ v : List (Fin letters.length), w = v.map letters.get := by
  induction w with
  | nil => exact ⟨[], rfl⟩
  | cons x w ih =>
    obtain ⟨j, rfl⟩ := List.get_of_mem (h x List.mem_cons_self)
    obtain ⟨v, rfl⟩ := ih fun y hy => h y (List.mem_cons_of_mem _ hy)
    exact ⟨j :: v, rfl⟩

theorem epsilon_not_mem_map (letters : List Symbol) (hepsilon : .epsilon ∉ letters)
    (v : List (Fin letters.length)) : .epsilon ∉ v.map letters.get := by
  intro h
  obtain ⟨j, _, hj⟩ := List.mem_map.1 h
  exact hepsilon (hj ▸ List.get_mem letters j)

theorem Path.mem_letters {a : Automaton} (h : a.Consistent) {p r : String} {w : Word}
    (hw : a.Path p w r) (hepsilon : .epsilon ∉ w) : ∀ x ∈ w, x ∈ a.letters := by
  induction hw with
  | stop => simp
  | silent _ _ ih => exact ih hepsilon
  | @read _ _ _ y _ ht _ ih =>
    rw [List.mem_cons, not_or] at hepsilon
    intro x hx
    rcases List.mem_cons.1 hx with rfl | hx
    · have hsymbol := h.symbol_mem _ _ _ ((a.mem_transitions _ _ _).1 ht)
      have hx : x ≠ .epsilon := fun hx => hepsilon.1 hx.symm
      exact (a.mem_letters x).2 ⟨hsymbol.resolve_left hx, hx⟩
    · exact ih hepsilon.2 x hx

theorem accepts_iff_languageOver {a : Automaton} (h : a.Consistent) (w : Word)
    (hepsilon : .epsilon ∉ w) :
    a.accepts w = true ↔ ∃ v, w = v.map a.letters.get ∧ a.languageOver a.letters v = true := by
  constructor
  · intro hw
    have hpath := hw
    rw [accepts_eq_acceptsIn, acceptsIn_iff] at hpath
    obtain ⟨r, hr, _⟩ := hpath
    have hletters := ((mem_after_start_iff w r).1 hr).mem_letters h hepsilon
    obtain ⟨v, rfl⟩ := exists_places a.letters w hletters
    exact ⟨v, rfl, hw⟩
  · rintro ⟨v, rfl, hv⟩
    exact hv

end EpsilonAutomata.Automaton
