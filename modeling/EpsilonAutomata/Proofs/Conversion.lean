import EpsilonAutomata.Proofs.Derivative
import EpsilonAutomata.Proofs.Subsets

/-! Both conversions succeed and keep the accepted words. The smallest automaton is written down
from the derivatives of the language, so automata over the same letters have the same smallest
automaton exactly when they accept the same words. -/

namespace EpsilonAutomata.Automaton
variable {a b : Automaton}

def determinised (a : Automaton) : Automaton := a.subsetTable.written a.letters

def minimised (a : Automaton) : Automaton := a.subsetTable.trim.merge.written a.letters

theorem determinise_eq_ok (a : Automaton) : a.determinise = .ok a.determinised :=
  a.subsetTable.toAutomaton_eq_ok a.nodup_letters

theorem minimise_eq_ok (a : Automaton) : a.minimise = .ok a.minimised :=
  a.subsetTable.trim.merge.toAutomaton_eq_ok a.nodup_letters

theorem realises_determinised (a : Automaton) : Realises a.determinised a.letters a.subsetTable :=
  a.subsetTable.realises_written a.nodup_letters

theorem realises_minimised (a : Automaton) :
    Realises a.minimised a.letters a.subsetTable.trim.merge :=
  a.subsetTable.trim.merge.realises_written a.nodup_letters

theorem wellFormed_determinised (a : Automaton) : a.determinised.WellFormed :=
  a.subsetTable.wellFormed_written a.nodup_letters

theorem language_trimmed (a : Automaton) :
    a.subsetTable.trim.machine.language a.subsetTable.trim.start = a.languageOver a.letters := by
  rw [← language_subsetTable]
  funext v
  exact a.subsetTable.language_trim _ v

theorem language_merged (a : Automaton) :
    a.subsetTable.trim.merge.machine.language a.subsetTable.trim.merge.start =
      a.languageOver a.letters := by
  rw [← language_trimmed]
  exact a.subsetTable.trim.language_merge a.subsetTable.trimmed_trim

theorem accepts_eq_of_realises (h : a.Consistent) {m : Automaton} {n : Nat}
    {t : Table n a.letters.length} (hm : Realises m a.letters t)
    (ht : t.machine.language t.start = a.languageOver a.letters) (w : Word) (hw : .epsilon ∉ w) :
    m.accepts w = a.accepts w := by
  rw [Bool.eq_iff_iff, hm.accepts_iff_language a.epsilon_not_mem_letters, ht,
    accepts_iff_languageOver h w hw]

theorem accepts_determinised (h : a.Consistent) (w : Word) (hw : .epsilon ∉ w) :
    a.determinised.accepts w = a.accepts w :=
  accepts_eq_of_realises h a.realises_determinised a.language_subsetTable w hw

theorem accepts_minimised (h : a.Consistent) (w : Word) (hw : .epsilon ∉ w) :
    a.minimised.accepts w = a.accepts w :=
  accepts_eq_of_realises h a.realises_minimised a.language_merged w hw

/-- Both conversions give a result, and both results accept the words that the automaton accepts. -/
theorem conversions_preserve_language (a : Automaton) (h : a.defect? = none) :
    ∃ d m, a.determinise = .ok d ∧ a.minimise = .ok m ∧
      ∀ w : Word, .epsilon ∉ w → d.accepts w = a.accepts w ∧ m.accepts w = a.accepts w := by
  have hconsistent := a.defect?_eq_none_iff.1 h
  refine ⟨_, _, a.determinise_eq_ok, a.minimise_eq_ok, fun w hw => ⟨?_, ?_⟩⟩
  · exact accepts_determinised hconsistent w hw
  · exact accepts_minimised hconsistent w hw

def silentLoop : Automaton where
  states := .ofList ["in", "out", "end"]
  alphabet := .ofList [.epsilon, .ofKey "0", .ofKey "1"]
  delta := .ofList [
    ("out", .ofList [(.epsilon, .ofList ["in"]), (.ofKey "1", .ofList ["out", "end"])]),
    ("in", .ofList [(.epsilon, .ofList ["in", "out"])])]
  initial := "in"
  accepting := .ofList ["end"]

theorem conversions_preserve_language_silentLoop :
    silentLoop.defect? = none ∧ .epsilon ∉ [Symbol.ofKey "1", .ofKey "x"] ∧
      ∃ d m, silentLoop.determinise = .ok d ∧ silentLoop.minimise = .ok m ∧
        d.accepts [.ofKey "1", .ofKey "x"] = silentLoop.accepts [.ofKey "1", .ofKey "x"] ∧
        m.accepts [.ofKey "1", .ofKey "x"] = silentLoop.accepts [.ofKey "1", .ofKey "x"] := by
  obtain ⟨d, m, hd, hm, hlanguage⟩ := conversions_preserve_language silentLoop (by decide)
  exact ⟨by decide, by decide, d, m, hd, hm, hlanguage _ (by decide)⟩

theorem equiv_refl (a : Automaton) : a ≈ a := by
  have hdelta : a.delta ≈ a.delta :=
    OrderedMap.equiv_refl (fun row => OrderedMap.equiv_refl OrderedSet.equiv_refl row) a.delta
  exact ⟨OrderedSet.equiv_refl _, OrderedSet.equiv_refl _, hdelta, rfl, OrderedSet.equiv_refl _⟩

theorem hasTransition_congr (h : a ≈ b) (p : String) (x : Symbol) (r : String) :
    a.HasTransition p x r ↔ b.HasTransition p x r := by
  have hrow := (OrderedMap.agrees_iff _ _).1 (h.2.2.1 p)
  simp only [hasTransition_iff, destinations?, Option.bind_eq_some_iff]
  constructor
  · rintro ⟨s, ⟨row, hp, hx⟩, hr⟩
    obtain ⟨row', hp', hequiv⟩ := hrow.1 row hp
    obtain ⟨s', hx', hs⟩ := ((OrderedMap.agrees_iff _ _).1 (hequiv x)).1 s hx
    exact ⟨s', ⟨row', hp', hx'⟩, (hs r).1 hr⟩
  · rintro ⟨s', ⟨row', hp', hx'⟩, hr⟩
    obtain ⟨row, hp, hequiv⟩ := hrow.2 row' hp'
    obtain ⟨s, hx, hs⟩ := ((OrderedMap.agrees_iff _ _).1 (hequiv x)).2 s' hx'
    exact ⟨s, ⟨row, hp, hx⟩, (hs r).2 hr⟩

theorem accepts_congr (h : a ≈ b) (w : Word) : a.accepts w = b.accepts w := by
  have ⟨_, _, _, hinitial, haccepting⟩ := h
  have forward (p x r) : a.HasTransition p x r → b.HasTransition p x r :=
    (hasTransition_congr h p x r).1
  have backward (p x r) : b.HasTransition p x r → a.HasTransition p x r :=
    (hasTransition_congr h p x r).2
  rw [Bool.eq_iff_iff]
  constructor
  · exact accepts_mono hinitial (fun s => (haccepting s).1) forward w
  · exact accepts_mono hinitial.symm (fun s => (haccepting s).2) backward w

open Classical in
/-- The smallest automaton is written down from the letters and the words over them that are
accepted. -/
theorem minimise_eq (a : Automaton) (letters : List Symbol) (hletters : a.letters = letters)
    (L : List (Fin letters.length) → Bool) (hL : a.languageOver letters = L) :
    ∃ bounded : (derivatives L).Bounded,
      a.minimise = ((derivatives L).tabulate bounded).toAutomaton letters := by
  -- the letters are in the type of the table, so they are fixed before it is looked at
  subst hletters hL
  obtain ⟨bounded, hmerge⟩ := Table.merge_eq a.subsetTable.trimmed_trim _ a.language_trimmed
  have hwritten :=
    congrArg (fun t : Σ n, Table n a.letters.length => t.2.toAutomaton a.letters) hmerge
  exact ⟨bounded, hwritten⟩

theorem languageOver_congr (letters : List Symbol) (hepsilon : .epsilon ∉ letters)
    (hlanguage : ∀ w : Word, .epsilon ∉ w → a.accepts w = b.accepts w) :
    a.languageOver letters = b.languageOver letters := by
  funext v
  exact hlanguage _ (epsilon_not_mem_map letters hepsilon v)

theorem minimise_congr (hletters : a.letters = b.letters)
    (hlanguage : ∀ w : Word, .epsilon ∉ w → a.accepts w = b.accepts w) :
    a.minimise = b.minimise := by
  have hL := languageOver_congr b.letters b.epsilon_not_mem_letters hlanguage
  obtain ⟨_, ha⟩ := a.minimise_eq b.letters hletters _ hL
  obtain ⟨_, hb⟩ := b.minimise_eq b.letters rfl _ rfl
  exact ha.trans hb.symm

/-- The smallest automaton is a normal form: two automata over the same letters have the same one
exactly when they accept the same words. Where two smallest automata agree up to order they agree in
order too. -/
theorem minimise_canonical (a b : Automaton) (ha : a.defect? = none) (hb : b.defect? = none)
    (hletters : a.letters = b.letters) :
    ∃ m n, a.minimise = .ok m ∧ b.minimise = .ok n ∧
      (m ≈ n ↔ ∀ w : Word, .epsilon ∉ w → a.accepts w = b.accepts w) ∧ (m ≈ n → m = n) := by
  have hlanguage (h : a.minimised ≈ b.minimised) (w : Word) (hw : .epsilon ∉ w) :
      a.accepts w = b.accepts w :=
    calc
      a.accepts w = a.minimised.accepts w :=
        (accepts_minimised (a.defect?_eq_none_iff.1 ha) w hw).symm
      _ = b.minimised.accepts w := accepts_congr h w
      _ = b.accepts w := accepts_minimised (b.defect?_eq_none_iff.1 hb) w hw
  have hequal (h : ∀ w : Word, .epsilon ∉ w → a.accepts w = b.accepts w) :
      a.minimised = b.minimised := by
    have hminimise := minimise_congr hletters h
    rw [minimise_eq_ok, minimise_eq_ok] at hminimise
    exact Except.ok.inj hminimise
  refine ⟨_, _, a.minimise_eq_ok, b.minimise_eq_ok, ⟨hlanguage, ?_⟩, fun h => hequal (hlanguage h)⟩
  intro h
  rw [hequal h]
  exact equiv_refl b.minimised

def lastOne : Automaton where
  states := .ofList ["start", "zero", "end"]
  alphabet := .ofList [.ofKey "0", .ofKey "1"]
  delta := .ofList [
    ("start", .ofList [(.ofKey "0", .ofList ["zero"]), (.ofKey "1", .ofList ["end"])]),
    ("zero", .ofList [(.ofKey "1", .ofList ["end"])])]
  initial := "start"
  accepting := .ofList ["end"]

theorem minimise_canonical_silentLoop_lastOne :
    silentLoop.defect? = none ∧ lastOne.defect? = none ∧ silentLoop.letters = lastOne.letters ∧
      ∃ m n, silentLoop.minimise = .ok m ∧ lastOne.minimise = .ok n ∧
        (m ≈ n ↔ ∀ w : Word, .epsilon ∉ w → silentLoop.accepts w = lastOne.accepts w) ∧
        (m ≈ n → m = n) :=
  ⟨by decide, by decide, by decide,
    minimise_canonical silentLoop lastOne (by decide) (by decide) (by decide)⟩

end EpsilonAutomata.Automaton
