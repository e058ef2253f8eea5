import EpsilonAutomata.Proofs.Conversion

/-! No deterministic automaton is smaller than the smallest one. Each of its states is a derivative
of the language and is reached by some word; the same word leads a deterministic automaton to a
state, and states reached for different derivatives differ because what may follow differs. -/

namespace EpsilonAutomata

theorem exists_word_of_mem_states {k : Nat} [DecidableEq (List (Fin k) → Bool)]
    {L P : List (Fin k) → Bool} (bounded : (derivatives L).Bounded)
    (hP : P ∈ (derivatives L).states bounded) :
    ∃ u, (∀ v, P v = L (u ++ v)) ∧ (u = [] ∨ ∃ v, L (u ++ v) = true) := by
  have hreach := (Machine.mem_states_iff _ bounded P).1 hP
  obtain ⟨u, hu⟩ := Machine.exists_run_of_reachable hreach
  obtain ⟨hrest, hlive⟩ := eq_of_run_derivatives L L P u hu
  refine ⟨u, hrest, hlive.imp_right ?_⟩
  rintro ⟨v, hv⟩
  exact ⟨v, hrest v ▸ hv⟩

namespace Automaton

/-- No epsilon transition, and at most one destination for each state and symbol. -/
structure Deterministic (d : Automaton) : Prop where
  not_silent : ∀ p r, ¬ d.HasTransition p .epsilon r
  unique : ∀ p x r r', d.HasTransition p x r → d.HasTransition p x r' → r = r'

end Automaton

theorem Realises.deterministic {m : Automaton} {n : Nat} {letters : List Symbol}
    {t : Table n letters.length} (h : Realises m letters t) (hletters : letters.Nodup)
    (hepsilon : .epsilon ∉ letters) : m.Deterministic where
  not_silent p r ht := by
    obtain ⟨_, _, j, _, hj, _⟩ := (h.transition _ _ _).1 ht
    exact hepsilon (hj ▸ List.get_mem letters j)
  unique p x r r' hr hr' := by
    obtain ⟨i, d, j, rfl, rfl, rfl, hd⟩ := (h.transition _ _ _).1 hr
    obtain ⟨i', d', j', hi, hj, rfl, hd'⟩ := (h.transition _ _ _).1 hr'
    obtain rfl : i = i' := Fin.ext (stateName_injective hi)
    obtain rfl : j = j' := List.nodup_iff_injective_get.1 hletters hj
    rw [hd, Option.some.injEq] at hd'
    rw [hd']

namespace Automaton

theorem Path.mem_states {d : Automaton} (h : d.Consistent) {p r : String} {w : Word}
    (hw : d.Path p w r) (hp : p ∈ d.states) : r ∈ d.states := by
  induction hw with
  | stop => exact hp
  | silent ht _ ih => exact ih (h.destination_mem _ _ _ ((d.mem_transitions _ _ _).1 ht))
  | read ht _ ih => exact ih (h.destination_mem _ _ _ ((d.mem_transitions _ _ _).1 ht))

theorem Deterministic.path_append {d : Automaton} (h : d.Deterministic) {p q r : String}
    {u v : Word} (hu : d.Path p u q) (hw : d.Path p (u ++ v) r) : d.Path q v r := by
  induction hu with
  | stop => exact hw
  | silent ht => exact absurd ((d.mem_transitions _ _ _).1 ht) (h.not_silent _ _)
  | read ht _ ih =>
    cases hw with
    | silent ht' => exact absurd ((d.mem_transitions _ _ _).1 ht') (h.not_silent _ _)
    | read ht' hw =>
      -- both paths take the one transition there is
      have first := (d.mem_transitions _ _ _).1 ht
      have first' := (d.mem_transitions _ _ _).1 ht'
      obtain rfl := h.unique _ _ _ _ first first'
      exact ih hw

theorem exists_path_of_append {d : Automaton} {p r : String} {u v : Word}
    (hw : d.Path p (u ++ v) r) :
    ∃ q, d.Path p u q ∧ d.Path q v r := by
  induction u generalizing p with
  | nil => exact ⟨p, .stop p, hw⟩
  | cons x u ih =>
    obtain ⟨s, q, hs, ht, hr⟩ := (path_cons_iff p r x (u ++ v)).1 hw
    obtain ⟨q', hu, hv⟩ := ih hr
    exact ⟨q', (path_cons_iff p q' x u).2 ⟨s, q, hs, ht, hu⟩, hv⟩

theorem Deterministic.accepts_append_iff {d : Automaton} (h : d.Deterministic) {u : Word}
    {q : String} (hu : d.Path d.initial u q) (v : Word) :
    d.accepts (u ++ v) = true ↔ ∃ r, r ∈ d.accepting ∧ d.Path q v r := by
  rw [accepts_eq_acceptsIn, acceptsIn_iff]
  simp only [mem_after_start_iff]
  constructor
  · rintro ⟨r, hr, hacc⟩
    exact ⟨r, hacc, h.path_append hu hr⟩
  · rintro ⟨r, hacc, hr⟩
    exact ⟨r, hu.append hr, hacc⟩

theorem exists_path_of_live {d : Automaton} (h : d.Consistent) (u : Word)
    (hu : u = [] ∨ ∃ v, d.accepts (u ++ v) = true) : ∃ q ∈ d.states, d.Path d.initial u q := by
  rcases hu with rfl | ⟨v, hv⟩
  · exact ⟨d.initial, h.initial_mem, .stop _⟩
  · rw [accepts_eq_acceptsIn, acceptsIn_iff] at hv
    obtain ⟨r, hr, _⟩ := hv
    obtain ⟨q, hq, _⟩ := exists_path_of_append ((mem_after_start_iff _ r).1 hr)
    exact ⟨q, hq.mem_states h h.initial_mem, hq⟩

def LeadsTo (d : Automaton) (letters : List Symbol) (P : List (Fin letters.length) → Bool)
    (q : String) : Prop :=
  ∃ u, (∀ v, P v = d.languageOver letters (u ++ v)) ∧ d.Path d.initial (u.map letters.get) q

theorem exists_leadsTo {letters : List Symbol} [DecidableEq (List (Fin letters.length) → Bool)]
    {d : Automaton} (h : d.Consistent) (bounded : (derivatives (d.languageOver letters)).Bounded)
    {P : List (Fin letters.length) → Bool}
    (hP : P ∈ (derivatives (d.languageOver letters)).states bounded) :
    ∃ q ∈ d.states, d.LeadsTo letters P q := by
  obtain ⟨u, hrest, hlive⟩ := exists_word_of_mem_states bounded hP
  have hprefix : u.map letters.get = [] ∨ ∃ v, d.accepts (u.map letters.get ++ v) = true := by
    rcases hlive with rfl | ⟨v, hv⟩
    · exact .inl rfl
    · rw [languageOver, List.map_append] at hv
      exact .inr ⟨_, hv⟩
  obtain ⟨q, hq, hpath⟩ := exists_path_of_live h _ hprefix
  exact ⟨q, hq, u, hrest, hpath⟩

theorem Deterministic.eq_of_leadsTo {d : Automaton} (h : d.Deterministic) {letters : List Symbol}
    {P Q : List (Fin letters.length) → Bool} {q : String} (hP : d.LeadsTo letters P q)
    (hQ : d.LeadsTo letters Q q) : P = Q := by
  obtain ⟨u, hu, hpath⟩ := hP
  obtain ⟨u', hu', hpath'⟩ := hQ
  funext v
  rw [hu, hu', Bool.eq_iff_iff, languageOver, languageOver, List.map_append, List.map_append,
    h.accepts_append_iff hpath, h.accepts_append_iff hpath']

/-- A deterministic automaton has a state for each derivative of its language. -/
theorem length_states_derivatives_le {letters : List Symbol}
    [DecidableEq (List (Fin letters.length) → Bool)] {d : Automaton} (h : d.Consistent)
    (hdeterministic : d.Deterministic) (bounded : (derivatives (d.languageOver letters)).Bounded) :
    ((derivatives (d.languageOver letters)).states bounded).length ≤ d.states.size := by
  let residuals := (derivatives (d.languageOver letters)).states bounded
  have hexists (P) (hP : P ∈ residuals.toFinset) :
      ∃ q, q ∈ d.states.toList.toFinset ∧ d.LeadsTo letters P q := by
    obtain ⟨q, hq, hleads⟩ := exists_leadsTo h bounded (List.mem_toFinset.1 hP)
    exact ⟨q, List.mem_toFinset.2 hq, hleads⟩
  have hcard := Finset.card_le_card_of_forall_subsingleton (d.LeadsTo letters) hexists
    fun q _ P hP Q hQ => hdeterministic.eq_of_leadsTo hP.2 hQ.2
  rwa [List.toFinset_card_of_nodup (Machine.nodup_states _ bounded),
    List.toFinset_card_of_nodup d.states.nodup] at hcard

open Classical in
theorem size_minimised (a : Automaton) (L : List (Fin a.letters.length) → Bool)
    (hL : a.languageOver a.letters = L) :
    ∃ bounded : (derivatives L).Bounded,
      a.minimised.states.size = ((derivatives L).states bounded).length := by
  subst hL
  obtain ⟨bounded, hmerge⟩ := Table.merge_eq a.subsetTable.trimmed_trim _ a.language_trimmed
  refine ⟨bounded, ?_⟩
  rw [a.realises_minimised.size_states]
  exact congrArg Sigma.fst hmerge

/-- The smallest automaton is deterministic and accepts what it was made from accepts, and no
deterministic automaton that accepts the same words has fewer states. -/
theorem size_minimise_le (a d : Automaton) (hd : d.defect? = none) (hdeterministic : d.Deterministic)
    (hlanguage : ∀ w : Word, .epsilon ∉ w → d.accepts w = a.accepts w) :
    ∃ m, a.minimise = .ok m ∧ m.Deterministic ∧
      (a.defect? = none → ∀ w : Word, .epsilon ∉ w → m.accepts w = a.accepts w) ∧
      m.states.size ≤ d.states.size := by
  classical
  have hsmallest : a.minimised.Deterministic :=
    a.realises_minimised.deterministic a.nodup_letters a.epsilon_not_mem_letters
  refine ⟨_, a.minimise_eq_ok, hsmallest, fun ha => accepts_minimised (a.defect?_eq_none_iff.1 ha), ?_⟩
  have hL : a.languageOver a.letters = d.languageOver a.letters :=
    languageOver_congr a.letters a.epsilon_not_mem_letters fun w hw => (hlanguage w hw).symm
  obtain ⟨bounded, hsize⟩ := a.size_minimised _ hL
  rw [hsize]
  exact length_states_derivatives_le (d.defect?_eq_none_iff.1 hd) hdeterministic bounded

theorem size_minimise_le_subsets_silentLoop :
    silentLoop.determinised.defect? = none ∧ silentLoop.determinised.Deterministic ∧
      (∀ w : Word, .epsilon ∉ w → silentLoop.determinised.accepts w = silentLoop.accepts w) ∧
      ∃ m, silentLoop.minimise = .ok m ∧ m.Deterministic ∧
        (∀ w : Word, .epsilon ∉ w → m.accepts w = silentLoop.accepts w) ∧
        m.states.size ≤ silentLoop.determinised.states.size := by
  have hsource : silentLoop.defect? = none := by decide
  have hdefect : silentLoop.determinised.defect? = none :=
    silentLoop.determinised.defect?_eq_none_iff.2 silentLoop.wellFormed_determinised.toConsistent
  have hdeterministic := silentLoop.realises_determinised.deterministic silentLoop.nodup_letters
    silentLoop.epsilon_not_mem_letters
  have hlanguage := accepts_determinised (silentLoop.defect?_eq_none_iff.1 hsource)
  obtain ⟨m, hm, hsmallest, haccepts, hsize⟩ :=
    size_minimise_le silentLoop _ hdefect hdeterministic hlanguage
  exact ⟨hdefect, hdeterministic, hlanguage, m, hm, hsmallest, haccepts hsource, hsize⟩

end Automaton
end EpsilonAutomata
