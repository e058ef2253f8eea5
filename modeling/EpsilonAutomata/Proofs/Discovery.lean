import EpsilonAutomata.Proofs.Singletons

/-! The order in which a search meets states. Each place in the queue stands for a word, that of the
state it was put there from and one more letter. These words ascend, shorter ones first and those of one
length in the order of their letters, so the first place at which a state stands has the first of all
words that lead to it. Converted automata number their states in the order of these words. -/

namespace EpsilonAutomata

section shortlex
variable {α β : Type} {r : α → α → Prop} {q : β → β → Prop}

theorem lex_append {v w : List α} (h : List.Lex r v w) (hlength : v.length = w.length)
    (v' w' : List α) : List.Lex r (v ++ v') (w ++ w') := by
  induction h with
  | nil => cases hlength
  | rel hxy => exact .rel hxy
  | cons _ ih => exact .cons (ih (Nat.succ.inj hlength))

theorem lex_map {f : α → β} (hf : ∀ x y, r x y → q (f x) (f y)) {v w : List α}
    (h : List.Lex r v w) : List.Lex q (v.map f) (w.map f) := by
  induction h with
  | nil => exact .nil
  | rel hxy => exact .rel (hf _ _ hxy)
  | cons _ ih => exact .cons ih

theorem shortlex_concat {v w : List α} (h : List.Shortlex r v w) (x y : α) :
    List.Shortlex r (v ++ [x]) (w ++ [y]) := by
  rcases List.shortlex_def.1 h with hlength | ⟨hlength, hlex⟩
  · apply List.Shortlex.of_length_lt
    rw [List.length_append, List.length_append]
    exact Nat.add_lt_add_right hlength 1
  · apply List.Shortlex.of_lex
    · rw [List.length_append, List.length_append, hlength]
      rfl
    · exact lex_append hlex hlength [x] [y]

theorem shortlex_map {f : α → β} (hf : ∀ x y, r x y → q (f x) (f y)) {v w : List α}
    (h : List.Shortlex r v w) : List.Shortlex q (v.map f) (w.map f) := by
  rcases List.shortlex_def.1 h with hlength | ⟨hlength, hlex⟩
  · apply List.Shortlex.of_length_lt
    rwa [List.length_map, List.length_map]
  · apply List.Shortlex.of_lex
    · rw [List.length_map, List.length_map, hlength]
    · exact lex_map hf hlex

end shortlex

namespace Machine
variable {σ : Type} {k : Nat}

/-- Shorter words come first, words of one length in the order of their letters. -/
def Before (v w : List (Fin k)) : Prop := List.Shortlex (· < ·) v w

theorem Before.trans {u v w : List (Fin k)} (huv : Before u v) (hvw : Before v w) : Before u w := by
  rcases List.shortlex_def.1 huv with huv | ⟨hu, huv⟩
  · rcases List.shortlex_def.1 hvw with hvw | ⟨hv, _⟩
    · exact .of_length_lt (huv.trans hvw)
    · exact .of_length_lt (hv ▸ huv)
  · rcases List.shortlex_def.1 hvw with hvw | ⟨hv, hvw⟩
    · exact .of_length_lt (hu ▸ hvw)
    · have hlex : u < w := lt_trans (show u < v from huv) (show v < w from hvw)
      exact .of_lex (hu.trans hv) hlex

theorem Before.concat {v w : List (Fin k)} (h : Before v w) (i j : Fin k) :
    Before (v ++ [i]) (w ++ [j]) := shortlex_concat h i j

theorem before_trichotomy (v w : List (Fin k)) : Before v w ∨ v = w ∨ Before w v :=
  trichotomous_of (List.Shortlex (· < ·)) v w

theorem not_before_self (w : List (Fin k)) : ¬ Before w w := irrefl_of (List.Shortlex (· < ·)) w

theorem before_concat (w : List (Fin k)) (j : Fin k) : Before w (w ++ [j]) := by
  apply List.Shortlex.of_length_lt
  rw [List.length_append]
  exact Nat.lt_succ_self _

theorem before_of_letter (w : List (Fin k)) {i j : Fin k} (h : i < j) :
    Before (w ++ [i]) (w ++ [j]) :=
  ((List.shortlex_singleton_iff i j).2 h).append_left w

structure LeadsFirst (m : Machine σ k) (s : σ) (w : List (Fin k)) : Prop where
  run : m.run m.start w = some s
  first : ∀ v, m.run m.start v = some s → v = w ∨ Before w v

/-- Some entry has the state, with a word that does not come behind the given one. -/
def Covers (entries : List (List (Fin k) × σ)) (w : List (Fin k)) (s : σ) : Prop :=
  ∃ e ∈ entries, e.2 = s ∧ ¬ Before w e.1

/-- What a search keeps of the states found and those in the queue, each with its word. -/
structure Traced (m : Machine σ k) (found pending : List (List (Fin k) × σ)) : Prop where
  run : ∀ e ∈ found ++ pending, m.run m.start e.1 = some e.2
  ascending : (found ++ pending).Pairwise fun e e' => Before e.1 e'.1
  origin : ∀ e ∈ pending, e.1 = [] ∨ ∃ e' ∈ found, ∃ j, e.1 = e'.1 ++ [j]
  begun : Covers (found ++ pending) [] m.start
  followed : ∀ e ∈ found, ∀ j d, m.step e.2 j = some d → Covers (found ++ pending) (e.1 ++ [j]) d

def followers (m : Machine σ k) (e : List (Fin k) × σ) : List (List (Fin k) × σ) :=
  (List.finRange k).filterMap fun j => (m.step e.2 j).map fun d => (e.1 ++ [j], d)

theorem mem_followers (m : Machine σ k) (e e' : List (Fin k) × σ) :
    e' ∈ m.followers e ↔ ∃ j, m.step e.2 j = some e'.2 ∧ e'.1 = e.1 ++ [j] := by
  simp only [followers, List.mem_filterMap, List.mem_finRange, true_and, Option.map_eq_some_iff]
  constructor
  · rintro ⟨j, d, hd, rfl⟩
    exact ⟨j, hd, rfl⟩
  · rintro ⟨j, hd, hword⟩
    exact ⟨j, e'.2, hd, by rw [← hword]⟩

theorem map_snd_followers (m : Machine σ k) (e : List (Fin k) × σ) :
    (m.followers e).map Prod.snd = m.successors e.2 := by
  rw [followers, successors, List.map_filterMap]
  apply congrArg (List.filterMap · (List.finRange k))
  funext j
  rw [Option.map_map]
  cases m.step e.2 j <;> rfl

theorem pairwise_followers (m : Machine σ k) (e : List (Fin k) × σ) :
    (m.followers e).Pairwise fun e e' => Before e.1 e'.1 := by
  rw [followers, List.pairwise_filterMap]
  refine (List.pairwise_lt_finRange k).imp ?_
  intro i j hij b hb b' hb'
  obtain ⟨_, _, rfl⟩ := Option.map_eq_some_iff.1 hb
  obtain ⟨_, _, rfl⟩ := Option.map_eq_some_iff.1 hb'
  exact before_of_letter e.1 hij

section traced
variable {m : Machine σ k} {found rest : List (List (Fin k) × σ)} {e : List (Fin k) × σ}

theorem Covers.mono {entries entries' : List (List (Fin k) × σ)} {w : List (Fin k)} {s : σ}
    (h : Covers entries w s) (hsub : entries ⊆ entries') : Covers entries' w s := by
  obtain ⟨e, he, hs, hw⟩ := h
  exact ⟨e, hsub he, hs, hw⟩

theorem Covers.skip {w : List (Fin k)} {s : σ} (h : Covers (found ++ e :: rest) w s)
    (hasc : (found ++ e :: rest).Pairwise fun e e' => Before e.1 e'.1)
    (hknown : e.2 ∈ found.map Prod.snd) : Covers (found ++ rest) w s := by
  obtain ⟨e', he', rfl, hw⟩ := h
  rcases List.mem_append.1 he' with he' | he'
  · exact ⟨e', List.mem_append_left rest he', rfl, hw⟩
  rcases List.mem_cons.1 he' with rfl | he'
  · obtain ⟨f, hf, hsame⟩ := List.mem_map.1 hknown
    have hbefore : Before f.1 e'.1 := (List.pairwise_append.1 hasc).2.2 f hf e' List.mem_cons_self
    exact ⟨f, List.mem_append_left rest hf, hsame, fun hwf => hw (hwf.trans hbefore)⟩
  · exact ⟨e', List.mem_append_right found he', rfl, hw⟩

theorem Traced.skip (h : m.Traced found (e :: rest)) (hknown : e.2 ∈ found.map Prod.snd) :
    m.Traced found rest where
  run e' he' := h.run e' (((List.sublist_cons_self e rest).append_left found).subset he')
  ascending := h.ascending.sublist ((List.sublist_cons_self e rest).append_left found)
  origin e' he' := h.origin e' (List.mem_cons_of_mem e he')
  begun := h.begun.skip h.ascending hknown
  followed e' he' j d hd := (h.followed e' he' j d hd).skip h.ascending hknown

theorem Traced.before_followers (h : m.Traced found (e :: rest)) {old new : List (Fin k) × σ}
    (hold : old ∈ found ++ e :: rest) (hnew : new ∈ m.followers e) : Before old.1 new.1 := by
  obtain ⟨j, _, hword⟩ := (m.mem_followers e new).1 hnew
  have hasc := List.pairwise_append.1 h.ascending
  rw [hword]
  rcases List.mem_append.1 hold with hold | hold
  · exact (hasc.2.2 old hold e List.mem_cons_self).trans (before_concat e.1 j)
  rcases h.origin old hold with hnil | ⟨f, hf, i, hword'⟩
  · rw [hnil]
    exact .of_length_lt (by simp)
  · rw [hword']
    exact (hasc.2.2 f hf e List.mem_cons_self).concat i j

theorem Traced.take (h : m.Traced found (e :: rest)) :
    m.Traced (found ++ [e]) (rest ++ m.followers e) := by
  have hlist : found ++ [e] ++ (rest ++ m.followers e) = found ++ e :: rest ++ m.followers e := by simp
  have hsub : found ++ e :: rest ⊆ found ++ e :: rest ++ m.followers e := List.subset_append_left _ _
  refine ⟨?_, ?_, ?_, ?_, ?_⟩
  · rw [hlist]
    intro e' he'
    rcases List.mem_append.1 he' with he' | he'
    · exact h.run e' he'
    · obtain ⟨j, hd, hword⟩ := (m.mem_followers e e').1 he'
      have hrun := h.run e (List.mem_append_right found List.mem_cons_self)
      rw [hword, run_append, hrun, Option.bind_some, run_singleton, hd]
  · rw [hlist]
    exact List.pairwise_append.2
      ⟨h.ascending, m.pairwise_followers e, fun old hold new hnew => h.before_followers hold hnew⟩
  · intro e' he'
    rcases List.mem_append.1 he' with he' | he'
    · refine (h.origin e' (List.mem_cons_of_mem e he')).imp_right ?_
      rintro ⟨f, hf, j, hword⟩
      exact ⟨f, List.mem_append_left [e] hf, j, hword⟩
    · obtain ⟨j, _, hword⟩ := (m.mem_followers e e').1 he'
      exact .inr ⟨e, List.mem_append_right found List.mem_cons_self, j, hword⟩
  · rw [hlist]
    exact h.begun.mono hsub
  · rw [hlist]
    intro e' he' j d hd
    rcases List.mem_append.1 he' with he' | he'
    · exact (h.followed e' he' j d hd).mono hsub
    · obtain rfl := List.mem_singleton.1 he'
      have hnew := (m.mem_followers e' (e'.1 ++ [j], d)).2 ⟨j, hd, rfl⟩
      exact ⟨_, List.mem_append_right _ hnew, rfl, not_before_self _⟩

theorem traced_start (m : Machine σ k) : m.Traced [] [([], m.start)] where
  run e he := by
    obtain rfl := List.mem_singleton.1 he
    rfl
  ascending := List.pairwise_singleton _ _
  origin e he := by
    obtain rfl := List.mem_singleton.1 he
    exact .inl rfl
  begun := ⟨_, List.mem_singleton_self _, rfl, not_before_self []⟩
  followed e he := absurd he List.not_mem_nil

theorem Traced.covers {entries : List (List (Fin k) × σ)} (h : m.Traced entries [])
    (w : List (Fin k)) (s : σ) (hw : m.run m.start w = some s) : Covers entries w s := by
  have hbegun := h.begun
  have hfollowed := h.followed
  rw [List.append_nil] at hbegun hfollowed
  induction w using List.reverseRecOn generalizing s with
  | nil => exact Option.some.inj hw ▸ hbegun
  | append_singleton w j ih =>
    rw [run_append, Option.bind_eq_some_iff] at hw
    obtain ⟨d, hd, hstep⟩ := hw
    rw [run_singleton] at hstep
    obtain ⟨e, he, rfl, hword⟩ := ih d hd
    obtain ⟨e', he', hs, hlater⟩ := hfollowed e he j s hstep
    refine ⟨e', he', hs, fun hbefore => ?_⟩
    -- the word is that of the entry before the last letter, or comes behind it
    rcases before_trichotomy w e.1 with hfront | rfl | hbehind
    · exact hword hfront
    · exact hlater hbefore
    · exact hlater ((hbehind.concat j j).trans hbefore)

theorem Traced.exists_first_words {entries : List (List (Fin k) × σ)} (h : m.Traced entries [])
    (hnodup : (entries.map Prod.snd).Nodup) :
    ∃ word : Fin (entries.map Prod.snd).length → List (Fin k),
      (∀ i, m.LeadsFirst ((entries.map Prod.snd).get i) (word i)) ∧
        ∀ i j, i < j → Before (word i) (word j) := by
  have hlength : (entries.map Prod.snd).length = entries.length := List.length_map _
  have hrun := h.run
  have hasc := h.ascending
  rw [List.append_nil] at hrun hasc
  refine ⟨fun i => (entries.get (i.cast hlength)).1, fun i => ?_, fun i j hij => ?_⟩
  · have hstate : (entries.map Prod.snd).get i = (entries.get (i.cast hlength)).2 := by simp
    rw [hstate]
    refine ⟨hrun _ (List.get_mem entries _), fun v hv => ?_⟩
    obtain ⟨e, he, hsame, hfirst⟩ := h.covers v _ hv
    have hentry : e = entries.get (i.cast hlength) :=
      List.inj_on_of_nodup_map hnodup he (List.get_mem entries _) hsame
    rw [hentry] at hfirst
    rcases before_trichotomy v (entries.get (i.cast hlength)).1 with hbefore | heq | hbefore
    · exact absurd hbefore hfirst
    · exact .inl heq
    · exact .inr hbefore
  · exact List.pairwise_iff_get.1 hasc (i.cast hlength) (j.cast hlength) hij

end traced

variable [DecidableEq σ]

theorem exists_traced_visit (m : Machine σ k) (bounded : m.Bounded) (found pending : List σ)
    (reachable : ∀ s ∈ pending, Search.Reachable m.successors [m.start] s)
    (found' pending' : List (List (Fin k) × σ)) (hfound : found'.map Prod.snd = found)
    (hpending : pending'.map Prod.snd = pending) (h : m.Traced found' pending') :
    ∃ entries, m.Traced entries [] ∧
      entries.map Prod.snd = Search.visit m.successors [m.start] bounded found pending reachable := by
  fun_induction Search.visit m.successors [m.start] bounded found pending reachable
    generalizing found' pending' with
  | case1 found =>
    rw [List.map_eq_nil_iff] at hpending
    subst hpending
    exact ⟨found', h, hfound⟩
  | case2 found s rest _ hs _ ih =>
    obtain ⟨e, rest', rfl, rfl, rfl⟩ := List.map_eq_cons_iff.1 hpending
    subst hfound
    exact ih found' rest' rfl rfl (h.skip hs)
  | case3 found s rest _ _ _ ih =>
    obtain ⟨e, rest', rfl, rfl, rfl⟩ := List.map_eq_cons_iff.1 hpending
    subst hfound
    refine ih (found' ++ [e]) (rest' ++ m.followers e) ?_ ?_ h.take
    · rw [List.map_append, List.map_singleton]
    · rw [List.map_append, map_snd_followers]

/-- A search lists states in the order of the first words that lead to them. -/
theorem exists_first_words (m : Machine σ k) (bounded : m.Bounded) :
    ∃ word : Fin (m.states bounded).length → List (Fin k),
      (∀ i, m.LeadsFirst ((m.states bounded).get i) (word i)) ∧
        ∀ i j, i < j → Before (word i) (word j) := by
  obtain ⟨entries, htraced, hstates⟩ := m.exists_traced_visit bounded [] [m.start]
    (fun _ h => .start h) [] [([], m.start)] rfl rfl m.traced_start
  have hstates' : entries.map Prod.snd = m.states bounded := hstates
  have hwords := htraced.exists_first_words (hstates' ▸ m.nodup_states bounded)
  rwa [hstates'] at hwords

theorem tabulate_start (m : Machine σ k) (bounded : m.Bounded) : (m.tabulate bounded).start.val = 0 := by
  obtain ⟨word, hfirst, hasc⟩ := m.exists_first_words bounded
  have hstart : (m.states bounded).get (m.tabulate bounded).start = m.start :=
    (m.tabulate_morphism bounded).start
  have hempty : word (m.tabulate bounded).start = [] := by
    rcases (hfirst (m.tabulate bounded).start).first [] (congrArg some hstart.symm) with hword | hword
    · exact hword.symm
    · exact absurd hword List.not_shortlex_nil_right
  -- no word comes before the empty one, so no state has a smaller number
  by_contra hne
  let zero : Fin (m.states bounded).length :=
    ⟨0, List.length_pos_of_mem (m.start_mem_states bounded)⟩
  have hbefore := hasc zero (m.tabulate bounded).start (Nat.pos_of_ne_zero hne)
  rw [hempty] at hbefore
  exact List.not_shortlex_nil_right hbefore

end Machine

namespace Automaton

def WordBefore (d : Automaton) (v w : Word) : Prop :=
  List.Shortlex (fun x y => d.alphabet.toList.idxOf x < d.alphabet.toList.idxOf y) v w

structure FirstWord (d : Automaton) (r : String) (w : Word) : Prop where
  path : d.Path d.initial w r
  first : ∀ v, d.Path d.initial v r → v = w ∨ d.WordBefore w v

/-- The states are `q0`, `q1` and so on, in the order of the first words that lead to them. -/
structure NumberedByDiscovery (d : Automaton) : Prop where
  states : d.states.toList = (List.range d.states.size).map stateName
  size_pos : 0 < d.states.size
  initial : d.initial = stateName 0
  exists_firstWord : ∀ i < d.states.size, ∃ w, d.FirstWord (stateName i) w
  ascending : ∀ i j v w, i < j → j < d.states.size → d.FirstWord (stateName i) v →
    d.FirstWord (stateName j) w → d.WordBefore v w

theorem FirstWord.unique {d : Automaton} {r : String} {v w : Word} (hv : d.FirstWord r v)
    (hw : d.FirstWord r w) : v = w := by
  rcases hw.first v hv.path with heq | hwv
  · exact heq
  rcases hv.first w hw.path with heq | hvw
  · exact heq.symm
  · exact absurd hvw (asymm_of (List.Shortlex _) hwv)

end Automaton

namespace Realises
variable {m : Automaton} {n : Nat} {letters : List Symbol} {t : Table n letters.length}

theorem path_initial_iff (h : Realises m letters t) (hepsilon : .epsilon ∉ letters) (w : Word)
    (i : Fin n) :
    m.Path m.initial w (stateName i) ↔
      ∃ v, w = v.map letters.get ∧ t.machine.run t.start v = some i := by
  rw [h.initial]
  constructor
  · intro hpath
    obtain ⟨v, d, hv, hd, hrun⟩ := h.exists_run_of_path hepsilon hpath t.start rfl
    obtain rfl : i = d := Fin.ext (stateName_injective hd)
    exact ⟨v, hv, hrun⟩
  · rintro ⟨v, rfl, hrun⟩
    exact h.path_of_run t.start i v hrun

theorem wordBefore_map (h : Realises m letters t) (hletters : letters.Nodup)
    {v w : List (Fin letters.length)} (hvw : Machine.Before v w) :
    m.WordBefore (v.map letters.get) (w.map letters.get) := by
  apply shortlex_map _ hvw
  intro i j hij
  rw [h.alphabet, List.get_idxOf hletters, List.get_idxOf hletters]
  exact hij

theorem firstWord_of_leadsFirst {σ : Type} [DecidableEq σ] {M : Machine σ letters.length}
    {bounded : M.Bounded} (h : Realises m letters (M.tabulate bounded)) (hletters : letters.Nodup)
    (hepsilon : .epsilon ∉ letters) {i : Fin (M.states bounded).length}
    {w : List (Fin letters.length)} (hw : M.LeadsFirst ((M.states bounded).get i) w) :
    m.FirstWord (stateName i) (w.map letters.get) where
  path := by
    have hrun := (M.run_tabulate_eq_some_iff bounded w i).2 hw.run
    exact (h.path_initial_iff hepsilon _ i).2 ⟨w, rfl, hrun⟩
  first v hv := by
    obtain ⟨v, rfl, hrun⟩ := (h.path_initial_iff hepsilon v i).1 hv
    refine (hw.first v ((M.run_tabulate_eq_some_iff bounded v i).1 hrun)).imp ?_ ?_
    · rintro rfl
      rfl
    · exact h.wordBefore_map hletters

theorem numberedByDiscovery {σ : Type} [DecidableEq σ] {M : Machine σ letters.length}
    {bounded : M.Bounded} (h : Realises m letters (M.tabulate bounded)) (hletters : letters.Nodup)
    (hepsilon : .epsilon ∉ letters) : m.NumberedByDiscovery := by
  obtain ⟨word, hfirst, hasc⟩ := M.exists_first_words bounded
  have hword (i : Fin (M.states bounded).length) := h.firstWord_of_leadsFirst hletters hepsilon (hfirst i)
  have hsize := h.size_states
  refine ⟨?_, ?_, ?_, ?_, ?_⟩
  · rw [hsize, h.states, ← List.map_coe_finRange_eq_range, List.map_map]
    rfl
  · rw [hsize]
    exact List.length_pos_of_mem (M.start_mem_states bounded)
  · rw [h.initial, M.tabulate_start bounded]
  · intro i hi
    rw [hsize] at hi
    exact ⟨_, hword ⟨i, hi⟩⟩
  · intro i j v w hij hj hv hw
    rw [hsize] at hj
    -- the first words of a state are one and the same
    obtain rfl := hv.unique (hword ⟨i, hij.trans hj⟩)
    obtain rfl := hw.unique (hword ⟨j, hj⟩)
    exact h.wordBefore_map hletters (hasc ⟨i, hij.trans hj⟩ ⟨j, hj⟩ hij)

end Realises

/-- Both conversions number their states in the order in which a breadth-first search meets them. -/
theorem Automaton.converted_numberedByDiscovery (a : Automaton) :
    ∃ d m, a.determinise = .ok d ∧ a.minimise = .ok m ∧
      (d.alphabet.toList = a.letters ∧ d.NumberedByDiscovery) ∧
      (m.alphabet.toList = a.letters ∧ m.NumberedByDiscovery) := by
  have hd := a.realises_determinised
  have hm := a.realises_minimised
  refine ⟨_, _, a.determinise_eq_ok, a.minimise_eq_ok, ⟨hd.alphabet, ?_⟩, hm.alphabet, ?_⟩
  · exact Realises.numberedByDiscovery (M := a.subsetMachine) hd a.nodup_letters
      a.epsilon_not_mem_letters
  · exact Realises.numberedByDiscovery (M := a.subsetTable.trim.quotient) hm a.nodup_letters
      a.epsilon_not_mem_letters

end EpsilonAutomata
