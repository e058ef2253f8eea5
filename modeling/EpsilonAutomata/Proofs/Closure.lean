import EpsilonAutomata.Proofs.Paths
import Mathlib

/-! The closure of a set of names, found with a stack. A name that is taken off the stack for the first
time counts as found, and those of its silent successors that are not found yet are put on it, so a name
may lie there several times. Every name taken was in the seed or is paid for by a silent transition that
leaves a name found now, which bounds the number of rounds. At the end exactly those names are found that
chains of silent transitions reach from the seed. -/

namespace EpsilonAutomata.Automaton

def SilentStep (a : Automaton) (p q : String) : Prop := ⟨p, .epsilon, q⟩ ∈ a.transitions

/-- What the loop works on: the names found so far and a stack of names to be taken, its top first. -/
structure Sweep where
  found : NameSet
  stack : List String

/-- At first nothing is found, and the stack holds the seed with the last name on top. -/
def Sweep.begin (seed : NameSet) : Sweep := ⟨∅, seed.names.reverse⟩

def sweep (a : Automaton) (s : Sweep) : Sweep :=
  match s.stack with
  | [] => s
  | x :: rest =>
    if x ∈ s.found then ⟨s.found, rest⟩
    else
      let found := s.found.insert x
      ⟨found, ((a.silentSuccessors x).filter (· ∉ found)).reverse ++ rest⟩

theorem sweep_known (a : Automaton) {found : NameSet} {x : String} (rest : List String)
    (hx : x ∈ found) : a.sweep ⟨found, x :: rest⟩ = ⟨found, rest⟩ := if_pos hx

theorem sweep_fresh (a : Automaton) {found : NameSet} {x : String} (rest : List String)
    (hx : x ∉ found) :
    a.sweep ⟨found, x :: rest⟩ =
      ⟨found.insert x,
        ((a.silentSuccessors x).filter (· ∉ found.insert x)).reverse ++ rest⟩ := if_neg hx

def unspent (a : Automaton) (found : NameSet) : Nat :=
  a.transitions.countP fun t => t.symbol = .epsilon ∧ t.source ∉ found

def remaining (a : Automaton) (s : Sweep) : Nat := s.stack.length + a.unspent s.found

structure Sweep.Tracks (a : Automaton) (seed : NameSet) (s : Sweep) : Prop where
  reached : ∀ x, x ∈ s.found ∨ x ∈ s.stack → ∃ p ∈ seed, Relation.ReflTransGen a.SilentStep p x
  seed_met : ∀ p ∈ seed, p ∈ s.found ∨ p ∈ s.stack
  closed : ∀ x ∈ s.found, ∀ y, a.SilentStep x y → y ∈ s.found ∨ y ∈ s.stack

variable {a : Automaton} {seed : NameSet}

theorem mem_silentSuccessors (p q : String) : q ∈ a.silentSuccessors p ↔ a.SilentStep p q :=
  (a.mem_transitions p .epsilon q).symm

theorem nodup_destinations (a : Automaton) (p : String) (x : Symbol) : (a.destinations p x).Nodup := by
  unfold destinations
  split
  · next s _ => exact s.nodup
  · exact List.nodup_nil

theorem length_silentSuccessors_le (a : Automaton) (p : String) :
    (a.silentSuccessors p).length ≤
      a.transitions.countP fun t => t.symbol = .epsilon ∧ t.source = p := by
  have hinj : Function.Injective fun q => (⟨p, .epsilon, q⟩ : Transition) := by
    intro q r h
    exact (Transition.mk.inj h).2.2
  have hnodup : ((a.silentSuccessors p).map fun q => (⟨p, .epsilon, q⟩ : Transition)).Nodup :=
    (a.nodup_destinations p .epsilon).map hinj
  have hsubset : ((a.silentSuccessors p).map fun q => (⟨p, .epsilon, q⟩ : Transition)) ⊆
      a.transitions.filter fun t => t.symbol = .epsilon ∧ t.source = p := by
    intro t ht
    obtain ⟨q, hq, rfl⟩ := List.mem_map.1 ht
    have hstep : ⟨p, .epsilon, q⟩ ∈ a.transitions := (mem_silentSuccessors p q).1 hq
    exact List.mem_filter.2 ⟨hstep, by simp⟩
  have hlength := (hnodup.subperm hsubset).length_le
  rwa [List.length_map, ← List.countP_eq_length_filter] at hlength

/-- Finding a name pays for the names that it puts on the stack. -/
theorem length_add_unspent_le (a : Automaton) {found : NameSet} {x : String} (hx : x ∉ found) :
    (a.silentSuccessors x).length + a.unspent (found.insert x) ≤ a.unspent found := by
  have hfrom := a.length_silentSuccessors_le x
  have hsplit := List.countP_eq_countP_filter_add a.transitions
    (fun t => t.symbol = .epsilon ∧ t.source ∉ found) (fun t => t.source = x)
  rw [List.countP_filter, List.countP_filter] at hsplit
  have hleaving : (a.transitions.countP fun t => t.symbol = .epsilon ∧ t.source = x) ≤
      a.transitions.countP fun t =>
        decide (t.symbol = .epsilon ∧ t.source ∉ found) && decide (t.source = x) := by
    apply List.countP_mono_left
    intro t _ ht
    simp_all
  have hother : a.unspent (found.insert x) ≤
      a.transitions.countP fun t =>
        decide (t.symbol = .epsilon ∧ t.source ∉ found) && !decide (t.source = x) := by
    apply List.countP_mono_left
    intro t _ ht
    simp_all
  unfold unspent at *
  omega

theorem remaining_sweep_lt (a : Automaton) (found : NameSet) (x : String) (rest : List String) :
    a.remaining (a.sweep ⟨found, x :: rest⟩) < a.remaining ⟨found, x :: rest⟩ := by
  have hbefore : a.remaining ⟨found, x :: rest⟩ = rest.length + 1 + a.unspent found := rfl
  by_cases hx : x ∈ found
  · have hafter : a.remaining (a.sweep ⟨found, x :: rest⟩) = rest.length + a.unspent found := by
      rw [sweep_known a rest hx, remaining]
    omega
  · have hpaid := a.length_add_unspent_le hx
    have hput := (a.silentSuccessors x).length_filter_le (· ∉ found.insert x)
    have hafter : a.remaining (a.sweep ⟨found, x :: rest⟩) =
        ((a.silentSuccessors x).filter (· ∉ found.insert x)).length + rest.length +
          a.unspent (found.insert x) := by
      rw [sweep_fresh a rest hx, remaining, List.length_append, List.length_reverse]
    omega

theorem exists_iterate_sweep (a : Automaton) (s : Sweep) :
    ∃ n ≤ a.remaining s, (a.sweep^[n] s).stack = [] := by
  induction hm : a.remaining s using Nat.strong_induction_on generalizing s with
  | _ m ih =>
    subst hm
    rcases s with ⟨found, _ | ⟨x, rest⟩⟩
    · exact ⟨0, Nat.zero_le _, rfl⟩
    · have hless := a.remaining_sweep_lt found x rest
      obtain ⟨n, hn, hend⟩ := ih _ hless _ rfl
      exact ⟨n + 1, by omega, hend⟩

theorem remaining_begin_le (a : Automaton) (seed : NameSet) :
    a.remaining (.begin seed) ≤ seed.names.length + a.transitionCount := by
  have hunspent : a.unspent ∅ ≤ a.transitionCount := List.countP_le_length
  have hbegin : a.remaining (.begin seed) = seed.names.length + a.unspent ∅ := by
    rw [remaining, Sweep.begin, List.length_reverse]
  omega

namespace Sweep

theorem tracks_begin (a : Automaton) (seed : NameSet) : (begin seed).Tracks a seed where
  reached x hx := by
    have hseed : x ∈ seed := by simpa [begin, NameSet.mem_names] using hx
    exact ⟨x, hseed, .refl⟩
  seed_met p hp := .inr (List.mem_reverse.2 hp)
  closed x hx := absurd hx (NameSet.not_mem_empty x)

theorem Tracks.sweep {s : Sweep} (h : s.Tracks a seed) : (a.sweep s).Tracks a seed := by
  rcases s with ⟨found, _ | ⟨x, rest⟩⟩
  · exact h
  by_cases hx : x ∈ found
  · rw [sweep_known a rest hx]
    -- the name that leaves the stack is found, so nothing is lost with it
    have hkept (y : String) (hy : y ∈ found ∨ y ∈ x :: rest) : y ∈ found ∨ y ∈ rest := by
      rcases hy with hy | hy
      · exact .inl hy
      · rcases List.mem_cons.1 hy with rfl | hy
        · exact .inl hx
        · exact .inr hy
    refine ⟨fun y hy => ?_, fun p hp => hkept p (h.seed_met p hp),
      fun y hy z hz => hkept z (h.closed y hy z hz)⟩
    exact h.reached y (hy.imp_right (List.mem_cons_of_mem x))
  · rw [sweep_fresh a rest hx]
    obtain ⟨p, hp, hpx⟩ := h.reached x (.inr List.mem_cons_self)
    have hkept (y : String) (hy : y ∈ found ∨ y ∈ x :: rest) (later : List String) :
        y ∈ found.insert x ∨ y ∈ later ++ rest := by
      rcases hy with hy | hy
      · exact .inl ((NameSet.mem_insert found x y).2 (.inr hy))
      · rcases List.mem_cons.1 hy with rfl | hy
        · exact .inl ((NameSet.mem_insert found y y).2 (.inl rfl))
        · exact .inr (List.mem_append_right later hy)
    refine ⟨fun y hy => ?_, fun q hq => hkept q (h.seed_met q hq) _, fun y hy z hz => ?_⟩
    · simp only [NameSet.mem_insert, List.mem_append, List.mem_reverse, List.mem_filter,
        mem_silentSuccessors] at hy
      rcases hy with (rfl | hy) | (⟨hy, _⟩ | hy)
      · exact ⟨p, hp, hpx⟩
      · exact h.reached y (.inl hy)
      · exact ⟨p, hp, hpx.tail hy⟩
      · exact h.reached y (.inr (List.mem_cons_of_mem x hy))
    · rcases (NameSet.mem_insert found x y).1 hy with rfl | hy
      · by_cases hknown : z ∈ found.insert y
        · exact .inl hknown
        · have hput : z ∈ (a.silentSuccessors y).filter (· ∉ found.insert y) :=
            List.mem_filter.2 ⟨(mem_silentSuccessors y z).2 hz, by simpa using hknown⟩
          exact .inr (List.mem_append_left rest (List.mem_reverse.2 hput))
      · exact hkept z (h.closed y hy z hz) _

theorem Tracks.iterate {s : Sweep} (h : s.Tracks a seed) (n : Nat) :
    (a.sweep^[n] s).Tracks a seed := by
  induction n with
  | zero => exact h
  | succ n ih =>
    rw [Function.iterate_succ_apply']
    exact ih.sweep

theorem Tracks.mem_found_iff {s : Sweep} (h : s.Tracks a seed) (hend : s.stack = []) (r : String) :
    r ∈ s.found ↔ ∃ p ∈ seed, Relation.ReflTransGen a.SilentStep p r := by
  have hfound (x : String) (hx : x ∈ s.found ∨ x ∈ s.stack) : x ∈ s.found := by
    rw [hend] at hx
    exact hx.resolve_right List.not_mem_nil
  constructor
  · exact fun hr => h.reached r (.inl hr)
  · rintro ⟨p, hp, hpr⟩
    induction hpr with
    | refl => exact hfound p (h.seed_met p hp)
    | tail _ hstep ih => exact hfound _ (h.closed _ ih _ hstep)

end Sweep

theorem reflTransGen_iff_path (p r : String) :
    Relation.ReflTransGen a.SilentStep p r ↔ a.Path p [] r := by
  constructor
  · intro h
    induction h with
    | refl => exact .stop p
    | tail _ hstep ih => exact ih.append (.silent hstep (.stop _))
  · intro h
    generalize hw : ([] : Word) = w at h
    induction h with
    | stop => exact .refl
    | silent hstep _ ih => exact .head hstep (ih hw)
    | read => cases hw

theorem mem_closure_iff_reflTransGen (seed : NameSet) (r : String) :
    r ∈ a.closure seed ↔ ∃ p ∈ seed, Relation.ReflTransGen a.SilentStep p r := by
  simp only [mem_closure_iff, reflTransGen_iff_path]

/-- The loop ends after at most one round for each name of the seed and each transition, and what it has
found then is the closure: all names that silent transitions reach from the seed and no others, in
whatever order an automaton lists them. -/
theorem closure_found_by_sweep (a : Automaton) (seed : NameSet) :
    (∃ n ≤ seed.names.length + a.transitionCount, a.sweep^[n] (.begin seed) = ⟨a.closure seed, []⟩) ∧
      (∀ r, r ∈ a.closure seed ↔ ∃ p ∈ seed, Relation.ReflTransGen a.SilentStep p r) ∧
      ∀ b : Automaton, (∀ p q, b.SilentStep p q ↔ a.SilentStep p q) → b.closure seed = a.closure seed := by
  have hreach := mem_closure_iff_reflTransGen (a := a) seed
  refine ⟨?_, hreach, ?_⟩
  · obtain ⟨n, hn, hend⟩ := a.exists_iterate_sweep (.begin seed)
    have htracks := (Sweep.tracks_begin a seed).iterate n
    have hfound : (a.sweep^[n] (.begin seed)).found = a.closure seed := by
      apply NameSet.ext
      intro r
      rw [htracks.mem_found_iff hend, hreach]
    refine ⟨n, hn.trans (a.remaining_begin_le seed), ?_⟩
    rw [← hfound, ← hend]
  · intro b hsame
    have hstep : b.SilentStep = a.SilentStep := by
      funext p q
      exact propext (hsame p q)
    apply NameSet.ext
    intro r
    rw [mem_closure_iff_reflTransGen, hstep, hreach]

end EpsilonAutomata.Automaton
