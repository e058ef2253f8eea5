import EpsilonAutomata.Proofs.History

/-! The operations as they are carried out, one write after another on a state that keeps whatever was
written before a failure. They come to the same as the operations that return a new automaton or a new
editor: where one of them fails, nothing has been written yet. -/

namespace EpsilonAutomata

section Outcomes
variable {α σ : Type}

/-- The outcome on `s` of a computation that either fails with nothing written or is through. -/
def settled (s : σ) : Except Error σ → EStateM.Result Error σ Unit
  | .ok t => .ok () t
  | .error error => .error error s

theorem settled_eq_error_iff (s t : σ) (result : Except Error σ) (error : Error) :
    settled s result = .error error t ↔ result = .error error ∧ t = s := by
  cases result <;> simp [settled, eq_comm]

theorem settled_eq_ok_iff (s t : σ) (result : Except Error σ) :
    settled s result = .ok () t ↔ result = .ok t := by
  cases result <;> simp [settled]

theorem run_ofExcept (result : Except Error α) (s : σ) :
    (ofExcept result : EStateM Error σ α).run s = match result with
      | .ok value => .ok value s
      | .error error => .error error s := by
  cases result <;> rfl

end Outcomes

namespace Automaton

def writeState (state : String) (accepting : Bool) : EStateM Error Automaton Unit := do
  if state ∈ (← get).states then throw (.invariant (.stateInUse state))
  modify fun a => { a with delta := a.delta.insert state ∅ }
  if accepting then modify fun a => { a with accepting := a.accepting.insert state }
  modify fun a => { a with states := a.states.insert state }

def writeTransition (source destination : String) (x : Symbol) : EStateM Error Automaton Bool := do
  if destination ∉ (← get).states then throw (.unknownState destination)
  if source ∉ (← get).delta.keys then throw (.unknownState source)
  modify fun a => { a with alphabet := a.alphabet.insert x }
  let known := decide ((← get).HasTransition source x destination)
  modify fun a => { a with
    delta := a.delta.alter source fun row => (row.getD ∅).alter x fun old => (old.getD ∅).insert destination }
  return !known

inductive Addition where
  | state (name : String) (accepting : Bool)
  | transition (source destination : String) (x : Symbol)

def attempt (a : Automaton) : Addition → Except Error Automaton
  | .state name accepting => (a.addState name accepting).mapError .invariant
  | .transition source destination x =>
    ((a.addTransition source destination x).map Prod.fst).mapError fun unknown => .unknownState unknown.name

def carryOut : Addition → EStateM Error Automaton Unit
  | .state name accepting => writeState name accepting
  | .transition source destination x => do let _ ← writeTransition source destination x

theorem run_writeState (a : Automaton) (state : String) (accepting : Bool) :
    (writeState state accepting).run a = match a.addState state accepting with
      | .ok b => .ok () b
      | .error defect => .error (.invariant defect) a := by
  unfold addState
  by_cases h : state ∈ a.states
  · simp [writeState, h]
  · cases accepting <;> simp [writeState, h]

theorem run_writeTransition (a : Automaton) (source destination : String) (x : Symbol) :
    (writeTransition source destination x).run a = match a.addTransition source destination x with
      | .ok (b, new) => .ok new b
      | .error unknown => .error (.unknownState unknown.name) a := by
  unfold addTransition
  by_cases hdestination : destination ∈ a.states
  · by_cases hsource : source ∈ a.delta.keys
    · simp only [writeTransition, bind_pure_comp, ite_not, EStateM.run_bind, EStateM.run_get, hdestination,
        hsource, if_true, EStateM.run_modify, not_true_eq_false, insertTransition, decide_not]
      rfl
    · simp [writeTransition, hdestination, hsource]
  · simp [writeTransition, hdestination]

theorem run_carryOut (a : Automaton) (addition : Addition) :
    (carryOut addition).run a = settled a (a.attempt addition) := by
  cases addition with
  | state name accepting =>
    have hrun := a.run_writeState name accepting
    cases h : a.addState name accepting <;>
      simp only [carryOut, attempt, hrun, h, Except.mapError, settled]
  | transition source destination x =>
    have hrun := a.run_writeTransition source destination x
    cases h : a.addTransition source destination x with
    | error unknown =>
      simp only [carryOut, attempt, EStateM.run_bind, hrun, h, Except.map, Except.mapError, settled]
    | ok result =>
      simp only [carryOut, attempt, EStateM.run_bind, hrun, h, Except.map, Except.mapError, settled]
      rfl

end Automaton

namespace Editor

/-- Works on the automaton of the editor; what is left of it stays there. -/
def onAutomaton {α : Type} (work : EStateM Error Automaton α) : EStateM Error Editor α := fun e =>
  match work.run e.automaton with
  | .ok result a => .ok result { e with automaton := a }
  | .error error a => .error error { e with automaton := a }

def writeState (accepting : Bool) : EStateM Error Editor String := do
  let suffix ← ofExcept ((← get).automaton.nextSuffix.mapError .invariant)
  let id := (← get).graph.nextId
  let state := stateName (max suffix id)
  if ((← get).graph.nodeOf? state).isSome then throw (.invariant (.stateShown state))
  onAutomaton (Automaton.writeState state accepting)
  modify fun e => { e with graph := e.graph.addNode ⟨id, state, accepting⟩ }
  return state

def writeTransition (source target : Nat) (x : Symbol) : EStateM Error Editor Unit := do
  let p ← ofExcept ((← get).labelOf source)
  let r ← ofExcept ((← get).labelOf target)
  let _ ← onAutomaton (Automaton.writeTransition p r x)
  modify fun e => { e with graph := e.graph.addSymbol source target x }

def writeBetween (source destination : String) (x : Symbol) : EStateM Error Editor Unit := do
  let i ← ofExcept ((← get).idOf source)
  let j ← ofExcept ((← get).idOf destination)
  writeTransition i j x

def carryOut : Edit → EStateM Error Editor Unit
  | .addState accepting => do let _ ← writeState accepting
  | .addTransition source target x => writeTransition source target x
  | .addBetween source destination x => writeBetween source destination x
  | .importText text => do set (← ofExcept (Editor.read text))
  | .importSpec s => do set (← ofExcept (ofSpec s))

theorem run_onAutomaton {α : Type} (work : EStateM Error Automaton α) (e : Editor) :
    (onAutomaton work).run e = match work.run e.automaton with
      | .ok result a => .ok result { e with automaton := a }
      | .error error a => .error error { e with automaton := a } := rfl

theorem run_writeState (e : Editor) (accepting : Bool) :
    (writeState accepting).run e = match e.addState accepting with
      | .ok (state, f) => .ok state f
      | .error error => .error error e := by
  unfold addState
  cases hsuffix : e.automaton.nextSuffix with
  | error defect => simp [writeState, hsuffix, run_ofExcept, Except.mapError]
  | ok suffix =>
    by_cases hshown : (e.graph.nodeOf? (stateName (max suffix e.graph.nextId))).isSome = true
    · simp [writeState, hsuffix, run_ofExcept, Except.mapError, hshown]
    · have hautomaton := e.automaton.run_writeState (stateName (max suffix e.graph.nextId)) accepting
      cases hadd : e.automaton.addState (stateName (max suffix e.graph.nextId)) accepting with
      | error defect =>
        simp [writeState, hsuffix, run_ofExcept, Except.mapError, hshown, run_onAutomaton, hautomaton, hadd]
      | ok a =>
        simp only [writeState, Except.mapError, bind_pure_comp, LawfulMonadStateOf.get_bind_get_bind,
          EStateM.run_bind, EStateM.run_get, hsuffix, run_ofExcept, hshown, Bool.false_eq_true, if_false,
          run_onAutomaton, hautomaton, hadd]
        rfl

theorem run_writeTransition (e : Editor) (source target : Nat) (x : Symbol) :
    (writeTransition source target x).run e = settled e (e.addTransition source target x) := by
  unfold addTransition
  cases hp : e.labelOf source with
  | error error => simp [writeTransition, hp, run_ofExcept, settled]
  | ok p =>
    cases hr : e.labelOf target with
    | error error => simp [writeTransition, hp, hr, run_ofExcept, settled]
    | ok r =>
      have hautomaton := e.automaton.run_writeTransition p r x
      cases hadd : e.automaton.addTransition p r x <;>
        simp [writeTransition, hp, hr, run_ofExcept, run_onAutomaton, hautomaton, hadd, settled]

theorem run_writeBetween (e : Editor) (source destination : String) (x : Symbol) :
    (writeBetween source destination x).run e = settled e (e.addBetween source destination x) := by
  unfold addBetween
  cases hi : e.idOf source with
  | error error => simp [writeBetween, hi, run_ofExcept, settled]
  | ok i =>
    cases hj : e.idOf destination with
    | error error => simp [writeBetween, hi, hj, run_ofExcept, settled]
    | ok j => simp [writeBetween, hi, hj, run_ofExcept, run_writeTransition]

theorem run_carryOut (e : Editor) (edit : Edit) : (carryOut edit).run e = settled e (e.attempt edit) := by
  cases edit with
  | addState accepting =>
    have hrun := e.run_writeState accepting
    cases h : e.addState accepting with
    | error error => simp only [carryOut, attempt, EStateM.run_bind, hrun, h, Except.map, settled]
    | ok result =>
      simp only [carryOut, attempt, EStateM.run_bind, hrun, h, Except.map, settled]
      rfl
  | addTransition source target x => exact e.run_writeTransition source target x
  | addBetween source destination x => exact e.run_writeBetween source destination x
  | importText text => cases h : Editor.read text <;> simp [carryOut, attempt, run_ofExcept, h, settled]
  | importSpec s => cases h : ofSpec s <;> simp [carryOut, attempt, run_ofExcept, h, settled]

end Editor
end EpsilonAutomata
