import EpsilonAutomata.Proofs.Discovery
import EpsilonAutomata.Proofs.Merging

/-! The conversions as they are carried out, on plain numbers that are used as places in lists. Nothing
is read outside a list, every loop comes to its last round, and what is written down passes the check. The
results are those of the conversions on tables. -/

namespace EpsilonAutomata

def Grid.toAutomaton (letters : List Symbol) (g : Grid) : Except Defect Automaton :=
  let entries (row : List (Option Nat)) := (row.zip letters).filterMap fun (target, x) =>
    target.map fun d => (x, OrderedSet.ofList [stateName d])
  Automaton.ofParts (.ofList ((List.range g.rows.length).map stateName)) (.ofList letters)
    (.ofList (g.rows.zipIdx.map fun (row, i) => (stateName i, .ofList (entries row)))) (stateName 0)
    (.ofList ((g.accepting.zipIdx.filter fun (accepting, _) => accepting).map fun (_, i) => stateName i))

namespace Automaton

def reachedSets (a : Automaton) (current : NameSet) : List (Option NameSet) :=
  a.letters.map fun x =>
    let reached := a.move current x
    if reached.isEmpty then none else some reached

noncomputable def subsetGrid (a : Automaton) : Option Grid := do
  let (mapping, rows) ← explore (fun current => some (a.reachedSets current)) a.start
  return ⟨rows, mapping.keys.map a.acceptsIn⟩

noncomputable def determiniseInPlace (a : Automaton) : Option (Except Defect Automaton) := do
  let table ← a.subsetGrid
  return table.toAutomaton a.letters

noncomputable def minimiseInPlace (a : Automaton) : Option (Except Defect Automaton) := do
  let table ← a.subsetGrid
  let trimmed ← table.trimmed
  let merging ← trimmed.merging
  let merged ← merging.grid trimmed.accepting
  return merged.toAutomaton a.letters

end Automaton

namespace Table
variable {n k : Nat}

theorem trimmed_grid (t : Table n k) : t.grid.trimmed = some t.trim.grid := by
  rw [Grid.trimmed]
  simp only [show t.grid.rows = t.rows from rfl, show t.grid.accepting = t.accepting.toList from rfl,
    liveStates_rows, trimRows_rows, Option.bind_eq_bind, Option.bind_some]
  rfl

theorem filterMap_zip (letters : List Symbol) (targets : List (Option (Fin n))) :
    ((targets.map (Option.map Fin.val)).zip letters).filterMap (fun (target, x) =>
      target.map fun d => (x, OrderedSet.ofList [stateName d])) =
      (letters.zipWith entry targets).filterMap id := by
  induction letters generalizing targets with
  | nil => simp
  | cons x letters ih =>
    cases targets with
    | nil => rfl
    | cons target targets =>
      cases target with
      | none => exact ih targets
      | some d => exact congrArg (_ :: ·) (ih targets)

theorem row_eq_map (t : Table n k) (i : Fin n) :
    t.row i = (t.next.get i).toList.map (Option.map Fin.val) := by
  rw [toList_eq_ofFn, List.map_ofFn]
  rfl

theorem toAutomaton_grid (letters : List Symbol) (t : Table n letters.length) (h : t.start.val = 0) :
    t.grid.toAutomaton letters = t.toAutomaton letters := by
  have hstates : (List.range t.grid.rows.length).map stateName =
      (List.finRange n).map fun i : Fin n => stateName i := by
    rw [show t.grid.rows.length = n from List.length_ofFn, ← List.map_coe_finRange_eq_range, List.map_map]
    rfl
  have hrows : (t.grid.rows.zipIdx.map fun (row, i) => (stateName i, OrderedMap.ofList
      ((row.zip letters).filterMap fun (target, x) =>
        target.map fun d => (x, OrderedSet.ofList [stateName d])))) =
      (List.finRange n).map fun i : Fin n => (stateName i, .ofList (t.rowEntries letters i)) := by
    rw [show t.grid.rows = List.ofFn t.row from rfl, zipIdx_ofFn, List.map_ofFn, List.ofFn_eq_map]
    apply List.map_congr_left
    intro i _
    simp only [Function.comp_apply, row_eq_map, filterMap_zip, rowEntries]
  have haccepting : ((t.grid.accepting.zipIdx.filter fun (accepting, _) => accepting).map
      fun (_, i) => stateName i) =
      ((List.finRange n).filter fun i => t.accepting.get i).map fun i : Fin n => stateName i := by
    rw [show t.grid.accepting = t.accepting.toList from rfl, toList_eq_ofFn, zipIdx_ofFn, List.ofFn_eq_map,
      List.filter_map, List.map_map]
    rfl
  have hname : stateName 0 = stateName t.start := congrArg stateName h.symm
  rw [Grid.toAutomaton, toAutomaton, hstates, hrows, haccepting, hname]

end Table

namespace Automaton

theorem reachedSets_eq (a : Automaton) (current : NameSet) :
    a.reachedSets current = a.subsetMachine.targets current := by
  rw [Machine.targets, reachedSets]
  conv => lhs; rw [← List.map_get_finRange a.letters, List.map_map]
  rfl

theorem subsetGrid_eq (a : Automaton) : a.subsetGrid = some a.subsetTable.grid := by
  obtain ⟨⟨mapping, rows⟩, hexplore, hcounts, hrows⟩ :=
    a.subsetMachine.exists_explore_eq a.bounded_subsetMachine
      (fun current => some (a.reachedSets current)) fun current _ => congrArg some (a.reachedSets_eq current)
  subst hrows
  rw [subsetGrid, show explore _ a.start = _ from hexplore]
  apply congrArg some
  rw [show mapping.keys = _ from hcounts.keys_eq]
  exact congrArg₂ Grid.mk (Machine.rows_tabulate _ _).symm rfl

theorem determiniseInPlace_eq (a : Automaton) : a.determiniseInPlace = some a.determinise := by
  have hstart : a.subsetTable.start.val = 0 := Machine.tabulate_start _ _
  rw [determiniseInPlace, subsetGrid_eq, determinise, ← Table.toAutomaton_grid _ _ hstart]
  rfl

theorem exists_minimiseInPlace_eq (a : Automaton) :
    ∃ merging, a.subsetTable.trim.grid.merging = some merging ∧ merging.Complete ∧
      a.minimiseInPlace = some a.minimise := by
  have hstart : a.subsetTable.trim.start.val = 0 := Machine.tabulate_start a.subsetMachine _
  have hmerged : a.subsetTable.trim.merge.start.val = 0 := Machine.tabulate_start _ _
  obtain ⟨merging, hmerging, hcomplete, hgrid⟩ := a.subsetTable.trim.exists_merging_eq hstart
  refine ⟨merging, hmerging, hcomplete, ?_⟩
  rw [minimiseInPlace, subsetGrid_eq]
  simp only [Table.trimmed_grid, hmerging, hgrid, Option.bind_eq_bind, Option.bind_some]
  exact congrArg some (Table.toAutomaton_grid _ _ hmerged)

/-- The conversions run through: no loop goes on for ever, no place is outside a list, no class is left
without a first state and no transition without its destination, and no defect is reported. -/
theorem conversions_run_through (a : Automaton) :
    ∃ d m table trimmed merging,
      a.determiniseInPlace = some (.ok d) ∧ a.minimiseInPlace = some (.ok m) ∧
      a.determinise = .ok d ∧ a.minimise = .ok m ∧
      a.subsetGrid = some table ∧ table.trimmed = some trimmed ∧
      trimmed.merging = some merging ∧ merging.Complete := by
  obtain ⟨merging, hmerging, hcomplete, hminimise⟩ := a.exists_minimiseInPlace_eq
  refine ⟨a.determinised, a.minimised, a.subsetTable.grid, a.subsetTable.trim.grid, merging, ?_, ?_,
    a.determinise_eq_ok, a.minimise_eq_ok, a.subsetGrid_eq, a.subsetTable.trimmed_grid, hmerging, hcomplete⟩
  · rw [determiniseInPlace_eq, determinise_eq_ok]
  · rw [hminimise, minimise_eq_ok]

end Automaton
end EpsilonAutomata
