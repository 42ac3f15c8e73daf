import Fuel.IR.Lowering
import Fuel.IR.InPlace

/-!
# The dispatch order of a branchless graph

Without branches the three lowerings return one list: the runs of the
topological order, sorted by device. It has the nodes of the execution plan and
keeps inputs first, but nothing in it looks at the ordering edges, so a reader
may come after the op that destroys what it reads. It does not when every
pinned reader is an ancestor of the op it is pinned before.
-/

namespace Fuel.IR

open Fuel.DepGraph Relation

/-- The graph has no branch nodes. -/
def Graph.Branchless (g : Graph) : Prop := ∀ id, g.branchAt id = none

/-- Every ordering edge is already implied by data edges. -/
def PinsImplied (g : Graph) (order : List NodeId) : Prop :=
  ∀ d ∈ order, ∀ reader ∈ pins g order d, TransGen (Precedes g.inputs) reader d

section

variable {g : Graph} {roots order : List NodeId}

theorem Graph.branchless_of_lt (h : ∀ id < g.len, g.branchAt id = none) : g.Branchless := by
  intro id
  by_cases hid : id < g.len
  · exact h id hid
  · simp [branchAt, op?, List.getElem?_eq_none (Nat.le_of_not_lt hid)]

theorem routeOrder_branchless (h : g.Branchless) (roots : List NodeId) :
    routeOrder g roots = topoOrderMulti g roots := by
  have hseed : seedBranches g roots = none := by
    have hnone : ∀ reachable id, participates g reachable id = false := by
      intro reachable id
      simp [participates, h id]
    simp [seedBranches, hnone]
  have hiter : iter (seedBranches g) g.len roots = roots := by
    cases g.len with
    | zero => rfl
    | succ n => rw [iter, hseed]
  unfold routeOrder effectiveRoots
  rw [hiter]
  cases htopo : topoOrderMulti g roots with
  | none => simp [htopo]
  | some order => simp [htopo]

theorem branchArms_branchless (h : g.Branchless) (order : List NodeId) :
    branchArms g order = [] := by
  simp [branchArms, h _]

/-- **Without branches the three lowerings agree**, whatever route is asked for. -/
theorem lowerings_branchless (hbl : g.Branchless) (htopo : topoOrderMulti g roots = some order) :
    (∀ picked, lowerPickedRoute g roots picked = some (lowerRuns g (runsOf g order))) ∧
    (∀ pick, lowerPickedRouteStreaming g roots pick = some (lowerRuns g (runsOf g order))) := by
  have hroute : routeOrder g roots = some order := by rw [routeOrder_branchless hbl, htopo]
  have harms := branchArms_branchless hbl order
  constructor
  · intro picked
    simp [lowerPickedRoute, extractRunsMulti, hroute, nonChosenArmNodes, harms]
  intro pick
  -- no run opens an arm, so every run joins the one segment
  have hfold : ∀ (runs : List Run) (segment : List Run),
      runs.foldl (Stream.step g [] pick) ⟨[], [], segment, []⟩ =
        ⟨[], [], segment ++ runs, []⟩ := by
    intro runs
    induction runs with
    | nil => intro segment; simp
    | cons r runs ih =>
      intro segment
      have hstep : Stream.step g [] pick ⟨[], [], segment, []⟩ r =
          ⟨[], [], segment ++ [r], []⟩ := by
        simp [Stream.step]
      rw [List.foldl_cons, hstep, ih, List.append_assoc]
      rfl
  simp [lowerPickedRouteStreaming, extractRunsMulti, hroute, harms, Stream.init, hfold,
    Stream.flush]

theorem flatten_runsOf_branchless (hbl : g.Branchless) (order : List NodeId) :
    (membersOf (runsOf g order)).flatten = order := by
  rw [flatten_runsOf, List.filter_eq_self]
  intro id _
  simp [hbl id]

end

/-- **What the dispatch order honours.** On a branchless acyclic graph with an
execution plan, every lowering returns one list with the plan's nodes, inputs
first. It is a linear extension of data and ordering edges when every ordering
edge is implied. -/
theorem dispatch_order_honours_implied_pins (g : Graph) (roots plan : List NodeId)
    (hacyc : g.Acyclic) (hbl : g.Branchless) (hplan : executionPlan g roots = some plan) :
    ∃ order lowered, topoOrderMulti g roots = some order ∧
      lowerRunsArm0 g roots = some lowered ∧
      (∀ picked, lowerPickedRoute g roots picked = some lowered) ∧
      (∀ pick, lowerPickedRouteStreaming g roots pick = some lowered) ∧
      lowered.Perm plan ∧ Schedules g.inputs lowered ∧
      (PinsImplied g order → Schedules (precedence g order) lowered) := by
  obtain ⟨order, htopo, hp⟩ := executionPlan_spec (hacyc.acyclicFrom roots) hplan
  have hord := topoOrderMulti_spec htopo
  have hsched := topoOrderMulti_schedules (hacyc.acyclicFrom roots) htopo
  have hruns := runList_of_sublist hord hsched (List.Sublist.refl (runsOf g order))
  have hflat := flatten_runsOf_branchless hbl order
  obtain ⟨hpicked, hstream⟩ := lowerings_branchless hbl htopo
  have hperm : (lowerRuns g (runsOf g order)).Perm order := by
    have := lowerRuns_perm hruns
    rwa [hflat] at this
  have hnd : (lowerRuns g (runsOf g order)).Nodup := hperm.nodup_iff.mpr hord.nodup
  have hinputs : Schedules g.inputs (lowerRuns g (runsOf g order)) := by
    refine (lowerRuns_schedules hruns).mono fun b hb a ha => ?_
    rw [hflat]
    exact List.mem_filter.mpr
      ⟨ha, decide_eq_true (hord.input_mem (hperm.mem_iff.mp hb) ha)⟩
  refine ⟨order, _, htopo, hpicked _, hpicked, hstream, hperm.trans hp.perm.symm, hinputs, ?_⟩
  intro himp
  refine Schedules.of_before hnd fun b hb a ha => ?_
  rcases List.mem_append.mp ha with ha | ha
  · exact hinputs.before hb ha
  · exact hinputs.before_of_transGen hnd hb (himp b (hperm.mem_iff.mp hb) a ha)

/-- `write_slice (x, relu x)` with the `relu` on another device. -/
def writeBack : Graph where
  nodes := [plainNode .const [], plainNode .relu [0], plainNode (.writeSlice [(0, 1)] none) [0, 1]]
  targetBackends := fun id => if id = 1 then some .cuda else none

theorem write_back_dispatched_in_order : ∃ lowered,
    lowerRunsArm0 writeBack [2] = some lowered ∧
      Schedules (precedence writeBack [0, 1, 2]) lowered := by
  have hbl : writeBack.Branchless := Graph.branchless_of_lt (by decide +kernel)
  obtain ⟨order, lowered, htopo, harm0, -, -, -, -, hsuff⟩ :=
    dispatch_order_honours_implied_pins writeBack [2] [0, 1, 2]
      (Graph.acyclic_of_inputs_lt (by decide +kernel)) hbl (by decide +kernel)
  have horder : topoOrderMulti writeBack [2] = some [0, 1, 2] := by decide +kernel
  obtain rfl : order = [0, 1, 2] := Option.mem_unique htopo horder
  refine ⟨lowered, harm0, hsuff ?_⟩
  intro d hd reader hr
  have hpins : ∀ d ∈ [0, 1, 2], ∀ reader ∈ pins writeBack [0, 1, 2] d,
      reader ∈ writeBack.inputs d := by decide +kernel
  exact .single (hpins d hd reader hr)

/-- `relu_inplace x` and `relu x`, both roots. -/
def twoReaders : Graph where
  nodes := [plainNode .const [], plainNode .reluInplace [0], plainNode .relu [0]]

/-- The plan runs `relu x` before the in-place op; every lowering runs it after. -/
theorem dispatch_order_ignores_pin :
    twoReaders.Acyclic ∧ twoReaders.Branchless ∧
      executionPlan twoReaders [2, 1] = some [0, 2, 1] ∧
      2 ∈ pins twoReaders [0, 1, 2] 1 ∧
      lowerRunsArm0 twoReaders [2, 1] = some [0, 1, 2] ∧
      lowerPickedRoute twoReaders [2, 1] (fun _ => none) = some [0, 1, 2] ∧
      lowerPickedRouteStreaming twoReaders [2, 1] (fun _ => 0) = some [0, 1, 2] ∧
      ¬ Schedules (precedence twoReaders [0, 1, 2]) [0, 1, 2] := by
  have hpin : 2 ∈ precedence twoReaders [0, 1, 2] 1 := by decide +kernel
  refine ⟨Graph.acyclic_of_inputs_lt (by decide +kernel),
    Graph.branchless_of_lt (by decide +kernel), by decide +kernel, by decide +kernel,
    by decide +kernel, by decide +kernel, by decide +kernel, fun h => ?_⟩
  have hmem := h [0] 1 [2] rfl 2 hpin
  exact absurd hmem (by decide)

end Fuel.IR
