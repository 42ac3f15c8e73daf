import Fuel.IR.Route

/-!
# The order of runs is a schedule

What `deviceAlternatingOrder` promises its callers, whichever runs of a walk
they hand it: every run once, inputs first, and on one device no change.
-/

namespace Fuel.IR

open Fuel.DepGraph Relation

/-! ## The whole list and its parts -/

/-- The runs cut the nodes that `seeds` need, branches apart, into straight
lines: past a run's first node every node reads the one before it and nothing
else, and all are on the run's device. -/
structure RunPartition (g : Graph) (seeds : List NodeId) (runs : List Run) : Prop where
  nodup : (membersOf runs).flatten.Nodup
  mem : ∀ id, id ∈ (membersOf runs).flatten ↔
    Needed g.inputs seeds id ∧ g.branchAt id = none
  straight : ∀ r ∈ runs, r.members.IsChain fun a b => g.inputs b = [a]
  device : ∀ r ∈ runs, ∀ m ∈ r.members, g.targetBackends m = r.device

theorem runsOf_partition {g : Graph} {seeds order : List NodeId}
    (htopo : IsTopoOrder g seeds order) : RunPartition g seeds (runsOf g order) where
  nodup := by
    rw [flatten_runsOf]
    exact htopo.nodup.filter _
  mem id := by
    rw [flatten_runsOf, List.mem_filter, htopo.mem, Option.isNone_iff_eq_none]
  straight r hr := by
    have hmem : ∀ m ∈ r.members, m ∈ order := fun m hm =>
      (flatten_sublist_order (.refl _)).subset
        (List.mem_flatten.mpr ⟨r.members, List.mem_map_of_mem hr, hm⟩)
    refine (runsOf_straight g order hr).imp_of_mem_imp ?_
    intro a b _ hb hab
    exact hab.inputs_eq htopo (hmem b hb)
  device r hr m hm := runsOf_device g order hr hm

/-- **The order of runs is a valid schedule.** On an acyclic graph the runs
partition what the effective roots need. Of any of them, in order, every run is
taken once; listed that way, every node comes after those of its inputs that lie
in one of the runs; and runs on one device are taken as they come. -/
theorem device_alternating_order_valid {g : Graph} (hacyc : g.Acyclic)
    (hin : ∀ id, ∀ i ∈ g.inputs id, i < g.len) {roots : List NodeId}
    (hroots : ∀ r ∈ roots, r < g.len) :
    ∃ seeds all, effectiveRoots g roots = some seeds ∧ extractRunsMulti g roots = some all ∧
      RunPartition g seeds all ∧
      ∀ runs : List Run, runs.Sublist all →
        (deviceAlternatingOrder g runs).Perm (List.range runs.length) ∧
        Schedules (fun b => (g.inputs b).filter fun a => decide (a ∈ (membersOf runs).flatten))
          (arrange (membersOf runs) (deviceAlternatingOrder g runs)) ∧
        ((∀ r ∈ runs, ∀ r' ∈ runs, r.device = r'.device) →
          deviceAlternatingOrder g runs = List.range runs.length) := by
  obtain ⟨seeds, order, heff, hroute, horder, -, -⟩ := routeOrder_returns hin hroots
  have htopo := topoOrderMulti_spec horder
  have hsched := topoOrderMulti_schedules (hacyc.acyclicFrom seeds) horder
  refine ⟨seeds, runsOf g order, heff, by simp [extractRunsMulti, hroute],
    runsOf_partition htopo, fun runs hruns => ?_⟩
  have hlist := runList_of_sublist htopo hsched hruns
  have hperm := (deviceAlternatingOrder_spec hlist).1
  rw [length_membersOf] at hperm
  exact ⟨hperm, lowerRuns_schedules hlist, deviceAlternatingOrder_single⟩

/-- A short piece on one device and a longer one on another, then a node that reads both. -/
def twoChunks : Graph where
  nodes := [plainNode .const [], plainNode .relu [0], plainNode .silu [0], plainNode .neg [2],
    plainNode .add [3, 1]]
  targetBackends := fun id => if id = 1 then some .vulkan else if id < 4 then some .cuda else none

/-- The longer piece goes first though the walk met it last. -/
theorem twoChunks_longer_first : ∃ all, extractRunsMulti twoChunks [4] = some all ∧
    deviceAlternatingOrder twoChunks all = [0, 2, 1, 3] ∧
    Schedules (fun b => (twoChunks.inputs b).filter fun a =>
        decide (a ∈ (membersOf all).flatten))
      (arrange (membersOf all) (deviceAlternatingOrder twoChunks all)) := by
  have hacyc : twoChunks.Acyclic := Graph.acyclic_of_inputs_lt (by decide +kernel)
  have hnodes : ∀ id < twoChunks.len, ∀ i ∈ twoChunks.inputs id, i < twoChunks.len := by
    decide +kernel
  obtain ⟨seeds, all, -, hall, -, hparts⟩ := device_alternating_order_valid hacyc
    (fun id i hi => hnodes id (Graph.lt_len_of_mem_inputs hi) i hi)
    (show ∀ r ∈ [4], r < twoChunks.len by decide +kernel)
  have horder : (extractRunsMulti twoChunks [4]).map (deviceAlternatingOrder twoChunks) =
      some [0, 2, 1, 3] := by decide +kernel
  rw [hall] at horder
  exact ⟨all, hall, Option.some.inj horder, (hparts all (.refl _)).2.1⟩

end Fuel.IR
