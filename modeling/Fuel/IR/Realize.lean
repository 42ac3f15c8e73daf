import Fuel.IR.InPlace
import Fuel.IR.SafetyOrder
import Fuel.IR.ViewLayouts

/-!
# Copies and realizes keep values

`insert_cross_device_copies` redirects inputs to copies of the same value. `realize_inner`
of `fuel-dispatch/src/pipelined.rs`, with the default order, inserts safety copies, plans
the graph with them and walks the plan in memory. Both keep the values of the graph given.
-/

namespace Fuel.IR

open Fuel.DepGraph Relation List Fuel.IR.Graph

/-- Copies hand their input on. -/
def CopiesCopy {V : Type} (g : Graph) (value : NodeId → List V → V) : Prop :=
  ∀ id loc, g.op? id = some (.copy loc) → ∀ v, value id [v] = v

/-! ## Copies between devices -/

section Values

variable {g g' : Graph} {V : Type} {value : NodeId → List V → V}

/-- A copy has the value of what it copies. -/
theorem CopyOf.denotes {p k : NodeId} {loc : DeviceLocation} (h : CopyOf g g' p loc k)
    (hcopy : CopiesCopy g' value) {v : V} (hv : Denotes g' value p v) : Denotes g' value k v := by
  obtain ⟨n, -, hk⟩ := h.node
  have hargs : g'.args k = [p] := by
    simp [args, aliasInput, hk, h.inputs, Op.extendsAlias, Op.isViewOp]
  have hden : Denotes g' value k (value k [v]) :=
    Denotes.intro (by rw [hargs]; exact .cons hv .nil)
  rwa [hcopy k loc h.op] at hden

/-- What an edge is redirected to has the value of the producer. -/
theorem CopyInv.denotes_inputAfter {t : Topology} {roots order : List NodeId} {s : CopyState}
    (htopo : IsTopoOrder g roots order) (h : CopyInv g t order (g.ReadIn order) s)
    (hcopy : CopiesCopy s.final value) (b : NodeId) {i : NodeId} {v : V}
    (hv : Denotes s.final value i v) : Denotes s.final value (inputAfter s.rewires b i) v := by
  rcases inputAfter_cases s.rewires b i with hmem | ⟨heq, -⟩
  · obtain ⟨-, src, dst, source, -, -, -, hstaged, hk⟩ := h.noted _ _ _ hmem
    refine (h.copyOf_cached htopo hk).denotes hcopy ?_
    cases hhost : t.needsHostStaging src dst with
    | true =>
      -- a copy of the host's copy
      rw [hhost] at hstaged
      exact (h.copyOf_cached htopo hstaged).denotes hcopy hv
    | false =>
      rw [hhost] at hstaged
      rwa [show source = i from hstaged]
  · rwa [heq]

end Values

/-- **Copies between devices keep every value.** Where no view op reads a strided tensor from
another device, on a graph that is acyclic below its roots the pass returns, the layouts of views
stay right, and each node the roots need has one and the same value in the graph given and in the
graph with the copies. -/
theorem cross_device_copies_keep_values {S : Type} {a : Arena S} {roots order : List NodeId}
    {t : Topology} (hlayouts : a.LayoutInv) (hstrided : a.NoStridedCrossing roots t)
    (hacyc : a.AcyclicFrom roots) (horder : topoOrderMulti a.toGraph roots = some order) :
    ∃ b inserted, a.insertCrossDeviceCopies roots t = some (b, inserted) ∧ b.LayoutInv ∧
      ∀ (V : Type) (value : NodeId → List V → V), CopiesCopy b.toGraph value →
        ∀ id ∈ order, ∃ v, Denotes a.toGraph value id v ∧ Denotes b.toGraph value id v := by
  have htopo := topoOrderMulti_spec horder
  have hsched := topoOrderMulti_schedules hacyc horder
  obtain ⟨s, hrun, h⟩ := insertCrossDeviceCopies_spec t horder
  have hpass : a.insertCrossDeviceCopies roots t = some (a.withGraph s.final, s.inserted) :=
    congrArg (Option.map _) hrun
  refine ⟨_, _, hpass,
    hlayouts.redirected (Arena.redirected_insertCrossDeviceCopies hlayouts hstrided hpass), ?_⟩
  intro V value hcopy id hid
  obtain ⟨v, hv⟩ := denotes_of_schedules hsched value id hid
  refine ⟨v, hv, (denotes_iff_of_redirect (f := inputAfter s.rewires) hsched (fun b hb => ?_)
    (fun b _ i _ w hw => h.denotes_inputAfter htopo hcopy b hw) hid v).mpr hv⟩
  have hold := h.node_old htopo (htopo.lt_len b hb)
  show s.final.args b = _
  unfold args
  rw [aliasInput_of_map hold, inputs_of_map hold]
  cases a.aliasInput b <;> rfl

open Samples in
/-- A transpose on the other device, read back on the first. -/
theorem transpose_copies_keep_values : ∃ a : Arena Unit, ∃ b inserted,
    a.inputs 2 = [1] ∧ a.insertCrossDeviceCopies [2] (onGpu 1) = some (b, inserted) ∧
      b.LayoutInv ∧ ∀ (V : Type) (value : NodeId → List V → V), CopiesCopy b.toGraph value →
        ∃ v, Denotes a.toGraph value 2 v ∧ Denotes b.toGraph value 2 v := by
  obtain ⟨a, hlayouts, rfl⟩ : ∃ a : Arena Unit, a.LayoutInv ∧
      ((Arena.new.push (node .const [] [2, 3])).push (node .transpose [0] [3, 2])).push
        (node .relu [1] [3, 2]) = a := by
    refine ⟨_, ((Arena.LayoutInv.new.push fun h => ?_).push fun _ x hx => ?_).push fun h => ?_, rfl⟩
    · cases h
    · cases hx
      decide
    · cases h
  obtain ⟨b, inserted, hrun, hlayouts', hkeep⟩ := cross_device_copies_keep_values hlayouts
    (Arena.Flat.noStridedCrossing (by decide) [2] (onGpu 1))
    (fun id _ => acyclic_of_inputs_lt (by decide +kernel) id)
    (by decide +kernel : topoOrderMulti _ [2] = some [0, 1, 2])
  exact ⟨_, b, inserted, rfl, hrun, hlayouts', fun V value hcopy =>
    hkeep V value hcopy 2 (by simp)⟩

/-! ## Realizes -/

/-- What `realize_inner` walks, and in which order, by the effective roots. -/
def realizeOrder (g : Graph) (roots : List NodeId) : Option (Graph × List NodeId) := do
  let (g', _) ← insertSafetyCopies g roots
  let plan ← executionPlan g' roots
  pure (g', plan)

/-- What no op of the old graph destroys, no op of the graph with the copies does. -/
theorem SafetyPass.live {g g' : Graph} {roots order order' plan : List NodeId}
    (h : SafetyPass g roots order g' order') (hplan : IsPlan g' order' plan) {r : NodeId}
    (hr : r ∈ order) (hkept : ∀ d ∈ order, g.destroyed d ≠ some r) :
    Live g' (aliasGroups g' order').root plan r := by
  have hinv := aliasGroups_inv h.topo'.nodup h.schedules'
  have hroot : ∀ id, (aliasGroups g' order').root id = id := fun id =>
    root_of_aliasInput_none hinv ((h.aliasFree h.free).aliasInput id)
  intro d hd x hx
  rw [hroot, hroot]
  cases h.known_of_needed ((h.topo'.mem d).mp (hplan.mem.mp hd)) with
  | old hd =>
    rw [h.destroyed_old hd] at hx
    obtain ⟨t, ht, rfl⟩ := Option.map_eq_some_iff.mp hx
    rcases rewire_cases g.len (conflicts g order) d t with ⟨heq, -⟩ | ⟨j, c, -, -, -, heq, -⟩
    · rw [heq]
      exact fun htr => hkept d hd (htr ▸ ht)
    · rw [heq]
      exact fun hjr => h.not_copy (hjr ▸ hr)
  | copy hc =>
    rw [h.destroyed_copy hc] at hx
    cases hx

/-- **A realize reads the functional values of its roots.** On an acyclic graph without aliasing
ops and without a cycle of data edges and late pins it finds an order, and walking it in place,
with copies that copy, leaves each root that no op destroys with its value in the graph given. -/
theorem realize_reads_functional_values {g : Graph} {roots order : List NodeId}
    (hacyc : g.Acyclic) (hfree : g.AliasFree) (horder : topoOrderMulti g roots = some order)
    (hlate : ∀ id ∈ order, ¬ TransGen (Precedes (latePrecedence g order)) id id) :
    ∃ g' plan, realizeOrder g roots = some (g', plan) ∧ ∀ (V C : Type) (I : Interp V C),
      CopiesCopy g' I.value → ∀ r ∈ roots, (∀ d ∈ order, g.destroyed d ≠ some r) →
        ∃ v, Denotes g I.value r v ∧ (execute g' I plan).read r = some v := by
  have htopo := topoOrderMulti_spec horder
  obtain ⟨order₀, g', n, order', horder₀, hcall, horder', h⟩ :=
    insertSafetyCopies_returns hacyc hfree fun id hid => htopo.lt_len id ((htopo.mem id).mpr hid)
  obtain rfl : order₀ = order := Option.mem_unique horder₀ horder
  -- the copies close no cycle
  have hsome := (executionPlan_isSome_iff h.acyclicFrom horder').mpr (h.acyclic_iff.mpr hlate)
  obtain ⟨plan, hplan⟩ := Option.isSome_iff_exists.mp hsome
  obtain ⟨order₁, horder₁, hp⟩ := executionPlan_spec h.acyclicFrom hplan
  obtain rfl : order₁ = order' := Option.mem_unique horder₁ horder'
  refine ⟨g', plan, by simp [realizeOrder, hcall, hplan], ?_⟩
  intro V C I hcopy r hr hkept
  obtain ⟨b, v, hb, hreads, hden⟩ := (execute_sound I h.topo' h.schedules' hp).reads r
    (hp.mem.mpr (h.topo'.root_mem hr)) (h.live hp (htopo.root_mem hr) hkept)
  exact ⟨v, (h.denotes_iff hfree hcopy (htopo.root_mem hr) v).mp hden, hreads.read hb⟩

/-- `x + relu_inplace x` is realized through a copy of `x`. -/
theorem read_after_in_place_realized : ∃ g' plan,
    realizeOrder readAfterInPlace [2] = some (g', plan) ∧ ∀ (V C : Type) (I : Interp V C),
      CopiesCopy g' I.value →
      ∃ v, Denotes readAfterInPlace I.value 2 v ∧ (execute g' I plan).read 2 = some v := by
  have hlate : Schedules (latePrecedence readAfterInPlace [0, 1, 2]) [0, 1, 2] :=
    Schedules.of_before (by decide) (by decide +kernel)
  obtain ⟨g', plan, hrun, hreads⟩ := realize_reads_functional_values
    (acyclic_of_inputs_lt (by decide +kernel)) (aliasFree_of_lt (by decide +kernel))
    (by decide +kernel : topoOrderMulti readAfterInPlace [2] = some [0, 1, 2])
    fun id hid => hlate.no_cycle (by decide) hid
  exact ⟨g', plan, hrun, fun V C I hcopy =>
    hreads V C I hcopy 2 mem_cons_self (by decide +kernel)⟩

end Fuel.IR
