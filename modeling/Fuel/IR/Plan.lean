import Fuel.IR.Ordering

/-!
# Execution plans

`executionPlan` linearises the data edges together with the ordering edges by
Kahn's loop, taking the ready node that comes first in the topological order.
It panics when the combined graph has a cycle.

The combined graph is `precedence`: a node waits for its inputs and for the
readers its op would destroy the data of. A plan that is returned is a schedule
of it over exactly the reachable nodes (`executionPlan_spec`), and one is
returned exactly when it has no cycle (`executionPlan_isSome_iff`).
-/

namespace Fuel.IR

open Fuel.DepGraph Relation List

/-- What a node waits for: its inputs and the readers pinned before it. -/
def precedence (g : Graph) (order : List NodeId) (id : NodeId) : List NodeId :=
  g.inputs id ++ pins g order id

/-- The stable tie-break: the ready node that comes first in `baseOrder`. -/
def firstReady (baseOrder : List NodeId) (_plan ready : List NodeId) : Option NodeId :=
  ready.argmin fun n => baseOrder.idxOf n

/-- The edges Kahn's loop counts: data edges and ordering edges inside `baseOrder`. -/
def planPreds (g : Graph) (baseOrder : List NodeId) (ordering : OrderingEdges) (id : NodeId) :
    List NodeId :=
  (g.inputs id ++ ordering.depsOf id).filter fun d => decide (d ∈ baseOrder)

/-- `execution_plan`; `none` where the source panics. -/
def executionPlan (g : Graph) (roots : List NodeId) : Option (List NodeId) := do
  let baseOrder ← topoOrderMulti g roots
  let ordering ← deriveOrdering g roots
  if ordering.isEmpty then
    some baseOrder
  else
    let plan := kahn baseOrder (planPreds g baseOrder ordering) (firstReady baseOrder)
    if plan.length = baseOrder.length then some plan else none

theorem firstReady_chooses (baseOrder : List NodeId) : Chooses (firstReady baseOrder) := by
  constructor
  · intro plan ready a h
    exact argmin_mem h
  · intro plan ready h
    exact argmin_eq_none.mp h

section

variable {g : Graph} {roots order plan : List NodeId}

/-- A node and what it waits for are reachable together. -/
theorem precedence_mem (htopo : IsTopoOrder g roots order) {a b : NodeId} (hb : b ∈ order)
    (ha : a ∈ precedence g order b) : a ∈ order := by
  rcases mem_append.mp ha with ha | ha
  · exact htopo.input_mem hb ha
  · exact pins_subset b a ha

/-- Inside the order the filter keeps everything. -/
theorem mem_planPreds (htopo : IsTopoOrder g roots order) {a b : NodeId} (hb : b ∈ order) :
    a ∈ planPreds g order (orderingEdges g order) b ↔ a ∈ precedence g order b := by
  rw [planPreds, depsOf_orderingEdges g order hb, mem_filter, decide_eq_true_eq]
  exact ⟨fun h => h.1, fun h => ⟨h, precedence_mem htopo hb h⟩⟩

/-- With the order in hand: the topological order itself when nothing is
pinned, else Kahn's listing if it is complete. -/
theorem executionPlan_eq (h : topoOrderMulti g roots = some order) :
    executionPlan g roots =
      if ∀ id ∈ order, pins g order id = [] then some order
      else
        let plan := kahn order (planPreds g order (orderingEdges g order)) (firstReady order)
        if plan.length = order.length then some plan else none := by
  unfold executionPlan
  simp only [h, deriveOrdering, Option.map_some, Option.bind_eq_bind, Option.bind_some]
  by_cases hpins : ∀ id ∈ order, pins g order id = []
  · rw [if_pos ((isEmpty_orderingEdges g order).mpr hpins), if_pos hpins]
  · rw [if_neg (fun hc => hpins ((isEmpty_orderingEdges g order).mp hc)), if_neg hpins]

/-- What a returned plan is. -/
structure IsPlan (g : Graph) (order plan : List NodeId) : Prop where
  perm : plan.Perm order
  nodup : plan.Nodup
  schedules : Schedules (precedence g order) plan

namespace IsPlan

variable (h : IsPlan g order plan)

include h

theorem mem {id : NodeId} : id ∈ plan ↔ id ∈ order :=
  h.perm.mem_iff

theorem inputs_first : Schedules g.inputs plan :=
  h.schedules.mono fun _ _ _ ha => mem_append_left _ ha

theorem pins_first : Schedules (pins g order) plan :=
  h.schedules.mono fun _ _ _ ha => mem_append_right _ ha

end IsPlan

/-- **A returned plan lists the reachable nodes once, each after its inputs and
after the readers pinned before it.** -/
theorem executionPlan_spec (hacyc : g.AcyclicFrom roots) (h : executionPlan g roots = some plan) :
    ∃ order, topoOrderMulti g roots = some order ∧ IsPlan g order plan := by
  cases htopo : topoOrderMulti g roots with
  | none => simp [executionPlan, htopo] at h
  | some order =>
    have hord := topoOrderMulti_spec htopo
    refine ⟨order, rfl, ?_⟩
    rw [executionPlan_eq htopo] at h
    split at h
    · -- nothing is pinned: the topological order is the plan
      rename_i hpins
      cases h
      refine ⟨.refl _, hord.nodup, (topoOrderMulti_schedules hacyc htopo).mono ?_⟩
      intro b hb a ha
      rw [precedence, hpins b hb, append_nil] at ha
      exact ha
    simp only at h
    split at h
    · rename_i hlen
      cases h
      have hchoose := firstReady_chooses order
      have hperm := kahn_perm_of_length hord.nodup hchoose hlen
      refine ⟨hperm, kahn_nodup hord.nodup hchoose,
        (kahn_schedules hord.nodup hchoose).mono ?_⟩
      exact fun b hb a ha => (mem_planPreds hord (hperm.mem_iff.mp hb)).mpr ha
    · cases h

/-- **A plan is returned exactly when the combined graph has no cycle.** -/
theorem executionPlan_isSome_iff (hacyc : g.AcyclicFrom roots)
    (htopo : topoOrderMulti g roots = some order) :
    (executionPlan g roots).isSome ↔
      ∀ id ∈ order, ¬ TransGen (Precedes (precedence g order)) id id := by
  have hord := topoOrderMulti_spec htopo
  constructor
  · intro hsome id hid
    obtain ⟨plan, hplan⟩ := Option.isSome_iff_exists.mp hsome
    obtain ⟨order', horder', hp⟩ := executionPlan_spec hacyc hplan
    obtain rfl : order = order' := Option.mem_unique htopo horder'
    exact hp.schedules.no_cycle hp.nodup (hp.mem.mpr hid)
  intro hno
  have hchoose := firstReady_chooses order
  have hsub : ∀ b ∈ order, ∀ a ∈ planPreds g order (orderingEdges g order) b,
      a ∈ precedence g order b ∧ a ∈ order := by
    intro b hb a ha
    have hab := (mem_planPreds hord hb).mp ha
    exact ⟨hab, precedence_mem hord hb hab⟩
  -- a cycle of the counted edges would be one of the combined graph
  have hperm := kahn_complete hord.nodup hchoose (fun b hb a ha => (hsub b hb a ha).2)
    (fun id hid hcyc => hno id hid (transGen_mono_on hsub hid hcyc).1)
  rw [executionPlan_eq htopo]
  split
  · rfl
  · simp [hperm.length_eq]

end

end Fuel.IR
