import Fuel.IR.Plan
import Fuel.IR.Semantics
import Fuel.Lib.Search

/-!
# Safety copies

`insertSafetyCopies` looks for readers of a destroyed tensor that the combined
graph puts after the op that destroys it. For each op with such readers it
appends one copy of the tensor and redirects those readers to the copy. All
conflicts are found in the old graph, then resolved one after another.

This file has the pass and its effect on the arena: `Rewired` says which node
reads what afterwards, and `insertSafetyCopies_rewired` that the pass's result
is of that form.
-/

namespace Fuel.IR

open Fuel.DepGraph Relation List

/-! ## The pass -/

/-- A destructive op with readers it cannot wait for. -/
structure Conflict where
  destructive : NodeId
  target : NodeId
  targetShape : Shape
  targetDtype : DType
  readers : List NodeId

/-- Edges of the combined graph into a node, and out of it, inside the order. -/
def combinedPred (g : Graph) (order : List NodeId) (id : NodeId) : List NodeId :=
  planPreds g order (orderingEdges g order) id

def combinedSucc (g : Graph) (order : List NodeId) (id : NodeId) : List NodeId :=
  dependents order (combinedPred g order) id

/-- The readers of `target` that need not run before `id`. -/
def conflictingReaders (g : Graph) (order : List NodeId) (id target : NodeId) : List NodeId :=
  let forcedBefore := reach (combinedPred g order) order id
  let forcedAfter := reach (combinedSucc g order) order id
  order.filter fun m =>
    decide (m ≠ id) && decide (target ∈ g.inputs m) &&
      !(decide (m ∈ forcedBefore) && decide (m ∉ forcedAfter))

/-- The conflict of a node, if it has one. The first test skips the searches
when nothing else reads the target. -/
def conflictOf (g : Graph) (order : List NodeId) (id : NodeId) : Option Conflict := do
  let target ← g.destroyed id
  if target ∈ order ∧ ¬ (combinedSucc g order target).any (fun r => decide (r ≠ id)) then none
  else
    let readers := conflictingReaders g order id target
    if readers = [] then none
    else
      let n ← g.nodes[target]?
      some ⟨id, target, n.shape, n.dtype, readers⟩

/-- The backend a copy inherits. -/
def copyBackend (g : Graph) (target destructive : NodeId) : Option BackendId :=
  (g.targetBackends target).or (g.targetBackends destructive)

/-- Where a copy is placed. -/
def copyLocation (g : Graph) (target destructive : NodeId) : DeviceLocation :=
  (((g.placements target).or (g.placements destructive)).or
    ((copyBackend g target destructive).map BackendId.defaultLocation)).getD .cpu

/-- The copy node for a conflict. -/
def Conflict.copyNode (g : Graph) (c : Conflict) : Node :=
  ⟨.copy (copyLocation g c.target c.destructive), [c.target], c.targetShape, c.targetDtype⟩

/-- Append the copy and redirect the readers. -/
def Conflict.resolve (g : Graph) (c : Conflict) : Graph :=
  let copyId := g.len
  let g₁ := g.push (c.copyNode g)
  let g₂ := match copyBackend g c.target c.destructive with
    | some b => g₁.setTargetBackend copyId b
    | none => g₁
  c.readers.foldl (fun h r => h.rewriteInput r c.target copyId) g₂

/-- The conflicts of the reachable destructive ops, in topological order. -/
def conflicts (g : Graph) (order : List NodeId) : List Conflict :=
  order.filterMap (conflictOf g order)

/-- `insert_safety_copies`: the new graph and the number of copies. -/
def insertSafetyCopies (g : Graph) (roots : List NodeId) : Option (Graph × Nat) :=
  (topoOrderMulti g roots).map fun order =>
    ((conflicts g order).foldl Conflict.resolve g, (conflicts g order).length)

/-! ## One conflict -/

namespace Graph

theorem len_rewriteInput (g : Graph) (id old new : NodeId) :
    (g.rewriteInput id old new).len = g.len := by
  simp [rewriteInput, len]

theorem node_rewriteInput (g : Graph) (r old new id : NodeId) :
    (g.rewriteInput r old new).nodes[id]? =
      (g.nodes[id]?).map fun n =>
        if r = id then { n with inputs := n.inputs.map fun i => if i = old then new else i }
        else n := by
  simp only [rewriteInput, getElem?_modify]
  split
  · rfl
  · simp

end Graph

/-- Substituting once or more often is the same. -/
theorem map_subst_subst {old new : NodeId} (l : List NodeId) :
    (l.map fun i => if i = old then new else i).map (fun i => if i = old then new else i) =
      l.map fun i => if i = old then new else i := by
  rw [List.map_map]
  refine map_congr_left fun i _ => ?_
  by_cases hi : i = old
  · by_cases hn : new = old <;> simp [hi, hn]
  · simp [hi]

variable (g : Graph)

/-- Redirecting a list of readers. -/
theorem node_foldl_rewriteInput (readers : List NodeId) (old new id : NodeId) :
    (readers.foldl (fun h r => h.rewriteInput r old new) g).nodes[id]? =
      (g.nodes[id]?).map fun n =>
        if id ∈ readers then { n with inputs := n.inputs.map fun i => if i = old then new else i }
        else n := by
  induction readers generalizing g with
  | nil => simp
  | cons r readers ih =>
    rw [foldl_cons, ih, Graph.node_rewriteInput, Option.map_map]
    congr 1
    funext n
    by_cases hr : r = id
    · subst hr
      by_cases hmem : r ∈ readers
      · simp only [Function.comp_apply, if_true, hmem, mem_cons, true_or, map_subst_subst]
      · simp [hmem]
    · have hne : ¬ id = r := fun h => hr h.symm
      simp [hr, hne]

theorem len_foldl_rewriteInput (readers : List NodeId) (old new : NodeId) :
    (readers.foldl (fun h r => h.rewriteInput r old new) g).len = g.len := by
  induction readers generalizing g with
  | nil => rfl
  | cons r readers ih => rw [foldl_cons, ih, Graph.len_rewriteInput]

/-- The arena after one conflict: the old nodes, the readers redirected, and the copy. -/
theorem Conflict.len_resolve (c : Conflict) : (c.resolve g).len = g.len + 1 := by
  unfold Conflict.resolve
  rw [len_foldl_rewriteInput]
  cases copyBackend g c.target c.destructive with
  | none => exact g.len_push _
  | some b => exact g.len_push _

theorem Conflict.node_resolve (c : Conflict) (id : NodeId) : (c.resolve g).nodes[id]? =
      ((g.push (c.copyNode g)).nodes[id]?).map fun n =>
        if id ∈ c.readers then
          { n with inputs := n.inputs.map fun i => if i = c.target then g.len else i }
        else n := by
  unfold Conflict.resolve
  rw [node_foldl_rewriteInput]
  cases copyBackend g c.target c.destructive with
  | none => rfl
  | some b => rfl

/-! ## The whole pass -/

/-- The input `i` of node `m` after the conflicts `cs` found in a graph of
`len` nodes: the copy of the first conflict on `i` that has `m` among its readers. -/
def rewire (len : Nat) (cs : List Conflict) (m i : NodeId) : NodeId :=
  match cs.findIdx? fun c => decide (c.target = i) && decide (m ∈ c.readers) with
  | some j => len + j
  | none => i

/-- `g'` is `g` with one copy of its target for each of `cs`, and inputs redirected. -/
structure Rewired (g : Graph) (cs : List Conflict) (g' : Graph) : Prop where
  len : g'.len = g.len + cs.length
  old : ∀ id, id < g.len → g'.nodes[id]? = (g.nodes[id]?).map fun n =>
    { n with inputs := n.inputs.map (rewire g.len cs id) }
  copy : ∀ j (c : Conflict), cs[j]? = some c → ∃ loc,
    g'.nodes[g.len + j]? = some ⟨.copy loc, [c.target], c.targetShape, c.targetDtype⟩

theorem rewired_nil : Rewired g [] g := by
  constructor
  case len => rfl
  case old =>
    intro id _
    have hid : rewire g.len [] id = fun i => i := rfl
    simp [hid]
  case copy => intro j c h; simp at h

variable {c : Conflict} {g : Graph} {order : List NodeId}

/-- Redirecting again after the earlier conflicts redirects only what they left. -/
theorem rewire_snoc {len : Nat} {cs : List Conflict} (hc : c.target < len) (m i : NodeId) :
    rewire len (cs ++ [c]) m i =
      if m ∈ c.readers then
        if rewire len cs m i = c.target then len + cs.length else rewire len cs m i
      else rewire len cs m i := by
  unfold rewire
  rw [findIdx?_append]
  cases hfind : cs.findIdx? fun c => decide (c.target = i) && decide (m ∈ c.readers) with
  | some j =>
    have hne : len + j ≠ c.target :=
      Nat.ne_of_gt (Nat.lt_of_lt_of_le hc (Nat.le_add_right len j))
    simp [hne]
  | none =>
    by_cases hm : m ∈ c.readers
    · by_cases hi : c.target = i
      · simp [findIdx?_cons, hm, hi]
      · have hi' : ¬ i = c.target := fun h => hi h.symm
        simp [findIdx?_cons, hm, hi, hi']
    · simp [findIdx?_cons, hm]

theorem Rewired.snoc {g' : Graph} {cs : List Conflict} (h : Rewired g cs g')
    (htarget : c.target < g.len) (hreaders : ∀ r ∈ c.readers, r < g.len) :
    Rewired g (cs ++ [c]) (c.resolve g') := by
  constructor
  case len => rw [c.len_resolve, h.len, length_append, length_singleton, Nat.add_assoc]
  case old =>
    intro id hid
    have hlt : id < g'.len := by rw [h.len]; omega
    rw [c.node_resolve, Graph.node_push_of_lt _ _ hlt, h.old id hid, Option.map_map]
    congr 1
    funext n
    simp only [Function.comp_apply]
    by_cases hm : id ∈ c.readers
    · simp only [hm, if_true, Node.mk.injEq, true_and, and_true, List.map_map]
      refine map_congr_left fun i _ => ?_
      simp [rewire_snoc htarget, hm, h.len]
    · simp only [hm, if_false, Node.mk.injEq, true_and, and_true]
      refine map_congr_left fun i _ => ?_
      simp [rewire_snoc htarget, hm]
  case copy =>
    intro j d hd
    have hnot : g.len + j ∉ c.readers := fun hr =>
      Nat.not_lt.mpr (Nat.le_add_right g.len j) (hreaders _ hr)
    rw [c.node_resolve]
    by_cases hj : j < cs.length
    · rw [getElem?_append_left hj] at hd
      obtain ⟨loc, hloc⟩ := h.copy j d hd
      have hlt : g.len + j < g'.len := by rw [h.len]; omega
      exact ⟨loc, by rw [Graph.node_push_of_lt _ _ hlt, hloc]; simp [hnot]⟩
    have hjeq : j = cs.length := by
      have := lt_of_getElem? hd
      simp at this
      omega
    subst hjeq
    rw [getElem?_append_right (Nat.le_refl _)] at hd
    obtain rfl : c = d := by simpa using hd
    have hlen : g.len + cs.length = g'.len := h.len.symm
    rw [hlen] at hnot ⊢
    refine ⟨copyLocation g' c.target c.destructive, ?_⟩
    rw [Graph.node_push_len]
    simp [hnot, Conflict.copyNode]

/-- Conflicts name nodes of the order. -/
theorem conflictOf_spec {id : NodeId} (h : conflictOf g order id = some c) :
    c.destructive = id ∧ g.destroyed id = some c.target ∧ c.target < g.len ∧
      c.readers = conflictingReaders g order id c.target ∧ c.readers ≠ [] := by
  unfold conflictOf at h
  simp only [Option.bind_eq_bind, Option.bind_eq_some_iff] at h
  obtain ⟨target, htarget, h⟩ := h
  split at h
  · cases h
  split at h
  · cases h
  rename_i hne
  obtain ⟨n, hn, hc⟩ := Option.bind_eq_some_iff.mp h
  cases hc
  exact ⟨rfl, htarget, lt_of_getElem? hn, rfl, hne⟩

theorem conflictingReaders_subset {id target r : NodeId}
    (h : r ∈ conflictingReaders g order id target) : r ∈ order :=
  (mem_filter.mp h).1

/-- **The pass rewires the graph.** -/
theorem insertSafetyCopies_rewired {g' : Graph} {roots : List NodeId} {n : Nat}
    (htopo : topoOrderMulti g roots = some order) (h : insertSafetyCopies g roots = some (g', n)) :
    Rewired g (conflicts g order) g' ∧ n = (conflicts g order).length := by
  rw [insertSafetyCopies, htopo, Option.map_some, Option.some.injEq, Prod.mk.injEq] at h
  obtain ⟨rfl, rfl⟩ := h
  refine ⟨foldl_invariant (I := fun done h => Rewired g done h) _ (rewired_nil g) ?_, rfl⟩
  intro done c rest t hsplit hdone
  have hc : c ∈ conflicts g order := by rw [hsplit]; simp
  obtain ⟨id, hid, hcid⟩ := mem_filterMap.mp hc
  obtain ⟨-, -, htarget, hreaders, -⟩ := conflictOf_spec hcid
  refine hdone.snoc htarget fun r hr => ?_
  rw [hreaders] at hr
  exact (topoOrderMulti_spec htopo).lt_len r (conflictingReaders_subset hr)

end Fuel.IR
