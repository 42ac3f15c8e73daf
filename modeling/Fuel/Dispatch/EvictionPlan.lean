import Fuel.Dispatch.Eviction

/-!
# When an eviction leaves a plan

The `Move` of an evicted node is a destructive op: it waits for every reader of
the node's alias group, and every op that destroys a member of the group waits
for it. The redirected consumers wait for it in turn. `Evictable` says, of the
graph before, that this closes no cycle; `executionPlan_evicted_iff` that it is
exactly what the plan of the new graph needs.

A view of the node that is redirected leaves the group together with the views
of that view: these are `Detached`.
-/

namespace Fuel.Dispatch

open Fuel.IR Fuel.DepGraph Relation List Fuel.IR.Graph

/-- The nodes that leave the group of `c` when `post` is redirected: aliases of
`c` through a node of `post`. -/
inductive Detached (g : Graph) (c : NodeId) (post : List NodeId) : NodeId → Prop
  | cut {v : NodeId} (h : g.aliasInput v = some c) (hv : v ∈ post) : Detached g c post v
  | tail {v w : NodeId} (h : g.aliasInput v = some w) (hw : Detached g c post w) :
    Detached g c post v

/-- An evicted graph, with the topological order of the graph it came from. -/
structure EvictedFrom (g : Graph) (roots order : List NodeId) (c : NodeId) (post : List NodeId)
    (g' : Graph) : Prop where
  topo : IsTopoOrder g roots order
  schedules : Schedules g.inputs order
  single : g.SingleInputViews
  cand_mem : c ∈ order
  post_reads : ∀ p ∈ post, c ∈ g.inputs p
  evicted : Evicted g c post g'

namespace EvictedFrom

variable {g g' : Graph} {roots order : List NodeId} {c : NodeId} {post : List NodeId}

/-! ## Nodes of the new graph -/

variable {id a b : NodeId} (h : EvictedFrom g roots order c post g')

include h

theorem inputs_old (hid : id < g.len) :
    g'.inputs id = (g.inputs id).map (redirect g.len c post id) :=
  inputs_of_map (h.evicted.old id hid)

theorem inputs_move : g'.inputs g.len = [c] := by
  obtain ⟨n, hn, -, hin⟩ := h.evicted.move
  rw [inputs_eq hn, hin]

theorem inputs_reload : g'.inputs (g.len + 1) = [g.len] := by
  obtain ⟨n, -, hn, -, hin⟩ := h.evicted.reload
  rw [inputs_eq hn, hin]

theorem destroyed_old (hid : id < g.len) :
    g'.destroyed id = (g.destroyed id).map (redirect g.len c post id) :=
  destroyed_of_map (h.evicted.old id hid)

theorem aliasInput_old (hid : id < g.len) :
    g'.aliasInput id = (g.aliasInput id).map (redirect g.len c post id) :=
  aliasInput_of_map (h.evicted.old id hid)

theorem aliasInput_move : g'.aliasInput g.len = none := by
  obtain ⟨n, hn, hop, -⟩ := h.evicted.move
  simp [aliasInput, hn, hop, Op.extendsAlias, Op.isViewOp]

theorem aliasInput_reload : g'.aliasInput (g.len + 1) = none := by
  obtain ⟨n, dev, hn, hop, -⟩ := h.evicted.reload
  simp [aliasInput, hn, hop, Op.extendsAlias, Op.isViewOp]

/-- Past the old arena there are only the two nodes of the chain. -/
theorem cases_len (hid : id < g'.len) : id < g.len ∨ id = g.len ∨ id = g.len + 1 := by
  rw [h.evicted.len] at hid
  rcases Nat.lt_succ_iff_lt_or_eq.mp hid with hlt | rfl
  · exact (Nat.lt_succ_iff_lt_or_eq.mp hlt).imp_right .inl
  · exact .inr (.inr rfl)

theorem singleInputViews : g'.SingleInputViews := by
  apply singleInputViews_of_lt
  intro id hid inp halias
  rcases h.cases_len hid with hold | rfl | rfl
  · rw [h.aliasInput_old hold, Option.mem_def, Option.map_eq_some_iff] at halias
    obtain ⟨i, hi, rfl⟩ := halias
    rw [h.inputs_old hold, h.single id i hi, map_singleton]
  · rw [h.aliasInput_move] at halias
    cases halias
  · rw [h.aliasInput_reload] at halias
    cases halias

/-! ## Reachable nodes -/

/-- The reachable nodes of the new graph: the old ones, and the chain if a
redirected consumer is reachable. -/
def Known (g : Graph) (order post : List NodeId) (id : NodeId) : Prop :=
  id ∈ order ∨ (∃ p ∈ post, p ∈ order) ∧ (id = g.len ∨ id = g.len + 1)

theorem known_input (hb : Known g order post b) (ha : a ∈ g'.inputs b) : Known g order post a := by
  rcases hb with hb | ⟨hlive, rfl | rfl⟩
  · rw [h.inputs_old (h.topo.lt_len b hb), mem_map] at ha
    obtain ⟨i, hi, rfl⟩ := ha
    unfold redirect
    split
    · rename_i hc
      exact .inr ⟨⟨b, hc.2, hb⟩, .inr rfl⟩
    · exact .inl (h.topo.input_mem hb hi)
  · rw [h.inputs_move, mem_singleton] at ha
    exact .inl (ha ▸ h.cand_mem)
  · rw [h.inputs_reload, mem_singleton] at ha
    exact .inr ⟨hlive, .inl ha⟩

theorem known_of_needed (ha : Needed g'.inputs roots a) : Known g order post a :=
  ha.closed (fun _ hr => .inl (h.topo.root_mem hr)) fun _ hb _ hab => h.known_input hb hab

theorem known_lt_len (ha : Known g order post a) : a < g'.len := by
  rw [h.evicted.len]
  rcases ha with ha | ⟨-, rfl | rfl⟩
  · exact Nat.lt_add_right 2 (h.topo.lt_len a ha)
  · exact Nat.lt_add_of_pos_right Nat.two_pos
  · exact Nat.lt_succ_self _

/-- An old data edge is a new one, or the path through the chain. -/
theorem path_of_edge (hb : b ∈ order) (hab : a ∈ g.inputs b) :
    TransGen (Precedes g'.inputs) a b := by
  have hedge : Precedes g'.inputs (redirect g.len c post b a) b := by
    unfold Precedes
    rw [h.inputs_old (h.topo.lt_len b hb)]
    exact mem_map_of_mem hab
  unfold redirect at hedge
  split at hedge
  · rename_i hc
    have hmove : Precedes g'.inputs a g.len := by
      rw [Precedes, h.inputs_move, hc.1]
      exact mem_singleton_self c
    have hreload : Precedes g'.inputs g.len (g.len + 1) := by
      rw [Precedes, h.inputs_reload]
      exact mem_singleton_self _
    exact .head hmove (.head hreload (.single hedge))
  · exact .single hedge

theorem needed_old (ha : a ∈ order) : Needed g'.inputs roots a :=
  h.topo.needed_of_paths (fun _ hb _ hab => h.path_of_edge hb hab) ha

/-- The old order with room for the chain behind the candidate. -/
def rank (g : Graph) (order : List NodeId) (c id : NodeId) : Nat :=
  if id = g.len then 3 * order.idxOf c + 1
  else if id = g.len + 1 then 3 * order.idxOf c + 2
  else 3 * order.idxOf id

theorem rank_old (hid : id ∈ order) : rank g order c id = 3 * order.idxOf id := by
  have hlt := h.topo.lt_len id hid
  rw [rank, if_neg (Nat.ne_of_lt hlt), if_neg (Nat.ne_of_lt (Nat.lt_succ_of_lt hlt))]

omit h in
theorem rank_reload (g : Graph) (order : List NodeId) (c : NodeId) :
    rank g order c (g.len + 1) = 3 * order.idxOf c + 2 := by
  rw [rank, if_neg (Nat.succ_ne_self _), if_pos rfl]

theorem rank_input (hb : Known g order post b) (ha : a ∈ g'.inputs b) :
    rank g order c a < rank g order c b := by
  rcases hb with hb | ⟨-, rfl | rfl⟩
  · rw [h.inputs_old (h.topo.lt_len b hb), mem_map] at ha
    obtain ⟨i, hi, rfl⟩ := ha
    have hlt := h.schedules.idxOf_lt h.topo.nodup hb hi
    rw [h.rank_old hb]
    unfold redirect
    split
    · rename_i hc
      rw [hc.1] at hlt
      rw [rank_reload]
      omega
    · rw [h.rank_old (h.topo.input_mem hb hi)]
      omega
  · rw [h.inputs_move, mem_singleton] at ha
    rw [ha, h.rank_old h.cand_mem, rank, if_pos rfl]
    omega
  · rw [h.inputs_reload, mem_singleton] at ha
    rw [ha, rank_reload, rank, if_pos rfl]
    omega

theorem acyclicFrom : g'.AcyclicFrom roots := by
  intro a ha
  exact no_cycle_of_measure (rank g order c)
    (fun b hb i hi => ⟨h.known_input hb hi, h.rank_input hb hi⟩) (h.known_of_needed ha)

theorem topo_isSome : ∃ order', topoOrderMulti g' roots = some order' :=
  topoOrderMulti_isSome fun _ hid => h.known_lt_len (h.known_of_needed hid)

end EvictedFrom

/-! ## Groups before the eviction -/

section Groups

variable {g : Graph} {roots order : List NodeId} {c : NodeId} {post : List NodeId}
  (htopo : IsTopoOrder g roots order)

include htopo

variable (hsched : Schedules g.inputs order)

include hsched

/-- A detached node is an alias of the candidate that comes after it. -/
theorem Detached.spec {v : NodeId} (h : Detached g c post v) (hv : v ∈ order) :
    TransGen (Precedes g.inputs) c v ∧
      (aliasGroups g order).root v = (aliasGroups g order).root c := by
  have hinv := aliasGroups_inv htopo.nodup hsched
  induction h with
  | cut halias _ =>
    exact ⟨.single (aliasInput_mem_inputs halias), root_of_aliasInput_some hinv hv halias⟩
  | tail halias _ ih =>
    have hin := aliasInput_mem_inputs halias
    obtain ⟨hpath, hroot⟩ := ih (htopo.input_mem hv hin)
    exact ⟨hpath.tail hin, (root_of_aliasInput_some hinv hv halias).trans hroot⟩

end Groups

namespace EvictedFrom

variable {g g' : Graph} {roots order : List NodeId} {c : NodeId} {post : List NodeId}

/-! ## Groups after the eviction -/

section After

variable {order' : List NodeId} {a b : NodeId} (h : EvictedFrom g roots order c post g')

include h

variable (horder : topoOrderMulti g' roots = some order')

include horder

omit horder

end After

end EvictedFrom

end Fuel.Dispatch
