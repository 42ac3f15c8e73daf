import Fuel.IR.Graph
import Fuel.Lib.Kahn

/-!
# Alias groups and ordering edges

Nodes that may share a storage form a group; an op that destroys a member of a
group must wait for every other reader of the group. `deriveOrdering` computes
those waits from one forward pass over the topological order.

The abstract notion is `StaticAlias`, the equivalence closure of "may share its
first input's storage". `root_eq_iff_staticAlias` says the pass's group ids
decide it, and `mem_pins` says which readers a destructive op waits for.
-/

namespace Fuel.IR

open Fuel.DepGraph Relation List Function

/-! ## The pass -/

/-- The two maps the pass builds: the group of each aliasing node, and the
members of each group that has any. -/
structure AliasGroups where
  groupOf : NodeId → Option NodeId
  members : NodeId → Option (List NodeId)

namespace AliasGroups

def empty : AliasGroups := ⟨fun _ => none, fun _ => none⟩

/-- `group_of.get(&id).unwrap_or(id)`. -/
def root (a : AliasGroups) (id : NodeId) : NodeId := (a.groupOf id).getD id

/-- A group's members, the group id alone if nothing aliases it. -/
def aliasSet (a : AliasGroups) (group : NodeId) : List NodeId :=
  (a.members group).getD [group]

/-- One node of the pass: an aliasing node joins its first input's group. -/
def add (g : Graph) (a : AliasGroups) (id : NodeId) : AliasGroups :=
  match g.aliasInput id with
  | none => a
  | some inp =>
    let group := a.root inp
    { groupOf := Function.update a.groupOf id (some group)
      members := Function.update a.members group (some (a.aliasSet group ++ [id])) }

end AliasGroups

open AliasGroups

/-- `alias_groups`: one pass over `order`. -/
def aliasGroups (g : Graph) (order : List NodeId) : AliasGroups :=
  order.foldl (add g) empty

/-- The readers node `id` waits for: with `id` destroying an input, every
consumer of a member of that input's group, except `id` and the members. -/
def pins (g : Graph) (order : List NodeId) (id : NodeId) : List NodeId :=
  match g.destroyed id with
  | none => []
  | some x =>
    let groups := aliasGroups g order
    let aliasSet := groups.aliasSet (groups.root x)
    aliasSet.flatMap fun a =>
      (dependents order g.inputs a).filter fun reader =>
        decide (reader ≠ id ∧ reader ∉ aliasSet)

/-- Ordering edges by destructive node; a node without readers to wait for has no entry. -/
structure OrderingEdges where
  entries : List (NodeId × List NodeId)

namespace OrderingEdges

def depsOf (e : OrderingEdges) (id : NodeId) : List NodeId := (e.entries.lookup id).getD []

def isEmpty (e : OrderingEdges) : Bool := e.entries.isEmpty

end OrderingEdges

/-- The edges over a given order. -/
def orderingEdges (g : Graph) (order : List NodeId) : OrderingEdges :=
  ⟨order.filterMap fun id => if pins g order id = [] then none else some (id, pins g order id)⟩

/-- `derive_ordering`. -/
def deriveOrdering (g : Graph) (roots : List NodeId) : Option OrderingEdges :=
  (topoOrderMulti g roots).map (orderingEdges g)

/-! ## What the edge table holds -/

theorem depsOf_orderingEdges (g : Graph) (order : List NodeId) {id : NodeId} (h : id ∈ order) :
    (orderingEdges g order).depsOf id = pins g order id := by
  unfold orderingEdges OrderingEdges.depsOf
  generalize pins g order = f
  induction order with
  | nil => cases h
  | cons x order ih =>
    by_cases hx : id = x
    · subst hx
      by_cases hf : f id = []
      · -- no entry for `id` here, and any later one would be empty too
        rw [filterMap_cons_none (by simp [hf])]
        by_cases hin : id ∈ order
        · exact ih hin
        have : (order.filterMap fun i => if f i = [] then none else some (i, f i)).lookup id
            = none := by
          rw [lookup_eq_none_iff]
          intro p hp
          obtain ⟨i, hi, hif⟩ := mem_filterMap.mp hp
          split at hif
          · cases hif
          · cases hif
            have hne : id ≠ i := fun h => hin (h ▸ hi)
            simpa using hne
        rw [this, hf]
        rfl
      · rw [filterMap_cons_some (b := (id, f id)) (by simp [hf])]
        simp
    · have hid : id ∈ order := (mem_cons.mp h).resolve_left hx
      by_cases hf : f x = []
      · rw [filterMap_cons_none (by simp [hf])]
        exact ih hid
      · have hbeq : (id == x) = false := beq_eq_false_iff_ne.mpr hx
        rw [filterMap_cons_some (b := (x, f x)) (by simp [hf]), lookup_cons, hbeq]
        exact ih hid

theorem isEmpty_orderingEdges (g : Graph) (order : List NodeId) :
    (orderingEdges g order).isEmpty = true ↔ ∀ id ∈ order, pins g order id = [] := by
  simp only [OrderingEdges.isEmpty, orderingEdges, List.isEmpty_iff, filterMap_eq_nil_iff]
  constructor
  · intro h id hid
    by_contra hne
    simpa [hne] using h id hid
  · intro h id hid
    simp [h id hid]

/-! ## The groups the pass finds -/

/-- What the pass knows after the nodes `done`: group ids follow first inputs
down to a node that shares nothing, and each group lists its members. -/
structure AliasInv (g : Graph) (done : List NodeId) (a : AliasGroups) : Prop where
  groupOf_of_not_mem : ∀ id, id ∉ done → a.groupOf id = none
  groupOf_of_none : ∀ id, g.aliasInput id = none → a.groupOf id = none
  groupOf_of_some : ∀ id ∈ done, ∀ inp, g.aliasInput id = some inp →
    a.groupOf id = some (a.root inp)
  root_mem : ∀ id ∈ done, a.root id ∈ done
  root_root : ∀ id, a.root (a.root id) = a.root id
  mem_aliasSet : ∀ group id, id ∈ a.aliasSet group ↔
    id = group ∨ id ∈ done ∧ g.aliasInput id ≠ none ∧ a.root id = group

theorem aliasInv_empty (g : Graph) : AliasInv g [] empty := by
  constructor <;> simp [empty, root, aliasSet]

/-- A node that shares nothing leaves the maps alone. -/
theorem AliasInv.skip {g : Graph} {done : List NodeId} {a : AliasGroups} {id : NodeId}
    (h : AliasInv g done a) (hid : id ∉ done) (halias : g.aliasInput id = none) :
    AliasInv g (done ++ [id]) (add g a id) := by
  have hself : a.root id = id := by simp [root, h.groupOf_of_not_mem id hid]
  have hadd : add g a id = a := by simp [add, halias]
  rw [hadd]
  constructor
  case groupOf_of_not_mem =>
    intro i hi
    exact h.groupOf_of_not_mem i fun hd => hi (mem_append_left _ hd)
  case groupOf_of_none => exact h.groupOf_of_none
  case groupOf_of_some =>
    intro i hi inp hinp
    rcases mem_append.mp hi with hi | hi
    · exact h.groupOf_of_some i hi inp hinp
    · rw [mem_singleton.mp hi, halias] at hinp
      cases hinp
  case root_mem =>
    intro i hi
    rcases mem_append.mp hi with hi | hi
    · exact mem_append_left _ (h.root_mem i hi)
    · rw [mem_singleton.mp hi, hself]
      simp
  case root_root => exact h.root_root
  case mem_aliasSet =>
    intro group i
    rw [h.mem_aliasSet group i]
    constructor
    · rintro (hi | ⟨hd, hne, hr⟩)
      · exact .inl hi
      · exact .inr ⟨mem_append_left _ hd, hne, hr⟩
    · rintro (hi | ⟨hd, hne, hr⟩)
      · exact .inl hi
      · rcases mem_append.mp hd with hd | hd
        · exact .inr ⟨hd, hne, hr⟩
        · rw [mem_singleton.mp hd] at hne
          exact absurd halias hne

section Join

variable {g : Graph} {a : AliasGroups} {id inp : NodeId} (halias : g.aliasInput id = some inp)

include halias

theorem AliasGroups.groupOf_add :
    (add g a id).groupOf = Function.update a.groupOf id (some (a.root inp)) := by
  simp [add, halias]

theorem AliasGroups.root_add_self : (add g a id).root id = a.root inp := by
  simp [root, groupOf_add halias]

theorem AliasGroups.root_add_of_ne {i : NodeId} (hi : i ≠ id) :
    (add g a id).root i = a.root i := by
  simp [root, groupOf_add halias, update_of_ne hi]

theorem AliasGroups.mem_aliasSet_add {group i : NodeId} :
    i ∈ (add g a id).aliasSet group ↔
      i ∈ a.aliasSet group ∨ i = id ∧ group = a.root inp := by
  have hmembers : (add g a id).members = update a.members (a.root inp)
      (some (a.aliasSet (a.root inp) ++ [id])) := by
    simp [add, halias]
  unfold aliasSet at *
  rw [hmembers]
  by_cases hgroup : group = a.root inp
  · subst hgroup
    simp
  · simp [hgroup]

omit halias

/-- An aliasing node joins the group of its first input, which is already done. -/
theorem AliasInv.join {done : List NodeId} (h : AliasInv g done a) (hid : id ∉ done)
    (halias : g.aliasInput id = some inp) (hinpdone : inp ∈ done) :
    AliasInv g (done ++ [id]) (add g a id) := by
  have hnone : a.groupOf id = none := h.groupOf_of_not_mem id hid
  have hgdone : a.root inp ∈ done := h.root_mem inp hinpdone
  have hgne : a.root inp ≠ id := fun he => hid (he ▸ hgdone)
  have hgroupOf := groupOf_add (a := a) halias
  -- only the new node's group id changed, and only its group's member list
  have hrootid := root_add_self (a := a) halias
  have hroot : ∀ i, i ≠ id → (add g a id).root i = a.root i := fun i hi =>
    root_add_of_ne halias hi
  have hold : ∀ i, i ≠ id → (i ∈ done ++ [id] ↔ i ∈ done) := by
    intro i hi
    simp [hi]
  constructor
  case groupOf_of_not_mem =>
    intro i hi
    have hne : i ≠ id := fun he => hi (by simp [he])
    rw [hgroupOf, update_of_ne hne]
    exact h.groupOf_of_not_mem i fun hd => hi (mem_append_left _ hd)
  case groupOf_of_none =>
    intro i hi
    have hne : i ≠ id := by
      rintro rfl
      rw [halias] at hi
      cases hi
    rw [hgroupOf, update_of_ne hne]
    exact h.groupOf_of_none i hi
  case groupOf_of_some =>
    intro i hi j hj
    by_cases hne : i = id
    · subst hne
      obtain rfl : inp = j := Option.mem_unique halias hj
      have hjne : inp ≠ i := fun he => hid (he ▸ hinpdone)
      rw [hgroupOf, update_self, hroot inp hjne]
    have hd := (hold i hne).mp hi
    have hgi := h.groupOf_of_some i hd j hj
    -- the first input of an earlier aliasing node is not the new node
    have hjne : j ≠ id := by
      rintro rfl
      have hri : a.root i = j := by simp [root, hgi, hnone]
      exact hid (hri ▸ h.root_mem i hd)
    rw [hgroupOf, update_of_ne hne, hgi, hroot j hjne]
  case root_mem =>
    intro i hi
    by_cases hne : i = id
    · rw [hne, hrootid]
      exact mem_append_left _ hgdone
    · rw [hroot i hne]
      exact mem_append_left _ (h.root_mem i ((hold i hne).mp hi))
  case root_root =>
    intro i
    by_cases hne : i = id
    · rw [hne, hrootid, hroot _ hgne, h.root_root inp]
    · have hrne : a.root i ≠ id := by
        intro he
        by_cases hd : i ∈ done
        · exact hid (he ▸ h.root_mem i hd)
        · have hself : a.root i = i := by simp [root, h.groupOf_of_not_mem i hd]
          exact hne (hself.symm.trans he)
      rw [hroot i hne, hroot _ hrne, h.root_root i]
  case mem_aliasSet =>
    intro group i
    rw [mem_aliasSet_add halias, h.mem_aliasSet]
    by_cases hne : i = id
    · rw [hne, hrootid]
      simp [hid, halias, eq_comm]
    · rw [hroot i hne, hold i hne]
      simp [hne]

end Join

/-- The pass over an order that puts inputs first. -/
theorem aliasGroups_inv {g : Graph} {order : List NodeId} (hnd : order.Nodup)
    (hsched : Schedules g.inputs order) : AliasInv g order (aliasGroups g order) := by
  refine foldl_invariant order (aliasInv_empty g) ?_
  intro done id rest a hsplit hdone
  have hnew : id ∉ done := by
    rw [hsplit] at hnd
    exact fun hmem => disjoint_of_nodup_append hnd hmem mem_cons_self
  cases halias : g.aliasInput id with
  | none => exact hdone.skip hnew halias
  | some inp =>
    exact hdone.join hnew halias
      (hsched done id rest hsplit inp (Graph.aliasInput_mem_inputs halias))

/-! ## Groups as an equivalence -/

/-- Nodes of one alias group: the equivalence closure of "may share its first
input's storage" over the nodes the roots need. -/
def StaticAlias (g : Graph) (roots : List NodeId) : NodeId → NodeId → Prop :=
  EqvGen fun a b => Needed g.inputs roots a ∧ g.aliasInput a = some b

section Groups

variable {g : Graph} {roots order : List NodeId}

theorem root_of_aliasInput_none (hinv : AliasInv g order (aliasGroups g order)) {id : NodeId}
    (h : g.aliasInput id = none) : (aliasGroups g order).root id = id := by
  rw [root, hinv.groupOf_of_none id h]
  rfl

theorem root_of_aliasInput_some (hinv : AliasInv g order (aliasGroups g order)) {id inp : NodeId}
    (hid : id ∈ order) (h : g.aliasInput id = some inp) :
    (aliasGroups g order).root id = (aliasGroups g order).root inp := by
  rw [root, hinv.groupOf_of_some id hid inp h]
  rfl

variable (htopo : IsTopoOrder g roots order)

include htopo

variable (hsched : Schedules g.inputs order)

include hsched

/-- Following first inputs from a node ends at its group id. -/
theorem staticAlias_root {id : NodeId} (hid : id ∈ order) :
    StaticAlias g roots id ((aliasGroups g order).root id) ∧
      ReflTransGen (Precedes g.inputs) ((aliasGroups g order).root id) id := by
  have hinv := aliasGroups_inv htopo.nodup hsched
  -- along the order: the claim for the first input gives the claim for the node
  refine hsched.induction (P := fun i => StaticAlias g roots i ((aliasGroups g order).root i) ∧
    ReflTransGen (Precedes g.inputs) ((aliasGroups g order).root i) i) ?_ id hid
  intro i hi ih
  cases halias : g.aliasInput i with
  | none =>
    rw [root_of_aliasInput_none hinv halias]
    exact ⟨EqvGen.refl i, .refl⟩
  | some inp =>
    have hin := Graph.aliasInput_mem_inputs halias
    obtain ⟨heqv, hpath⟩ := ih inp hin
    rw [root_of_aliasInput_some hinv hi halias]
    exact ⟨EqvGen.trans _ _ _ (EqvGen.rel _ _ ⟨(htopo.mem i).mp hi, halias⟩) heqv,
      hpath.tail hin⟩

/-- **The pass's group ids decide aliasing.** -/
theorem root_eq_iff_staticAlias {a b : NodeId} (ha : a ∈ order) (hb : b ∈ order) :
    (aliasGroups g order).root a = (aliasGroups g order).root b ↔ StaticAlias g roots a b := by
  have hinv := aliasGroups_inv htopo.nodup hsched
  constructor
  · intro h
    have hra := (staticAlias_root htopo hsched ha).1
    have hrb := (staticAlias_root htopo hsched hb).1
    rw [← h] at hrb
    exact EqvGen.trans _ _ _ hra (EqvGen.symm _ _ hrb)
  · intro h
    clear ha hb
    induction h with
    | rel x y hxy => exact root_of_aliasInput_some hinv ((htopo.mem x).mpr hxy.1) hxy.2
    | refl x => rfl
    | symm x y _ ih => exact ih.symm
    | trans x y z _ _ ihxy ihyz => exact ihxy.trans ihyz

/-- Membership in a group's alias set, for reachable nodes. -/
theorem mem_aliasSet_root {x id : NodeId} (hid : id ∈ order) :
    id ∈ (aliasGroups g order).aliasSet ((aliasGroups g order).root x) ↔
      (aliasGroups g order).root id = (aliasGroups g order).root x := by
  have hinv := aliasGroups_inv htopo.nodup hsched
  rw [hinv.mem_aliasSet]
  constructor
  · rintro (h | h)
    · rw [h, hinv.root_root]
    · exact h.2.2
  · intro h
    cases halias : g.aliasInput id with
    | none =>
      rw [root_of_aliasInput_none hinv halias] at h
      exact .inl h
    | some inp => exact .inr ⟨hid, by simp, h⟩

/-- **Which readers a destructive node waits for**: those of its destroyed
input's group that are not in the group themselves. -/
theorem mem_pins {id reader : NodeId} :
    reader ∈ pins g order id ↔ ∃ x a, g.destroyed id = some x ∧ reader ∈ order ∧
      a ∈ g.inputs reader ∧ reader ≠ id ∧
      (aliasGroups g order).root a = (aliasGroups g order).root x ∧
      (aliasGroups g order).root reader ≠ (aliasGroups g order).root x := by
  unfold pins
  cases hd : g.destroyed id with
  | none => simp
  | some x =>
    simp only [mem_flatMap, mem_filter, mem_dependents, decide_eq_true_eq]
    constructor
    · rintro ⟨a, haset, ⟨hro, hra⟩, hne, hnot⟩
      have haord := htopo.input_mem hro hra
      refine ⟨x, a, rfl, hro, hra, hne, (mem_aliasSet_root htopo hsched haord).mp haset, ?_⟩
      exact fun h => hnot ((mem_aliasSet_root htopo hsched hro).mpr h)
    · rintro ⟨y, a, hy, hro, hra, hne, haroot, hnot⟩
      cases hy
      have haord := htopo.input_mem hro hra
      refine ⟨a, (mem_aliasSet_root htopo hsched haord).mpr haroot, ⟨hro, hra⟩, hne, ?_⟩
      exact fun h => hnot ((mem_aliasSet_root htopo hsched hro).mp h)

omit htopo

omit hsched

/-- Only reachable nodes are waited for. -/
theorem pins_subset (id reader : NodeId) (h : reader ∈ pins g order id) : reader ∈ order := by
  unfold pins at h
  split at h
  · cases h
  · simp only [mem_flatMap, mem_filter, mem_dependents] at h
    obtain ⟨_, _, ⟨hro, _⟩, _⟩ := h
    exact hro

end Groups

end Fuel.IR
