import Fuel.IR.Op
import Fuel.Lib.PostOrder

/-!
# The graph arena and its topological walk

A graph is an arena of nodes named by index, with side tables for placement and
for the backend each node was resolved to. `topoOrderMulti` is the one walk
every pass starts from; here it is an instance of the explicit-stack post-order
of `Fuel.Lib.PostOrder`.

Indexing the arena past its end panics in the source; a function that can do so
returns `none` here.
-/

namespace Fuel.IR

open Fuel.DepGraph Relation List

structure Node where
  op : Op
  inputs : List NodeId
  shape : Shape
  dtype : DType

/-- A node of a small graph; shapes and types play no part. -/
def plainNode (op : Op) (inputs : List NodeId) : Node := ⟨op, inputs, ⟨[], none⟩, .f32⟩

/-- The arena and the side tables the modelled passes read. A table is looked
up by node id only, so it is a function. -/
structure Graph where
  nodes : List Node
  placements : NodeId → Option DeviceLocation := fun _ => none
  targetBackends : NodeId → Option BackendId := fun _ => none

namespace Graph

def len (g : Graph) : Nat := g.nodes.length

/-- The inputs of a node; an id past the arena has none to follow. -/
def inputs (g : Graph) (id : NodeId) : List NodeId :=
  match g.nodes[id]? with
  | some n => n.inputs
  | none => []

def op? (g : Graph) (id : NodeId) : Option Op := (g.nodes[id]?).map (·.op)

/-- `Graph::push`: the new node's id is the old length. -/
def push (g : Graph) (n : Node) : Graph := { g with nodes := g.nodes ++ [n] }

/-- `Graph::rewrite_input`: every occurrence of `old` among the node's inputs becomes `new`. -/
def rewriteInput (g : Graph) (id old new : NodeId) : Graph :=
  { g with nodes := g.nodes.modify id fun n =>
      { n with inputs := n.inputs.map fun i => if i = old then new else i } }

def setTargetBackend (g : Graph) (id : NodeId) (b : BackendId) : Graph :=
  { g with targetBackends := Function.update g.targetBackends id (some b) }

def setPlacement (g : Graph) (id : NodeId) (device : DeviceLocation) : Graph :=
  { g with placements := Function.update g.placements id (some device) }

/-- The input a node's op destroys, when the node has that input. -/
def destroyed (g : Graph) (id : NodeId) : Option NodeId :=
  (g.nodes[id]?).bind fun n => n.op.destructiveInput.bind fun i => n.inputs[i]?

/-- The input whose storage a node may share. -/
def aliasInput (g : Graph) (id : NodeId) : Option NodeId :=
  (g.nodes[id]?).bind fun n => if n.op.extendsAlias then n.inputs.head? else none

/-- The merge node of a branch node. -/
def branchAt (g : Graph) (id : NodeId) : Option NodeId :=
  (g.op? id).bind Op.reconvergeAt?

def isTransfer (g : Graph) (id : NodeId) : Bool :=
  ((g.op? id).map Op.isTransfer).getD false

/-- No node reads itself, directly or not. -/
def Acyclic (g : Graph) : Prop := DepGraph.Acyclic g.inputs

/-- No node the roots need reads itself, directly or not. -/
def AcyclicFrom (g : Graph) (roots : List NodeId) : Prop :=
  ∀ a, Needed g.inputs roots a → ¬ TransGen (Precedes g.inputs) a a

/-- A node that may share its first input's storage has no other input. -/
def SingleInputViews (g : Graph) : Prop :=
  ∀ id inp, g.aliasInput id = some inp → g.inputs id = [inp]

end Graph

/-- Reachable nodes, inputs first, or `none` if the walk meets an id past the
arena. The walk visits exactly the ids it lists. -/
def topoOrderMulti (g : Graph) (roots : List NodeId) : Option (List NodeId) :=
  let order := postOrder g.inputs (walkFuel g.inputs (List.range g.len) roots) roots
  if ∀ id ∈ order, id < g.len then some order else none

namespace Graph

variable {g : Graph}

theorem len_push (g : Graph) (n : Node) : (g.push n).len = g.len + 1 := by
  simp [push, len]

variable {id : NodeId}

theorem node_push_of_lt (g : Graph) (n : Node) (h : id < g.len) :
    (g.push n).nodes[id]? = g.nodes[id]? :=
  getElem?_append_left h

theorem node_push_len (g : Graph) (n : Node) : (g.push n).nodes[g.len]? = some n := by
  simp [push, len]

/-- A node of a pushed arena is an old one or the new one. -/
theorem node_push_eq_some (g : Graph) (n : Node) {m : Node} (h : (g.push n).nodes[id]? = some m) :
    g.nodes[id]? = some m ∨ id = g.len ∧ m = n := by
  rw [push, getElem?_append] at h
  split at h
  · exact .inl h
  · rename_i hge
    obtain ⟨hlt, heq⟩ := List.getElem?_eq_some_iff.mp h
    rw [length_singleton, Nat.lt_one_iff] at hlt
    rw [getElem_singleton] at heq
    exact .inr ⟨Nat.le_antisymm (Nat.sub_eq_zero_iff_le.mp hlt) (Nat.le_of_not_lt hge), heq.symm⟩

theorem Acyclic.acyclicFrom (h : g.Acyclic) (roots : List NodeId) : g.AcyclicFrom roots :=
  fun a _ => h a

theorem inputs_of_le (h : g.len ≤ id) : g.inputs id = [] := by
  unfold inputs
  rw [getElem?_eq_none h]

theorem inputs_eq {n : Node} (h : g.nodes[id]? = some n) : g.inputs id = n.inputs := by
  simp [inputs, h]

theorem lt_len_of_mem_inputs {i : NodeId} (h : i ∈ g.inputs id) : id < g.len := by
  by_contra hge
  rw [inputs_of_le (Nat.le_of_not_lt hge)] at h
  cases h

theorem lt_len_of_branchAt {r : NodeId} (h : g.branchAt id = some r) : id < g.len := by
  by_contra hge
  rw [branchAt, op?, getElem?_eq_none (Nat.le_of_not_lt hge)] at h
  cases h

/-- A graph whose nodes read earlier nodes only is acyclic. -/
theorem acyclic_of_inputs_lt (h : ∀ id < g.len, ∀ i ∈ g.inputs id, i < id) : g.Acyclic := by
  have hlt : ∀ {a b : NodeId}, TransGen (Precedes g.inputs) a b → a < b := by
    intro a b hab
    induction hab with
    | single h₁ => exact h _ (lt_len_of_mem_inputs h₁) _ h₁
    | tail _ h₁ ih => exact Nat.lt_trans ih (h _ (lt_len_of_mem_inputs h₁) _ h₁)
  exact fun a ha => Nat.lt_irrefl a (hlt ha)

theorem singleInputViews_of_lt
    (h : ∀ id < g.len, ∀ inp ∈ g.aliasInput id, g.inputs id = [inp]) : g.SingleInputViews := by
  intro id inp halias
  refine h id ?_ inp halias
  by_contra hge
  rw [aliasInput, getElem?_eq_none (Nat.le_of_not_lt hge)] at halias
  cases halias

theorem destroyed_mem_inputs {x : NodeId} (h : g.destroyed id = some x) : x ∈ g.inputs id := by
  simp only [destroyed, Option.bind_eq_some_iff] at h
  obtain ⟨n, hn, i, -, hx⟩ := h
  rw [inputs_eq hn]
  exact mem_of_getElem? hx

theorem aliasInput_mem_inputs {inp : NodeId} (h : g.aliasInput id = some inp) :
    inp ∈ g.inputs id := by
  simp only [aliasInput, Option.bind_eq_some_iff] at h
  obtain ⟨n, hn, hx⟩ := h
  rw [inputs_eq hn]
  split at hx
  · exact mem_of_head? hx
  · cases hx

/-- A node that may share storage destroys nothing. -/
theorem destroyed_of_aliasInput {inp : NodeId} (h : g.aliasInput id = some inp) :
    g.destroyed id = none := by
  simp only [aliasInput, Option.bind_eq_some_iff] at h
  obtain ⟨n, hn, hx⟩ := h
  split at hx
  · rename_i hext
    simp [destroyed, hn, Op.destructiveInput_of_extendsAlias hext]
  · cases hx

/-! ### Nodes with their inputs mapped -/

section Mapped

variable {g' : Graph} {f : NodeId → NodeId}
  (h : g'.nodes[id]? = (g.nodes[id]?).map fun n => { n with inputs := n.inputs.map f })

include h

theorem inputs_of_map : g'.inputs id = (g.inputs id).map f := by
  unfold inputs
  rw [h]
  cases g.nodes[id]? <;> rfl

theorem destroyed_of_map : g'.destroyed id = (g.destroyed id).map f := by
  unfold destroyed
  rw [h]
  cases g.nodes[id]? with
  | none => rfl
  | some n => cases hd : n.op.destructiveInput <;> simp [hd]

theorem aliasInput_of_map : g'.aliasInput id = (g.aliasInput id).map f := by
  unfold aliasInput
  rw [h]
  cases g.nodes[id]? with
  | none => rfl
  | some n => cases hop : n.op.extendsAlias <;> simp [hop]

theorem op_of_map : g'.op? id = g.op? id := by
  rw [op?, h, Option.map_map]
  rfl

end Mapped

end Graph

/-! ## The walk -/

/-- Ids past the arena have no inputs, so the walk's fuel covers it. -/
theorem inputs_support (g : Graph) (id : NodeId) (h : id ∉ List.range g.len) :
    g.inputs id = [] :=
  Graph.inputs_of_le (by simpa using h)

/-- What the walk returns when it returns. -/
structure IsTopoOrder (g : Graph) (roots order : List NodeId) : Prop where
  nodup : order.Nodup
  mem : ∀ id, id ∈ order ↔ Needed g.inputs roots id
  lt_len : ∀ id ∈ order, id < g.len

variable {g : Graph} {roots : List NodeId}

theorem topoOrderMulti_spec {order : List NodeId} (h : topoOrderMulti g roots = some order) :
    IsTopoOrder g roots order := by
  unfold topoOrderMulti at h
  simp only at h
  split at h
  · rename_i hlt
    cases h
    exact ⟨postOrder_nodup _ _ _, mem_postOrder (inputs_support g) (Nat.le_refl _), hlt⟩
  · cases h

/-- On an acyclic graph every node comes after its inputs. -/
theorem topoOrderMulti_schedules {order : List NodeId} (hacyc : g.AcyclicFrom roots)
    (h : topoOrderMulti g roots = some order) : Schedules g.inputs order := by
  unfold topoOrderMulti at h
  simp only at h
  split at h
  · cases h
    exact postOrder_schedules _ hacyc
  · cases h

/-- The walk panics only on an id past the arena. -/
theorem topoOrderMulti_isSome (h : ∀ id, Needed g.inputs roots id → id < g.len) :
    ∃ order, topoOrderMulti g roots = some order := by
  refine ⟨postOrder g.inputs (walkFuel g.inputs (List.range g.len) roots) roots, ?_⟩
  unfold topoOrderMulti
  rw [if_pos]
  intro id hid
  exact h id ((mem_postOrder (inputs_support g) (Nat.le_refl _) id).mp hid)

namespace IsTopoOrder

variable {g : Graph} {roots order : List NodeId} (h : IsTopoOrder g roots order)

include h

theorem root_mem {r : NodeId} (hr : r ∈ roots) : r ∈ order :=
  (h.mem r).mpr (Needed.of_mem hr)

theorem input_mem {id i : NodeId} (hid : id ∈ order) (hi : i ∈ g.inputs id) : i ∈ order :=
  (h.mem i).mpr (((h.mem id).mp hid).dep hi)

/-- What a graph with a path for every old edge needs. -/
theorem needed_of_paths {g' : Graph}
    (hpath : ∀ b ∈ order, ∀ a ∈ g.inputs b, TransGen (Precedes g'.inputs) a b) {a : NodeId}
    (ha : a ∈ order) : Needed g'.inputs roots a := by
  refine (((h.mem a).mp ha).closed (P := fun b => b ∈ order ∧ Needed g'.inputs roots b)
    (fun r hr => ⟨h.root_mem hr, Needed.of_mem hr⟩) ?_).2
  intro b hb i hi
  exact ⟨h.input_mem hb.1 hi, hb.2.ancestor (hpath b hb.1 i hi).to_reflTransGen⟩

end IsTopoOrder

/-- **The walk lists what the roots need, inputs first.** On nodes that are
acyclic and in the arena the stack runs empty, and the walk returns exactly the
needed nodes, each once, and each after its inputs. -/
theorem topoOrderMulti_correct (hin : ∀ id, Needed g.inputs roots id → id < g.len)
    (hacyc : g.AcyclicFrom roots) :
    ∃ s order, s = iter (walkNext g.inputs) (walkFuel g.inputs (List.range g.len) roots)
        (walkInit roots) ∧ s.stack = [] ∧ s.order = order ∧
      topoOrderMulti g roots = some order ∧ (∀ id, id ∈ order ↔ Needed g.inputs roots id) ∧
      order.Nodup ∧ ∀ before id after, order = before ++ id :: after →
        ∀ i ∈ g.inputs id, i ∈ before := by
  obtain ⟨order, horder⟩ := topoOrderMulti_isSome hin
  have htopo := topoOrderMulti_spec horder
  refine ⟨_, order, rfl, walk_ends (inputs_support g) (Nat.le_refl _), ?_, horder, htopo.mem,
    htopo.nodup, topoOrderMulti_schedules hacyc horder⟩
  exact Option.some.inj (Option.ite_none_right_eq_some.mp horder).2

/-- A sum that reads the input of its other input. -/
def sharedSum : Graph := { nodes := [plainNode .const [], plainNode .neg [0], plainNode .add [1, 0]] }

/-- Two roots, one of them twice and below the other. -/
theorem topoOrderMulti_sharedSum :
    ∃ order, topoOrderMulti sharedSum [1, 2, 1] = some order ∧ order.Nodup := by
  have hlt : ∀ id < sharedSum.len, ∀ i ∈ sharedSum.inputs id, i < id := by decide +kernel
  have hin : ∀ id, Needed sharedSum.inputs [1, 2, 1] id → id < sharedSum.len := fun _ h =>
    h.closed (P := (· < sharedSum.len)) (by decide) fun b hb i hi => Nat.lt_trans (hlt b hb i hi) hb
  obtain ⟨_, order, -, -, -, horder, -, hnodup, -⟩ :=
    topoOrderMulti_correct hin ((Graph.acyclic_of_inputs_lt hlt).acyclicFrom _)
  exact ⟨order, horder, hnodup⟩

end Fuel.IR
