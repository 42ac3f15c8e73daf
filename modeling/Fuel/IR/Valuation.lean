import Fuel.IR.Arena
import Fuel.IR.Branch

/-!
# Valuations of an arena

The functional meaning of an arena with its row counts: every node has a tensor,
a value with the declared shape and dtype, that an interpretation computes from
the node's op, shape, dtype, row count and the tensors of its inputs. A constant
without inputs stands for its storage, so its value may depend on the node.

A valuation gives every node of the arena such a tensor.
-/

namespace Fuel.IR

/-- A value with its shape and dtype. -/
structure Den (V : Type) where
  value : V
  shape : Shape
  dtype : DType

structure Meaning (V : Type) where
  leaf : NodeId → Shape → DType → V
  apply : Op → Shape → DType → Option DynScalar → List (Den V) → V

variable {S V : Type}

/-- The value of node `id`, which is `n`, on the tensors of its inputs. -/
def Meaning.value (I : Meaning V) (id : NodeId) (n : Node) (rowCount : Option DynScalar)
    (args : List (Den V)) : V :=
  match n.op, n.inputs with
  | .const, [] => I.leaf id n.shape n.dtype
  | op, _ => I.apply op n.shape n.dtype rowCount args

/-- The tensor of node `id`. -/
def Meaning.den (I : Meaning V) (id : NodeId) (n : Node) (rowCount : Option DynScalar)
    (args : List (Den V)) : Den V :=
  ⟨I.value id n rowCount args, n.shape, n.dtype⟩

/-- Every node has the tensor its inputs' tensors give it. -/
def Valuation (I : Meaning V) (a : Arena S) (val : NodeId → Den V) : Prop :=
  ∀ (id : NodeId) (n : Node), a.nodes[id]? = some n →
    val id = I.den id n (a.nodeMatmulRowCount id) (n.inputs.map val)

variable {I : Meaning V} {n : Node} {a : Arena S} {val : NodeId → Den V}

theorem Meaning.value_of_inputs {id : NodeId} {rc : Option DynScalar} {args : List (Den V)}
    (h : n.inputs ≠ []) : I.value id n rc args = I.apply n.op n.shape n.dtype rc args := by
  unfold value
  split
  · contradiction
  · rfl

/-! ## Growing arenas -/

/-- `b` has the nodes of `a` at their ids, and the same row counts. -/
structure Arena.Grows (a b : Arena S) : Prop where
  nodes : a.toGraph.Extends b.toGraph
  len_le : a.len ≤ b.len
  rowCount : b.nodeMatmulRowCount = a.nodeMatmulRowCount

namespace Arena

variable {a b c : Arena S} {n : Node}

@[simp] theorem nodes_push (a : Arena S) (n : Node) : (a.push n).nodes = a.nodes ++ [n] := by
  unfold push
  simp only
  split <;> rfl

@[simp] theorem rowCount_push (a : Arena S) (n : Node) :
    (a.push n).nodeMatmulRowCount = a.nodeMatmulRowCount := by
  unfold push
  simp only
  split <;> rfl

theorem len_push (a : Arena S) (n : Node) : (a.push n).len = a.len + 1 := by
  simp [Graph.len]

theorem node_push_len (a : Arena S) (n : Node) : (a.push n).nodes[a.len]? = some n := by
  simp [Graph.len]

variable {id : NodeId}

theorem node_push_of_lt (a : Arena S) (n : Node) (h : id < a.len) :
    (a.push n).nodes[id]? = a.nodes[id]? := by
  rw [nodes_push, List.getElem?_append_left h]

/-- The nodes of an appended arena: the new one and the old ones. -/
theorem node_push_cases {m : Node} (h : (a.push n).nodes[id]? = some m) :
    id < a.len ∧ a.nodes[id]? = some m ∨ id = a.len ∧ m = n := by
  by_cases hlt : id < a.len
  · rw [node_push_of_lt a n hlt] at h
    exact .inl ⟨hlt, h⟩
  · have hid := lt_of_getElem? h
    rw [nodes_push, List.length_append, List.length_singleton] at hid
    have hlen : id = a.len := Nat.eq_of_lt_succ_of_not_lt hid hlt
    rw [hlen, node_push_len] at h
    exact .inr ⟨hlen, (Option.some.inj h).symm⟩

theorem Grows.refl (a : Arena S) : a.Grows a := ⟨fun _ _ => rfl, Nat.le_refl _, rfl⟩

theorem Grows.trans (h : a.Grows b) (h' : b.Grows c) : a.Grows c := by
  refine ⟨fun id hid => ?_, h.len_le.trans h'.len_le, h'.rowCount.trans h.rowCount⟩
  rw [h'.nodes id (Nat.lt_of_lt_of_le hid h.len_le), h.nodes id hid]

theorem grows_push (a : Arena S) (n : Node) : a.Grows (a.push n) :=
  ⟨fun _ hid => node_push_of_lt a n hid, by rw [len_push]; exact Nat.le_succ _, rowCount_push a n⟩

theorem Grows.node (h : a.Grows b) {n : Node} (hn : a.nodes[id]? = some n) :
    b.nodes[id]? = some n := by
  rw [h.nodes id (lt_of_getElem? hn), hn]

end Arena

end Fuel.IR
