import Fuel.IR.Graph
import Fuel.IR.Layout

/-!
# The arena with all its side tables

`Graph` has the tables the scheduling passes read. The arena adds the others: the
layouts of views, realized storage, the slots of multi-output nodes, storage
classes, data-determined row counts, and the nodes that must run although no
root reads them. `S` is the type of storage handles, which no pass looks into.

Appending a view op also derives its layout. A node without an entry has the
contiguous layout of its shape.
-/

namespace Fuel.IR

/-- One output of a multi-output node. -/
structure OutputView where
  byteOffset : Nat
  lenElements : Nat
  dtype : DType
  shape : Shape
  layout : Layout
  name : Option String

inductive StorageClass where
  | shared | sessionState | transient
  deriving DecidableEq, Repr

structure Arena (S : Type) extends Graph where
  sideEffectRoots : List NodeId := []
  layouts : NodeId → Option Layout := fun _ => none
  storageMap : NodeId → Option S := fun _ => none
  nodeOutputViews : NodeId → Option (List OutputView) := fun _ => none
  storageClasses : NodeId → Option StorageClass := fun _ => none
  nodeMatmulRowCount : NodeId → Option DynScalar := fun _ => none

namespace Arena

variable {S : Type}

/-- `Graph::layout`; `none` where indexing the arena panics. -/
def layout (a : Arena S) (id : NodeId) : Option Layout :=
  match a.layouts id with
  | some l => some l
  | none => (a.nodes[id]?).map fun n => .contiguous n.shape

def setLayout (a : Arena S) (id : NodeId) (l : Layout) : Arena S :=
  { a with layouts := Function.update a.layouts id (some l) }

/-- The layout a view op's first input gives it, if the input is in the arena. -/
def viewLayout (a : Arena S) (op : Op) (inputs : List NodeId) : Option Layout := do
  let input ← inputs.head?
  let l ← if input < a.len then a.layout input else none
  deriveViewOutputLayout op l

/-- `Graph::push` with the layout of a view op. -/
def push (a : Arena S) (n : Node) : Arena S :=
  let id := a.len
  let a₁ : Arena S := { a with toGraph := a.toGraph.push n }
  match (if n.op.isViewOp then a₁.viewLayout n.op n.inputs else none) with
  | some l => a₁.setLayout id l
  | none => a₁

end Arena

end Fuel.IR
