import Fuel.IR.Op

/-!
# Memory layouts

A layout gives each axis a stride, in elements and signed, and a start offset. A
view op reinterprets its input's bytes through a new layout, derived from the
input's; `deriveViewOutputLayout` is `none` where the source reports an error,
whose text its caller drops.
-/

namespace Fuel.IR

structure Layout where
  shape : Shape
  stride : List Int
  startOffset : Nat
  deriving DecidableEq, Repr

namespace Shape

/-- `Shape::from`: the dimensions, with no symbolic axis. -/
def ofDims (dims : List Nat) : Shape := ⟨dims, none⟩

def rank (s : Shape) : Nat := s.dims.length

/-- Row-major strides: each axis spans the product of the axes behind it. -/
def strideContiguous (s : Shape) : List Int :=
  s.dims.tails.tail.map fun rest => ((rest.prod : Nat) : Int)

end Shape

namespace Layout

/-- An offset shifted by a signed amount, as a `usize`. -/
def shiftOffset (offset : Nat) (shift : Int) : Nat := ((offset + shift) % 2 ^ 64).toNat

def contiguousWithOffset (shape : Shape) (startOffset : Nat) : Layout :=
  ⟨shape, shape.strideContiguous, startOffset⟩

def contiguous (shape : Shape) : Layout := contiguousWithOffset shape 0

/-- The sum of the bounds test wraps; where it would, a build with overflow checks panics. -/
def narrow (l : Layout) (dim start len : Nat) : Option Layout := do
  let size ← l.shape.dims[dim]?
  if (start + len) % 2 ^ 64 > size then none
  else some ⟨.ofDims (l.shape.dims.set dim len), l.stride,
    shiftOffset l.startOffset ((l.stride[dim]?).getD 0 * start)⟩

/-- Two positions of a list exchanged. -/
def swap {α : Type} [Inhabited α] (xs : List α) (i j : Nat) : List α :=
  (xs.set i (xs.getD j default)).set j (xs.getD i default)

def transpose (l : Layout) (dim1 dim2 : Nat) : Option Layout :=
  if l.shape.rank ≤ dim1 ∨ l.shape.rank ≤ dim2 then none
  else some ⟨.ofDims (swap l.shape.dims dim1 dim2), swap l.stride dim1 dim2, l.startOffset⟩

def permute (l : Layout) (idxs : List Nat) : Option Layout :=
  if idxs.length = l.shape.rank ∧ ∀ i < idxs.length, i ∈ idxs then
    some ⟨.ofDims (idxs.map fun i => l.shape.dims.getD i 0), idxs.map fun i => l.stride.getD i 0,
      l.startOffset⟩
  else none

def unsqueeze (l : Layout) (dim : Nat) : Option Layout :=
  if dim > l.shape.rank then none
  else some ⟨.ofDims (l.shape.dims.insertIdx dim 1), l.stride.insertIdx dim 0, l.startOffset⟩

def squeeze (l : Layout) (dim : Nat) : Option Layout := do
  let size ← l.shape.dims[dim]?
  if size ≠ 1 then none
  else some ⟨.ofDims (l.shape.dims.eraseIdx dim), l.stride.eraseIdx dim, l.startOffset⟩

def flip (l : Layout) (dim : Nat) : Option Layout := do
  let size ← l.shape.dims[dim]?
  let s := (l.stride[dim]?).getD 0
  let shift : Int := if size > 1 then (size - 1) * s else 0
  some ⟨l.shape, l.stride.set dim (-s), shiftOffset l.startOffset shift⟩

/-- The stride of an axis stretched from `srcDim` to `dstDim`. -/
def broadcastStride (dstDim srcDim : Nat) (srcStride : Int) : Option Int :=
  if dstDim = srcDim then some srcStride else if srcDim ≠ 1 then none else some 0

def broadcastAs (l : Layout) (shape : Shape) : Option Layout :=
  if shape.rank < l.shape.rank then none
  else do
    let added := shape.rank - l.shape.rank
    let stride ← ((shape.dims.drop added).zip (l.shape.dims.zip l.stride)).mapM fun e =>
      broadcastStride e.1 e.2.1 e.2.2
    some ⟨shape, List.replicate added 0 ++ stride, l.startOffset⟩

end Layout

/-- `derive_view_output_layout`. -/
def deriveViewOutputLayout (op : Op) (input : Layout) : Option Layout :=
  match op with
  | .transpose =>
    if input.shape.rank < 2 then none
    else input.transpose (input.shape.rank - 2) (input.shape.rank - 1)
  | .permute axes => input.permute axes
  | .broadcastTo target => input.broadcastAs target
  | .slice dim start len => input.narrow dim start len
  | .unsqueeze dim => input.unsqueeze dim
  | .squeeze dim => input.squeeze dim
  | .flip dim => input.flip dim
  | _ => none

/-- Only view ops have a derived layout. -/
theorem isViewOp_of_derive {op : Op} {l l' : Layout} (h : deriveViewOutputLayout op l = some l') :
    op.isViewOp = true := by
  cases op <;> first | rfl | cases h

-- rows and columns exchanged
example : deriveViewOutputLayout .transpose (.contiguous (.ofDims [2, 3])) =
    some ⟨.ofDims [3, 2], [1, 3], 0⟩ := by decide

-- two rows from the second on, then read backwards
example : (deriveViewOutputLayout (.slice 0 1 2) (.contiguous (.ofDims [4, 3]))).bind
    (deriveViewOutputLayout (.flip 0)) = some ⟨.ofDims [2, 3], [-3, 1], 6⟩ := by decide

end Fuel.IR
