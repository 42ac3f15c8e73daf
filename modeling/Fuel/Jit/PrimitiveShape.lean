import Fuel.IR.Layout

/-!
# Shapes of primitive ops

`primitiveShape` is the shape and dtype of an op's output from those of its
inputs. It is `none` where the source reports an error; the emitter, its only
modelled caller, drops the text and falls back to the first input.
-/

namespace Fuel.Jit

open Fuel.IR

/-- The dims without one axis. -/
def reduceRemove (dims : List Nat) (dim : Nat) : Option Shape :=
  if dims.length ≤ dim then none else some (.ofDims (dims.eraseIdx dim))

/-- The joined extent of a concatenation, if rank and the other axes agree. -/
def concatExtent (first : List Nat) (dim : Nat) (shapes : List Shape) : Option Nat :=
  if ∀ s ∈ shapes, s.dims.length = first.length ∧
      ∀ ax < first.length, ax ≠ dim → s.dims.getD ax 0 = first.getD ax 0 then
    some ((shapes.map fun s => s.dims.getD dim 0).sum)
  else none

/-- Shape and dtype of the first input. -/
def firstInput (shapes : List Shape) (dtypes : List DType) : Option (Shape × DType) :=
  match shapes, dtypes with
  | s :: _, d :: _ => some (s, d)
  | _, _ => none

/-- The rule for one data input: its dtype and the dims `f` makes of it. -/
def reshaped (shapes : List Shape) (dtypes : List DType) (f : Shape → Option Shape) :
    Option (Shape × DType) :=
  (firstInput shapes dtypes).bind fun p => (f p.1).map fun s => (s, p.2)

def transposeShape (s : Shape) : Option Shape :=
  if s.rank < 2 then none else some (.ofDims (Layout.swap s.dims (s.rank - 2) (s.rank - 1)))

def permuteShape (axes : List Nat) (s : Shape) : Option Shape :=
  if axes.length = s.rank ∧ ∀ a ∈ axes, a < s.rank then
    some (.ofDims (axes.map fun a => s.dims.getD a 0))
  else none

def sliceShape (dim start len : Nat) (s : Shape) : Option Shape :=
  (s.dims[dim]?).bind fun size =>
    if size < start + len then none else some (.ofDims (s.dims.set dim len))

def padShape (padding : List (Nat × Nat)) (s : Shape) : Option Shape :=
  if padding.length = s.rank then
    some (.ofDims (List.zipWith (fun x p => x + p.1 + p.2) s.dims padding))
  else none

def matMulShape (l r : Shape) : Option Shape :=
  if l.rank < 2 ∨ r.rank ≠ l.rank then none
  else if l.dims.getD (l.rank - 1) 0 ≠ r.dims.getD (l.rank - 2) 0 then none
  else some (.ofDims (l.dims.take (l.rank - 1) ++ [r.dims.getD (l.rank - 1) 0]))

/-- `primitive_shape`. -/
def primitiveShape (op : Op) (shapes : List Shape) (dtypes : List DType) :
    Option (Shape × DType) :=
  match op with
  | .add | .sub | .mul | .div | .maximum | .minimum | .pow | .rem | .neg | .abs | .sqr | .sqrt
  | .rsqrt | .recip | .exp | .log | .sin | .cos | .tanh | .sigmoid | .silu | .geluTanh | .gelu
  | .relu | .erf | .step | .floor | .ceil | .round | .sign | .contiguize | .addScalar _
  | .mulScalar _ | .powI _ | .clamp _ _ | .cumSum _ | .flip _ | .roll _ _ | .triu _ | .tril _
  | .logSoftmaxLastDim | .logSoftmaxLastDimBackward | .maskedFill _ | .indexAdd _
  | .scatterAdd _ => firstInput shapes dtypes
  | .equal | .ne | .lt | .le | .gt | .ge => (firstInput shapes dtypes).map fun p => (p.1, .bool)
  | .whereSelect => (firstInput shapes dtypes).bind fun p => (dtypes[1]?).map fun d => (p.1, d)
  | .cast dt => (firstInput shapes dtypes).map fun p => (p.1, dt)
  | .reshape s | .broadcastTo s | .reduceSumTo s | .reduceMaxTo s =>
    (firstInput shapes dtypes).map fun p => (s, p.2)
  | .transpose => reshaped shapes dtypes transposeShape
  | .permute axes => reshaped shapes dtypes (permuteShape axes)
  | .unsqueeze dim => reshaped shapes dtypes fun s =>
    if s.rank < dim then none else some (.ofDims (s.dims.insertIdx dim 1))
  | .squeeze dim => reshaped shapes dtypes fun s => reduceRemove s.dims dim
  | .slice dim start len => reshaped shapes dtypes (sliceShape dim start len)
  | .concat dim => reshaped shapes dtypes fun s =>
    if s.rank ≤ dim then none
    else (concatExtent s.dims dim shapes).map fun total => .ofDims (s.dims.set dim total)
  | .pad padding _ _ => reshaped shapes dtypes (padShape padding)
  | .sumDim dim | .maxDim dim | .minDim dim | .meanDim dim =>
    reshaped shapes dtypes fun s => reduceRemove s.dims dim
  | .argMaxDim dim | .argMinDim dim =>
    (reshaped shapes dtypes fun s => reduceRemove s.dims dim).map fun p => (p.1, .u32)
  | .sumAll | .maxAll | .minAll | .meanAll => reshaped shapes dtypes fun _ => some (.ofDims [])
  | .matMul => reshaped shapes dtypes fun l => (shapes[1]?).bind (matMulShape l)
  | .indexSelect dim => reshaped shapes dtypes fun s => (shapes[1]?).bind fun index =>
    if s.rank ≤ dim then none else some (.ofDims (s.dims.set dim index.elemCount))
  | .gather _ => reshaped shapes dtypes fun _ => shapes[1]?
  | .iota len => some (.ofDims [len], .f32)
  | _ => none

-- a product over a batch axis
example : primitiveShape .matMul [.ofDims [5, 2, 3], .ofDims [5, 3, 4]] [.f32, .f32] =
    some (.ofDims [5, 2, 4], .f32) := by decide

end Fuel.Jit
