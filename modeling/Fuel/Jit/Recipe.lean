import Fuel.Jit.Pattern
import Fuel.Jit.PrimitiveShape
import Fuel.IR.Branch
import Fuel.Lib.Machine

/-!
# Recipes

What a region's tags and attributes stand for. `tagToOp` reads an op off a tag
and its attributes; `resolveRelAttrs` first turns the attributes that are given
relative to input shapes into absolute ones; `countScalarSlots` counts the
scalars the region leaves open; `validateRecipe` is the check every registered
region has passed.

Conversions between floats and the other scalar types are a parameter: nothing
here depends on how they round.
-/

namespace Fuel.IR

/-- `usize as i64`. -/
def asI64 (n : Nat) : Int := (n : Int).bmod (2 ^ 64)

theorem asUsize_asI64 {n : Nat} (h : n < 2 ^ 64) : asUsize (asI64 n) = n := by
  have hmod : asUsize (asI64 n) = asUsize n := asUsize_asIsize n
  rw [hmod, asUsize_natCast, Nat.mod_eq_of_lt h]

/-- The `usize` attributes of a fused op. -/
def FusedOpParams.usizes : FusedOpParams → List Nat
  | .conv2D stride padding groups => [stride.1, stride.2, padding.1, padding.2, groups]
  | .convTranspose2D stride padding outputPadding dilation groups =>
    [stride.1, stride.2, padding.1, padding.2, outputPadding.1, outputPadding.2, dilation.1,
      dilation.2, groups]
  | .flashAttn _ _ _ _ _ (some (.concrete v)) => [v]
  | .pagedAttn _ blockSize _ => [blockSize]
  | .qMatMul _ k n => [k, n]
  | .ssdChunkScan chunkSize => [chunkSize]
  | .nf4Matmul blockSize => [blockSize]
  | .awqMatmul groupSize _ => [groupSize]
  | _ => []

/-- The same of any op. -/
def Op.usizes : Op → List Nat
  | .flip dim | .roll dim _ | .cumSum dim | .unsqueeze dim | .squeeze dim | .sumDim dim
  | .maxDim dim | .minDim dim | .meanDim dim | .argMaxDim dim | .argMinDim dim
  | .concat dim => [dim]
  | .padBackward _ padding _ | .pad padding _ _ => padding.flatMap fun p => [p.1, p.2]
  | .slice dim start len => [dim, start, len]
  | .fused _ params => params.usizes
  | .scan nCarries nXs bound _ _ => [nXs, bound, nCarries]
  | .scanPlaceholder _ index => [index]
  | _ => []

/-- The attributes are machine integers. -/
def Op.InRange (op : Op) : Prop := ∀ n ∈ op.usizes, n < 2 ^ 64

def Scalar.dtype : Scalar → DType
  | .u8 _ => .u8 | .i8 _ => .i8 | .u32 _ => .u32 | .i16 _ => .i16 | .i32 _ => .i32
  | .i64 _ => .i64 | .bf16 _ => .bf16 | .f16 _ => .f16 | .f32 _ => .f32 | .f64 _ => .f64
  | .f8e4m3 _ => .f8e4m3 | .f8e5m2 _ => .f8e5m2 | .f8e8m0 _ => .f8e8m0 | .bool _ => .bool

def DType.asStr : DType → String
  | .u8 => "u8" | .i8 => "i8" | .u32 => "u32" | .i16 => "i16" | .i32 => "i32" | .i64 => "i64"
  | .bf16 => "bf16" | .f16 => "f16" | .f32 => "f32" | .f64 => "f64" | .f8e4m3 => "f8e4m3"
  | .f8e5m2 => "f8e5m2" | .f6e2m3 => "f6e2m3" | .f6e3m2 => "f6e3m2" | .f4 => "f4"
  | .f8e8m0 => "f8e8m0" | .f8e6m2 => "f8e6m2" | .bool => "bool"

def DType.all : List DType :=
  [.u8, .i8, .u32, .i16, .i32, .i64, .bf16, .f16, .f32, .f64, .f8e4m3, .f8e5m2, .f6e2m3, .f6e3m2,
    .f4, .f8e8m0, .f8e6m2, .bool]

/-- `DType::from_str`. -/
def DType.ofStr (s : String) : Option DType := DType.all.find? fun dt => decide (dt.asStr = s)

theorem DType.ofStr_asStr (dt : DType) : DType.ofStr dt.asStr = some dt := by
  cases dt <;> decide

end Fuel.IR

namespace Fuel.Jit

open Fuel.IR

/-- `Scalar::from_f64` and `Scalar::to_f64`. -/
structure ScalarConv where
  ofF64 : UInt64 → DType → Option Scalar
  toF64 : Scalar → UInt64

/-! ## From tags to ops -/

/-- `id_for_name` and `fused_params_for`: the two fused ops a recipe can hold, which
take no parameters. -/
def nestedFused (name : String) : Option Op :=
  if name = "SoftmaxLastDim" then some (.fused 1 .softmaxLastDim)
  else if name = "SoftmaxLastDimBackward" then some (.fused 7 .softmaxLastDimBackward)
  else none

/-- `shape_from_attr`. -/
def shapeFromAttr (attrs : OpAttrs) : Option Shape :=
  if attrs.targetShape = [] then if attrs.rank0Target then some (.ofDims []) else none
  else some (.ofDims (attrs.targetShape.map asUsize))

def matMulFromAttrs (attrs : OpAttrs) : Option Op :=
  if attrs.lhsRoles = [] ∧ attrs.rhsRoles = [] then some .matMul
  else if attrs.lhsRoles.length = attrs.rhsRoles.length ∧ 2 ≤ attrs.lhsRoles.length ∧
      (attrs.lhsRoles, attrs.rhsRoles) =
        matmulRoles attrs.lhsRoles.length attrs.rhsRoles.length then some .matMul
  else none

theorem matMulFromAttrs_eq_some {attrs : OpAttrs} {op : Op} (h : matMulFromAttrs attrs = some op) :
    op = .matMul := by
  unfold matMulFromAttrs at h
  split at h
  · exact (Option.some.inj h).symm
  · split at h
    · exact (Option.some.inj h).symm
    · cases h

def padModeFromAttr (code : UInt8) : Option PadMode :=
  if code = 0 then some .constant else if code = 1 then some .reflect
  else if code = 2 then some .replicate else none

def scanEmitFromAttr (code : UInt8) : Option ScanEmit :=
  if code = 0 then some .all else if code = 1 then some .final else none

def scanRoleFromAttr (code : UInt8) : Option ScanRole :=
  if code = 0 then some .carry else if code = 1 then some .elem else none

def sliceFromAttrs (attrs : OpAttrs) : Option Op := do
  some (.slice (asUsize (← attrs.axis)) (← attrs.sliceStart) (← attrs.sliceLen))

def rollFromAttrs (attrs : OpAttrs) : Option Op := do
  some (.roll (asUsize (← attrs.axis)) (← attrs.rollShift))

def padFromAttrs (attrs : OpAttrs) : Option Op := do
  some (.pad attrs.padAmounts (← padModeFromAttr (← attrs.padMode)) (attrs.padValue.getD 0))

def scanFromAttrs (attrs : OpAttrs) : Option Op := do
  some (.scan (← attrs.scanNCarries).toNat (← attrs.scanNXs).toNat (← attrs.scanBound).toNat
    (← scanEmitFromAttr (← attrs.scanEmit)) (attrs.scanEarlyExit.getD false))

def scanPlaceholderFromAttrs (attrs : OpAttrs) : Option Op := do
  some (.scanPlaceholder (← scanRoleFromAttr (← attrs.scanRole)) (← attrs.scanIndex).toNat)

/-- The dtype a fill value is written with, before the emitter knows the tensor's. -/
def fillDtype (attrs : OpAttrs) : Option DType :=
  match attrs.castDtype with
  | some name => DType.ofStr name
  | none => some .f32

def maskedFillFromAttrs (conv : ScalarConv) (attrs : OpAttrs) : Option Op := do
  some (.maskedFill (← conv.ofF64 (← attrs.scalars.head?) (← fillDtype attrs)))

/-- The op's axis, from the shared attribute. -/
def axisOp (attrs : OpAttrs) (f : Nat → Op) : Option Op := attrs.axis.map fun a => f (asUsize a)

/-- `tag_to_op`. -/
def tagToOp (conv : ScalarConv) (tag : OpTag) (attrs : OpAttrs) : Option Op :=
  match tag with
  | .add => some .add | .sub => some .sub | .mul => some .mul | .div => some .div
  | .maximum => some .maximum | .minimum => some .minimum | .pow => some .pow | .rem => some .rem
  | .neg => some .neg | .abs => some .abs | .sqr => some .sqr | .sqrt => some .sqrt
  | .rsqrt => some .rsqrt | .recip => some .recip | .exp => some .exp | .log => some .log
  | .sin => some .sin | .cos => some .cos | .tanh => some .tanh | .sigmoid => some .sigmoid
  | .silu => some .silu | .geluTanh => some .geluTanh | .gelu => some .gelu | .relu => some .relu
  | .erf => some .erf | .step => some .step | .floor => some .floor | .ceil => some .ceil
  | .round => some .round | .sign => some .sign
  | .addScalar => attrs.scalars.head?.map .addScalar
  | .mulScalar => attrs.scalars.head?.map .mulScalar
  | .powI => attrs.scalars.head?.map fun v => .powI (Float64.toI32 v)
  | .equal => some .equal | .ne => some .ne | .lt => some .lt | .le => some .le
  | .gt => some .gt | .ge => some .ge
  | .whereSelect => some .whereSelect
  | .cast => (attrs.castDtype.bind DType.ofStr).map .cast
  | .matMul => matMulFromAttrs attrs
  | .logSoftmaxLastDim => some .logSoftmaxLastDim
  | .transpose => some .transpose
  | .permute => some (.permute (attrs.perm.map UInt8.toNat))
  | .reshape => (shapeFromAttr attrs).map .reshape
  | .broadcastTo => (shapeFromAttr attrs).map .broadcastTo
  | .reduceSumTo => (shapeFromAttr attrs).map .reduceSumTo
  | .reduceMaxTo => (shapeFromAttr attrs).map .reduceMaxTo
  | .unsqueeze => attrs.dims.head?.map fun d => .unsqueeze d.toNat
  | .squeeze => attrs.dims.head?.map fun d => .squeeze d.toNat
  | .slice => sliceFromAttrs attrs
  | .concat => axisOp attrs .concat
  | .flip => axisOp attrs .flip
  | .roll => rollFromAttrs attrs
  | .pad => padFromAttrs attrs
  | .triu => attrs.axis.map .triu
  | .tril => attrs.axis.map .tril
  | .sumDim => axisOp attrs .sumDim
  | .maxDim => axisOp attrs .maxDim
  | .meanDim => axisOp attrs .meanDim
  | .sumAll => some .sumAll | .maxAll => some .maxAll | .minAll => some .minAll
  | .meanAll => some .meanAll
  | .cumSum => axisOp attrs .cumSum
  | .iota => attrs.targetShape.head?.map fun d => .iota (asUsize d)
  | .indexSelect => axisOp attrs .indexSelect
  | .gather => axisOp attrs .gather
  | .indexAdd => axisOp attrs .indexAdd
  | .scatterAdd => axisOp attrs .scatterAdd
  | .scan => scanFromAttrs attrs
  | .scanPlaceholder => scanPlaceholderFromAttrs attrs
  | .view => attrs.viewSlot.map .view
  | .fused => attrs.fusedOp.bind nestedFused
  | .maskedFill => maskedFillFromAttrs conv attrs
  -- no re-emission
  | .clamp | .const | .runtimeScalar | .reducedCount => none

/-! ## Scalar slots -/

/-- `scalar_slot_arity`. -/
def scalarSlotArity : OpTag → Nat
  | .addScalar | .mulScalar => 1
  | _ => 0

/-- Scalars the op leaves open. -/
def ownSlots (tag : OpTag) (attrs : OpAttrs) : Nat :=
  if attrs.scalars = [] ∧ attrs.scalarRel = none then scalarSlotArity tag else 0

mutual

/-- `count_scalar_slots`. -/
def countScalarSlots : PatternNode → Nat
  | .op tag operands attrs => ownSlots tag attrs + countScalarSlotsAll operands
  | _ => 0

def countScalarSlotsAll : List PatternNode → Nat
  | [] => 0
  | p :: ps => countScalarSlots p + countScalarSlotsAll ps

end

/-! ## Attributes relative to shapes -/

/-- The absolute attribute a relative one stands in for. -/
inductive RelField where
  | targetShape | sliceStart | sliceLen | scalars | axis | dims
  deriving DecidableEq, Repr

inductive RelAttrError where
  | relAbsConflict (field : RelField)
  | expr (e : ShapeExprError)
  | symbolicGap (field : RelField)
  | negative (field : RelField) (value : Int)
  | axisLastUnsupported (tag : OpTag)
  | noChildOperand
  | frameNotExpressible (field : RelField) (frame : List Int) (missingCtor : UInt8)
  /-- The evaluation panicked: no error of the source. -/
  | panicked (why : Abort)
  deriving DecidableEq, Repr

/-- `has_rel_attrs`. -/
def hasRelAttrs (attrs : OpAttrs) : Bool :=
  attrs.targetShapeRel.isSome || attrs.sliceStartRel.isSome || attrs.sliceLenRel.isSome ||
    attrs.axisLast || attrs.scalarRel.isSome

/-- The attribute that holds the op's axis. -/
def axisCarrier : OpTag → RelField
  | .unsqueeze | .squeeze => .dims
  | _ => .axis

/-- `rel_abs_conflict_field`. -/
def relAbsConflictField (tag : OpTag) (attrs : OpAttrs) : Option RelField :=
  if attrs.targetShapeRel.isSome ∧ attrs.targetShape ≠ [] then some .targetShape
  else if attrs.sliceStartRel.isSome ∧ attrs.sliceStart.isSome then some .sliceStart
  else if attrs.sliceLenRel.isSome ∧ attrs.sliceLen.isSome then some .sliceLen
  else if attrs.scalarRel.isSome ∧ attrs.scalars ≠ [] then some .scalars
  else if attrs.axisLast then
    match axisCarrier tag with
    | .dims => if attrs.dims ≠ [] then some .dims else none
    | _ => if attrs.axis.isSome then some .axis else none
  else none

/-- One bind's extent joined into the frame. -/
def joinExtent (f e : Int) : Option Int :=
  if f = e ∨ e = 1 then some f else if f = 1 then some e else none

/-- `bind_broadcast_frame`: the extents of all binds joined axis by axis from the right. -/
def bindBroadcastFrame (bindShapes : List (List Int)) : Option (List Int) :=
  if bindShapes = [] then none
  else
    let rank := (bindShapes.map List.length).foldl max 0
    bindShapes.foldlM (fun frame s =>
      if s.any fun e => decide (e = symbolic ∨ e < 0) then none
      else (frame.zip (List.replicate (rank - s.length) 1 ++ s)).mapM fun p => joinExtent p.1 p.2)
      (List.replicate rank 1)

/-- `same_as_frame_guard`. -/
def sameAsFrameGuard (tag : OpTag) (se : ShapeExpr) (bindShapes : List (List Int)) :
    Except RelAttrError Unit :=
  match se, tag, bindBroadcastFrame bindShapes with
  | .sameAs _, .broadcastTo, some frame =>
    if frame ∈ bindShapes then .ok ()
    else .error (.frameNotExpressible .targetShape frame tagDims)
  | _, _, _ => .ok ()

/-- What a shape expression evaluates to, in a release build. -/
def evaluated {α : Type} (m : Fallible α) : Except RelAttrError α :=
  match m () with
  | .ok a _ => .ok a
  | .err e _ => .error (.expr e)
  | .abort why => .error (.panicked why)

def resolveTargetShape (tag : OpTag) (bindShapes : List (List Int)) (attrs : OpAttrs) :
    Except RelAttrError OpAttrs :=
  match attrs.targetShapeRel with
  | none => .ok attrs
  | some se =>
    match evaluated (evalShape .release bindShapes [] se) with
    | .error e => .error e
    | .ok .gap => .error (.symbolicGap .targetShape)
    | .ok (.concrete s) =>
      match s.find? fun e => decide (e < 0) with
      | some bad => .error (.negative .targetShape bad)
      | none => (sameAsFrameGuard tag se bindShapes).map fun _ =>
        { attrs with targetShape := s, targetShapeRel := none }

/-- An offset or extent along the sliced axis. -/
def resolveDim (bindShapes : List (List Int)) (field : RelField) (d : Dim) :
    Except RelAttrError Nat :=
  match evaluated (evalDim .release bindShapes [] d) with
  | .error e => .error e
  | .ok .gap => .error (.symbolicGap field)
  | .ok (.concrete v) => if v < 0 then .error (.negative field v) else .ok v.toNat

def resolveSliceStart (bindShapes : List (List Int)) (attrs : OpAttrs) :
    Except RelAttrError OpAttrs :=
  match attrs.sliceStartRel with
  | none => .ok attrs
  | some d => (resolveDim bindShapes .sliceStart d).map fun v =>
    { attrs with sliceStart := some v, sliceStartRel := none }

def resolveSliceLen (bindShapes : List (List Int)) (attrs : OpAttrs) :
    Except RelAttrError OpAttrs :=
  match attrs.sliceLenRel with
  | none => .ok attrs
  | some d => (resolveDim bindShapes .sliceLen d).map fun v =>
    { attrs with sliceLen := some v, sliceLenRel := none }

def resolveScalar (bindShapes : List (List Int)) (attrs : OpAttrs) : Except RelAttrError OpAttrs :=
  match attrs.scalarRel with
  | none => .ok attrs
  | some d =>
    match evaluated (evalDim .release bindShapes [] d) with
    | .error e => .error e
    | .ok .gap => .error (.symbolicGap .scalars)
    | .ok (.concrete v) => .ok { attrs with scalars := [Float64.ofInt v], scalarRel := none }

def resolveLast (rank : Nat) : Except RelAttrError Nat :=
  match resolveAxis lastAxis rank with
  | .error e => .error (.expr e)
  | .ok a => .ok a

def resolveAxisLast (tag : OpTag) (childShapes : List (List Int)) (attrs : OpAttrs) :
    Except RelAttrError OpAttrs :=
  if attrs.axisLast then
    match childShapes.head? with
    | none => .error .noChildOperand
    | some s =>
      match tag with
      | .sumDim | .maxDim | .meanDim | .cumSum | .concat | .flip | .slice | .roll | .indexSelect
      | .gather | .indexAdd | .scatterAdd =>
        (resolveLast s.length).map fun a => { attrs with axis := some (a : Int), axisLast := false }
      -- a new axis goes behind the last
      | .unsqueeze => .ok { attrs with dims := [s.length.toUInt8], axisLast := false }
      | .squeeze =>
        (resolveLast s.length).map fun a => { attrs with dims := [a.toUInt8], axisLast := false }
      | _ => .error (.axisLastUnsupported tag)
  else .ok attrs

/-- `resolve_rel_attrs`. -/
def resolveRelAttrs (tag : OpTag) (attrs : OpAttrs) (bindShapes childShapes : List (List Int)) :
    Except RelAttrError OpAttrs :=
  match relAbsConflictField tag attrs with
  | some field => .error (.relAbsConflict field)
  | none => do
    let attrs ← resolveTargetShape tag bindShapes attrs
    let attrs ← resolveSliceStart bindShapes attrs
    let attrs ← resolveSliceLen bindShapes attrs
    let attrs ← resolveScalar bindShapes attrs
    resolveAxisLast tag childShapes attrs

/-! ## Validation -/

inductive RuntimeFusedError where
  | nonContiguousBinds (binds : List UInt8)
  | unRepresentable (tag : OpTag)
  | nonConcreteRegion
  | invalidRelAttrs (tag : OpTag) (error : RelAttrError)
  | idSpaceExhausted
  deriving DecidableEq, Repr

/-- `dummy_fill_rel`. -/
def dummyFillRel (tag : OpTag) (attrs : OpAttrs) : OpAttrs :=
  { attrs with
    targetShape := if attrs.targetShapeRel.isSome ∧ attrs.targetShape = [] then [1]
      else attrs.targetShape
    sliceStart := if attrs.sliceStartRel.isSome then attrs.sliceStart.or (some 0)
      else attrs.sliceStart
    sliceLen := if attrs.sliceLenRel.isSome then attrs.sliceLen.or (some 1) else attrs.sliceLen
    scalars := if attrs.scalarRel.isSome ∧ attrs.scalars = [] then [Float64.ofInt 1]
      else attrs.scalars
    dims := if attrs.axisLast ∧ axisCarrier tag = .dims ∧ attrs.dims = [] then [0] else attrs.dims
    axis := if attrs.axisLast ∧ axisCarrier tag = .axis then attrs.axis.or (some 0) else attrs.axis
    targetShapeRel := none
    sliceStartRel := none
    sliceLenRel := none
    scalarRel := none
    axisLast := false }

/-- An error no shape can cure. -/
def RelAttrError.isStructural : RelAttrError → Bool
  | .relAbsConflict _ | .axisLastUnsupported _ | .expr (.operandOutOfRange _ _)
  | .expr (.paramOutOfRange _ _) => true
  | _ => false

/-- `rel_probe`: resolution at a fixed shape; of its errors only structural ones count. -/
def relProbe (tag : OpTag) (attrs : OpAttrs) (nBinds : Nat) : Except RelAttrError OpAttrs :=
  match resolveRelAttrs tag attrs (List.replicate nBinds [2, 4]) [[2, 4]] with
  | .ok resolved => .ok resolved
  | .error (.panicked why) => .error (.panicked why)
  | .error e => if e.isStructural then .error e else .ok (dummyFillRel tag attrs)

/-- The attributes with open slots filled by zeros. -/
def fillSlots (tag : OpTag) (attrs : OpAttrs) : OpAttrs :=
  if attrs.scalars = [] ∧ 0 < scalarSlotArity tag then
    { attrs with scalars := List.replicate (scalarSlotArity tag) 0 }
  else attrs

/-- The check of one op. -/
def validateOp (conv : ScalarConv) (tag : OpTag) (attrs : OpAttrs) (nBinds : Nat) :
    Except RuntimeFusedError Unit :=
  match (if hasRelAttrs attrs then relProbe tag attrs nBinds else .ok attrs) with
  | .error e => .error (.invalidRelAttrs tag e)
  | .ok attrs =>
    if (tagToOp conv tag (fillSlots tag attrs)).isSome then .ok () else .error (.unRepresentable tag)

mutual

/-- `validate_node`. -/
def validateNode (conv : ScalarConv) (nBinds : Nat) : PatternNode → Except RuntimeFusedError Unit
  | .op tag operands attrs => do
    validateOp conv tag attrs nBinds
    validateAll conv nBinds operands
  | .bind _ => .ok ()
  | .seeThrough _ | .any => .error .nonConcreteRegion

def validateAll (conv : ScalarConv) (nBinds : Nat) :
    List PatternNode → Except RuntimeFusedError Unit
  | [] => .ok ()
  | p :: ps => do
    validateNode conv nBinds p
    validateAll conv nBinds ps

end

/-- `validate_recipe`: the binds are `0..n` and every op re-emits. -/
def validateRecipe (conv : ScalarConv) (region : PatternNode) : Except RuntimeFusedError Unit :=
  let binds := region.bindIndices
  -- the count is a byte: 256 binds count as none
  if binds = (List.range (binds.length % 256)).map Nat.toUInt8 then
    validateNode conv binds.length region
  else .error (.nonContiguousBinds binds)

end Fuel.Jit
