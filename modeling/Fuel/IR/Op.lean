import Mathlib.Tactic

/-!
# The graph IR's operations

The `Op` enumeration and the three classifications the schedulers read off it:
which input an op destroys, whether it is a metadata-only view, and whether it
moves data between devices.

An attribute kept here has the source's type up to `usize` as `Nat`, signed
integers as `Int` and a float as its bit pattern.
-/

namespace Fuel.IR

/-- Index of a node in the arena. -/
abbrev NodeId := Nat

/-- Name of a runtime-bound extent. -/
abbrev SymId := UInt32

inductive DType where
  | u8 | i8 | u32 | i16 | i32 | i64 | bf16 | f16 | f32 | f64
  | f8e4m3 | f8e5m2 | f6e2m3 | f6e3m2 | f4 | f8e8m0 | f8e6m2 | bool
  deriving DecidableEq, Repr

def DType.sizeInBytes : DType → Nat
  | .u8 | .i8 | .f8e4m3 | .f8e5m2 | .f8e8m0 | .f8e6m2 | .bool => 1
  | .i16 | .bf16 | .f16 => 2
  | .u32 | .i32 | .f32 => 4
  | .i64 | .f64 => 8
  -- narrower than a byte
  | .f6e2m3 | .f6e3m2 | .f4 => 0

inductive DeviceLocation where
  | cpu
  | cuda (gpuId : Nat)
  | metal (gpuId : Nat)
  | vulkan (gpuId : Nat)
  deriving DecidableEq, Repr

inductive BackendId where
  | cpu | cuda | vulkan | metal
  deriving DecidableEq, Repr

def DeviceLocation.backend : DeviceLocation → BackendId
  | .cpu => .cpu
  | .cuda _ => .cuda
  | .metal _ => .metal
  | .vulkan _ => .vulkan

def BackendId.defaultLocation : BackendId → DeviceLocation
  | .cpu => .cpu
  | .cuda => .cuda 0
  | .vulkan => .vulkan 0
  | .metal => .metal 0

/-- A dimension whose extent is bound at run time, with its static lower bound. -/
structure DynAxis where
  axis : Nat
  min : Nat
  sym : SymId
  deriving DecidableEq, Repr

structure Shape where
  dims : List Nat
  dynamic : Option (List DynAxis) := none
  deriving DecidableEq, Repr

def Shape.elemCount (s : Shape) : Nat := s.dims.prod

inductive DynScalar where
  | concrete (n : Nat)
  | sym (s : SymId)
  deriving DecidableEq, Repr

inductive PadMode where
  | constant | reflect | replicate
  deriving DecidableEq, Repr

inductive ScanEmit where
  | all | final
  deriving DecidableEq, Repr

inductive ScanRole where
  | carry | elem
  deriving DecidableEq, Repr

/-- Key of a fused op in the registry. -/
abbrev FusedOpId := UInt16

/-- The fused op `x = mul * x + add`, written through its input. -/
def FusedOps.inplaceAffine : FusedOpId := 16

/-- `FusedOpEntry::destructive_input` as the default registry declares it: only
the in-place affine op writes through an input. -/
def FusedOps.destructiveInput (id : FusedOpId) : Option Nat :=
  if id = FusedOps.inplaceAffine then some 0 else none

/-- Block format of quantized weights. -/
inductive QuantType where
  | q4_0 | q4_1 | q5_0 | q5_1 | q8_0 | q8_1 | q2k | q3k | q4km | q5k | q6k
  deriving DecidableEq, Repr

/-- How a loss is reduced over the rows. -/
inductive Reduction where
  | mean | sum | none
  deriving DecidableEq, Repr

/-- What a fused op carries beside its key. -/
inductive FusedOpParams where
  | softmaxLastDim
  | fusedLinear
  | rmsNormLastDim (eps : UInt64)
  | layerNormLastDim (eps : UInt64)
  | rope
  | conv2D (stride padding : Nat × Nat) (groups : Nat)
  | softmaxLastDimBackward
  | layerNormLastDimBackward (eps : UInt64)
  | rmsNormLastDimBackward (eps : UInt64)
  | reduceMaxToBackward
  | powIBackward (exp : Int)
  | convTranspose2D (stride padding outputPadding dilation : Nat × Nat) (groups : Nat)
  | flashAttn (softmaxScale : UInt32) (causal : Bool) (windowSizeLeft windowSizeRight : Option Nat)
      (softcap : Option UInt32) (kLen : Option DynScalar)
  | pagedAttn (softmaxScale : UInt32) (blockSize : Nat) (softcap : Option UInt32)
  | qMatMul (quantType : QuantType) (k n : Nat)
  | inplaceAffine (mul add : UInt64)
  | ssdChunkScan (chunkSize : Nat)
  | nf4Matmul (blockSize : Nat)
  | awqMatmul (groupSize : Nat) (splitKIters : Int)
  | flashAttnBackward (softmaxScale : UInt32) (causal : Bool)
      (windowSizeLeft windowSizeRight : Option Nat) (softcap : Option UInt32)
  | selectiveScan (deltaSoftplus : Bool)
  | causalConv1d (useSilu : Bool)
  | fusedSoftmaxCrossEntropy (reduction : Reduction) (ignoreIndex : Int)
  | runtime (scalars : List UInt64)
  deriving DecidableEq, Repr

/-- A value of some dtype. -/
inductive Scalar where
  | u8 (v : UInt8) | i8 (v : Int) | u32 (v : UInt32) | i16 (v : Int) | i32 (v : Int) | i64 (v : Int)
  | bf16 (bits : UInt16) | f16 (bits : UInt16) | f32 (bits : UInt32) | f64 (bits : UInt64)
  | f8e4m3 (bits : UInt8) | f8e5m2 (bits : UInt8) | f8e8m0 (bits : UInt8) | bool (v : Bool)
  deriving DecidableEq, Repr

inductive Op where
  -- leaves
  | const
  | iota (len : Nat)
  -- element-wise binary
  | add | sub | mul | div
  -- element-wise unary
  | neg | sqr | sqrt | exp | log | sin | cos | tanh | sigmoid | silu | geluTanh | relu | step
  | recip | abs
  -- in-place element-wise unary
  | reluInplace | siluInplace | geluTanhInplace | tanhInplace | sigmoidInplace | negInplace
  | absInplace | sqrInplace | sqrtInplace | rsqrtInplace | recipInplace | expInplace
  | logInplace | sinInplace | cosInplace | signInplace | floorInplace | ceilInplace
  | roundInplace | erfInplace | geluInplace
  | clampInplace (min max : UInt64)
  | powIInplace (exp : Int)
  -- comparisons
  | equal | ne | lt | le | gt | ge
  | floor | ceil | round | sign | erf | gelu | pow | rsqrt | rem
  | flip (dim : Nat)
  | roll (dim : Nat) (shift : Int)
  | cumSum (dim : Nat)
  | triu (diagonal : Int)
  | tril (diagonal : Int)
  | logSoftmaxLastDim
  | maskedFill (value : Scalar)
  | padBackward (inShape : Shape) (padding : List (Nat × Nat)) (mode : PadMode)
  | pad (padding : List (Nat × Nat)) (mode : PadMode) (value : UInt64)
  | whereSelect
  | matMul
  -- shape
  | transpose
  | permute (axes : List Nat)
  | cast (dtype : DType)
  | broadcastTo (shape : Shape)
  | reshape (shape : Shape)
  | contiguize
  | unsqueeze (dim : Nat)
  | squeeze (dim : Nat)
  -- reductions
  | reduceSumTo (shape : Shape)
  | reduceMaxTo (shape : Shape)
  | sumAll | maxAll | minAll | meanAll
  | sumDim (dim : Nat)
  | maxDim (dim : Nat)
  | minDim (dim : Nat)
  | meanDim (dim : Nat)
  | logSoftmaxLastDimBackward
  | argMaxDim (dim : Nat)
  | argMinDim (dim : Nat)
  -- indexing
  | concat (dim : Nat)
  | slice (dim start len : Nat)
  | addScalar (value : UInt64)
  | mulScalar (value : UInt64)
  | powI (exp : Int)
  | clamp (min max : UInt64)
  | maximum | minimum
  | indexSelect (dim : Nat)
  | gather (dim : Nat)
  | indexAdd (dim : Nat)
  | scatterAdd (dim : Nat)
  | nonZeroIndices (countSym : SymId)
  -- residency
  | copy (target : DeviceLocation)
  | release
  | move (target : DeviceLocation)
  -- storage
  | writeSlice (ranges : List (Nat × Nat)) (dynOffset : Option (Nat × DynScalar))
  | writeSliceRotating (axis modulus : Nat) (ranges : List (Nat × Nat))
  | writeSliceDoff (axis : Nat) (ranges : List (Nat × Nat))
  | alloc (target : DeviceLocation)
  | zeroFill
  | fused (id : FusedOpId) (params : FusedOpParams)
  -- bundles and control
  | view (slot : UInt32)
  | viewOwned (slot : UInt32)
  | scatterIntoSlot (slot : UInt32)
  | branch (reconvergeAt : NodeId)
  | scan (nCarries nXs bound : Nat) (emit : ScanEmit) (earlyExit : Bool)
  | scanPlaceholder (role : ScanRole) (index : Nat)

/-- Index of the input the op destroys when it runs. -/
def Op.destructiveInput : Op → Option Nat
  | .release | .move _ | .writeSlice _ _ | .writeSliceRotating _ _ _ | .writeSliceDoff _ _
  | .zeroFill | .reluInplace | .siluInplace | .geluTanhInplace | .tanhInplace
  | .sigmoidInplace | .negInplace | .absInplace | .sqrInplace | .sqrtInplace
  | .rsqrtInplace | .recipInplace | .expInplace | .logInplace | .sinInplace | .cosInplace
  | .signInplace | .floorInplace | .ceilInplace | .roundInplace | .erfInplace | .geluInplace
  | .clampInplace _ _ | .powIInplace _ => some 0
  | .fused id _ => FusedOps.destructiveInput id
  | _ => none

/-- The op only reinterprets the bytes of its single input. -/
def Op.isViewOp : Op → Bool
  | .transpose | .permute _ | .broadcastTo _ | .slice _ _ _ | .unsqueeze _ | .squeeze _
  | .flip _ => true
  | _ => false

/-- The op's output may share its first input's storage: a view, a projection
out of a bundle, or a reshape that is a copy only for strided inputs. -/
def Op.extendsAlias (op : Op) : Bool :=
  op.isViewOp ||
    match op with
    | .view _ | .reshape _ | .contiguize => true
    | _ => false

/-- The op frees the storage it destroys instead of writing through it. -/
def Op.frees : Op → Bool
  | .release | .move _ => true
  | _ => false

/-- Whether sharing the input's storage is decided only when the op runs. -/
def Op.mayMaterialize : Op → Bool
  | .reshape _ | .contiguize => true
  | _ => false

/-- The op transfers data between devices. -/
def Op.isTransfer : Op → Bool
  | .copy _ | .move _ => true
  | _ => false

def Op.isMove : Op → Bool
  | .move _ => true
  | _ => false

/-- The node a branch's arms merge at. -/
def Op.reconvergeAt? : Op → Option NodeId
  | .branch reconvergeAt => some reconvergeAt
  | _ => none

/-- No op both shares its input's storage as an alias and destroys an input. -/
theorem Op.destructiveInput_of_extendsAlias {op : Op} (h : op.extendsAlias = true) :
    op.destructiveInput = none := by
  cases op <;> first | rfl | simp [Op.extendsAlias, Op.isViewOp] at h

end Fuel.IR
