import Fuel.Jit.ShapeExpr
import Fuel.Lib.Float64

/-!
# Regions

The grammar of a fused op's body. A region is a tree of ops over bound inputs;
the same tree is the pattern a matcher looks for and the recipe an emitter
re-emits. A subtree that stands in the tree twice is meant as one node.

Attributes are flat: each op reads the fields it needs. A float is its bit
pattern, compared as a float.
-/

namespace Fuel.Jit

open Fuel.IR List

inductive OpTag where
  | add | sub | mul | div | maximum | minimum | pow | rem
  | neg | abs | sqr | sqrt | rsqrt | recip | exp | log | sin | cos
  | tanh | sigmoid | silu | geluTanh | gelu | relu | erf | step
  | floor | ceil | round | sign
  | addScalar | mulScalar | powI | clamp
  | equal | ne | lt | le | gt | ge
  | whereSelect | maskedFill
  | sumAll | maxAll | minAll | meanAll | sumDim | maxDim | meanDim | reduceSumTo | reduceMaxTo
  | cumSum
  | matMul
  | transpose | permute | reshape | broadcastTo | unsqueeze | squeeze | cast | slice | concat
  | flip | roll | pad | triu | tril
  | indexSelect | gather | indexAdd | scatterAdd
  | logSoftmaxLastDim
  | iota
  | const | runtimeScalar | reducedCount | scanPlaceholder
  | scan
  | view
  | fused
  deriving DecidableEq, Repr

structure OpAttrs where
  scalars : List UInt64 := []
  axis : Option Int := none
  perm : List UInt8 := []
  targetShape : List Int := []
  dims : List UInt8 := []
  castDtype : Option String := none
  sliceStart : Option Nat := none
  sliceLen : Option Nat := none
  rollShift : Option Int := none
  padAmounts : List (Nat × Nat) := []
  padMode : Option UInt8 := none
  padValue : Option UInt64 := none
  keepdim : Option Bool := none
  -- relative to the shapes of the region's inputs
  targetShapeRel : Option ShapeExpr := none
  sliceStartRel : Option Dim := none
  sliceLenRel : Option Dim := none
  axisLast : Bool := false
  scalarRel : Option Dim := none
  -- roles of the axes of a product
  lhsRoles : List UInt8 := []
  rhsRoles : List UInt8 := []
  constBits : Option UInt64 := none
  slotIndex : Option UInt32 := none
  scanRole : Option UInt8 := none
  scanIndex : Option UInt32 := none
  scanNCarries : Option UInt32 := none
  scanNXs : Option UInt32 := none
  scanBound : Option UInt32 := none
  scanEmit : Option UInt8 := none
  scanEarlyExit : Option Bool := none
  viewSlot : Option UInt32 := none
  rank0Target : Bool := false
  fusedOp : Option String := none
  deriving DecidableEq, Repr

/-- The attributes other than floats. -/
def OpAttrs.exact (a : OpAttrs) : OpAttrs := { a with scalars := [], padValue := none }

/-- `pad_value == pad_value`. -/
def padValueEq : Option UInt64 → Option UInt64 → Bool
  | none, none => true
  | some x, some y => Float64.eq x y
  | _, _ => false

/-- `==` on attributes. -/
def OpAttrs.beq (a b : OpAttrs) : Bool :=
  decide (a.exact = b.exact) && Float64.eqAll a.scalars b.scalars &&
    padValueEq a.padValue b.padValue

/-- `matmul_roles`: batch axes, then the axes of the product. -/
def matmulRoles (lhsRank rhsRank : Nat) : List UInt8 × List UInt8 :=
  let one (rank : Nat) (secondLast last : UInt8) : List UInt8 :=
    if rank < 2 then List.replicate rank 0
    else List.replicate (rank - 2) 0 ++ [secondLast, last]
  (one lhsRank 1 3, one rhsRank 3 2)

inductive PatternNode where
  | op (tag : OpTag) (operands : List PatternNode) (attrs : OpAttrs)
  | bind (index : UInt8)
  /-- Matcher only: the inner node behind transparent wrappers. -/
  | seeThrough (inner : PatternNode)
  /-- Matcher only: any node. -/
  | any

namespace PatternNode

/-- Induction over the tree, with the hypothesis for every operand. -/
theorem induct {P : PatternNode → Prop}
    (op : ∀ tag operands attrs, (∀ p ∈ operands, P p) → P (.op tag operands attrs))
    (bind : ∀ index, P (.bind index)) (seeThrough : ∀ inner, P inner → P (.seeThrough inner))
    (any : P .any) (p : PatternNode) : P p :=
  PatternNode.rec (motive_1 := P) (motive_2 := fun ps => ∀ p ∈ ps, P p)
    (fun tag operands attrs ih => op tag operands attrs ih) bind seeThrough any
    (fun _ h => (nomatch h))
    (fun _ _ hp hps q hq => (mem_cons.mp hq).elim (fun h => h ▸ hp) (hps q)) p

mutual

/-- `==` on trees. -/
def beq : PatternNode → PatternNode → Bool
  | .op tag operands attrs, .op tag' operands' attrs' =>
    decide (tag = tag') && attrs.beq attrs' && beqAll operands operands'
  | .bind i, .bind j => decide (i = j)
  | .seeThrough p, .seeThrough q => beq p q
  | .any, .any => true
  | _, _ => false

def beqAll : List PatternNode → List PatternNode → Bool
  | [], [] => true
  | p :: ps, q :: qs => beq p q && beqAll ps qs
  | _, _ => false

end

mutual

/-- `collect_binds`, left to right. -/
def collectBinds : PatternNode → List UInt8
  | .op _ operands _ => collectBindsAll operands
  | .bind index => [index]
  | .seeThrough inner => collectBinds inner
  | .any => []

def collectBindsAll : List PatternNode → List UInt8
  | [] => []
  | p :: ps => collectBinds p ++ collectBindsAll ps

end

/-- `bind_indices`: the inputs the region reads, in order and once each. -/
def bindIndices (p : PatternNode) : List UInt8 :=
  ((p.collectBinds.map UInt8.toNat).dedup.insertionSort (· ≤ ·)).map Nat.toUInt8

/-- An op over the default attributes. -/
def plain (tag : OpTag) (operands : List PatternNode) : PatternNode := .op tag operands {}

theorem mem_bindIndices {p : PatternNode} {i : UInt8} : i ∈ p.bindIndices ↔ i ∈ p.collectBinds := by
  unfold bindIndices
  rw [mem_map]
  constructor
  · rintro ⟨n, hn, rfl⟩
    rw [mem_insertionSort, mem_dedup, mem_map] at hn
    obtain ⟨j, hj, rfl⟩ := hn
    simpa using hj
  · intro hi
    refine ⟨i.toNat, ?_, by simp⟩
    rw [mem_insertionSort, mem_dedup]
    exact mem_map_of_mem hi

-- a product with itself, both operands first
example : (plain .sub [.bind 1, plain .mul [.bind 0, .bind 1]]).bindIndices = [0, 1] := by decide

end PatternNode

end Fuel.Jit
