import Fuel.IR.Layout
import Fuel.Lib.Machine

/-!
# Shape expressions

A recipe can name an extent or a whole shape relative to the shapes of its
inputs. The evaluator declines what refers out of range; an extent that is only
known at run time makes the result a gap.

Extents are `i64`; their arithmetic is that of the build.
-/

namespace Fuel.Jit

open Fuel.IR Method

/-- The extent of an axis that is bound at run time. -/
def symbolic : Int := -2 ^ 63

/-- The axis counted from the end. -/
def lastAxis : UInt8 := 0xFF

/-- An expression for one dimension. -/
inductive Dim where
  | extent (operand axis : UInt8)
  | const (c : Int)
  | param (field : UInt8)
  | add (a b : Dim)
  | sub (a b : Dim)
  | mul (a b : Dim)
  | div (a b : Dim)
  deriving DecidableEq, Repr

/-- An expression for a whole shape. -/
inductive ShapeExpr where
  | sameAs (operand : UInt8)
  | withDim (operand axis : UInt8) (dim : Dim)
  | dims (ds : List Dim)
  deriving DecidableEq, Repr

/-! The code of each constructor. -/

def tagSameAs : UInt8 := 0x01
def tagExtent : UInt8 := 0x02
def tagConst : UInt8 := 0x03
def tagParam : UInt8 := 0x04
def tagAdd : UInt8 := 0x05
def tagSub : UInt8 := 0x06
def tagMul : UInt8 := 0x07
def tagDiv : UInt8 := 0x08
def tagWithDim : UInt8 := 0x0A
def tagDims : UInt8 := 0x0B

inductive ShapeExprError where
  | zeroTag
  | reservedTag (tag : UInt8)
  | truncatedBlob (need got : Nat)
  | trailingBytes (extra : Nat)
  | axisOutOfRange (axis : UInt8) (rank : Nat)
  | operandOutOfRange (operand : UInt8) (operands : Nat)
  | paramOutOfRange (field : UInt8) (params : Nat)
  | divideByZero
  deriving DecidableEq, Repr

inductive DimValue where
  | concrete (v : Int)
  | gap
  deriving DecidableEq, Repr

inductive ShapeValue where
  | concrete (s : List Int)
  | gap
  deriving DecidableEq, Repr

/-- `resolve_axis`. -/
def resolveAxis (axis : UInt8) (rank : Nat) : Except ShapeExprError Nat :=
  if axis = lastAxis then
    if rank = 0 then .error (.axisOutOfRange axis rank) else .ok (rank - 1)
  else if rank ≤ axis.toNat then .error (.axisOutOfRange axis rank)
  else .ok axis.toNat

/-- A pure function that can decline, or abort. -/
abbrev Fallible (α : Type) := Method ShapeExprError Unit α

/-- `floordiv`. -/
def floordiv (build : Build) (a b : Int) : Fallible Int := do
  let q ← divI64 a b
  let r ← remI64 a b
  if r ≠ 0 ∧ ¬ (r < 0 ↔ b < 0) then subI64 build q 1 else pure q

/-- `eval_binary`: a gap on either side is a gap. -/
def evalBinary (a b : DimValue) (f : Int → Int → Fallible Int) : Fallible DimValue :=
  match a, b with
  | .concrete x, .concrete y => do pure (.concrete (← f x y))
  | _, _ => pure .gap

/-- The division of `eval_dim`. -/
def divDim (build : Build) (x y : Int) : Fallible Int :=
  if y = 0 then fail .divideByZero else floordiv build x y

/-- `eval_dim`. -/
def evalDim (build : Build) (operands : List (List Int)) (params : List Int) :
    Dim → Fallible DimValue
  | .extent operand axis => do
    let shape ← okOr operands[operand.toNat]? (.operandOutOfRange operand operands.length)
    let idx ← ofExcept (resolveAxis axis shape.length)
    let ext ← index shape idx
    pure (if ext = symbolic then .gap else .concrete ext)
  | .const c => pure (.concrete c)
  | .param field => do
    let v ← okOr params[field.toNat]? (.paramOutOfRange field params.length)
    pure (.concrete v)
  | .add a b => do
    evalBinary (← evalDim build operands params a) (← evalDim build operands params b)
      (addI64 build)
  | .sub a b => do
    evalBinary (← evalDim build operands params a) (← evalDim build operands params b)
      (subI64 build)
  | .mul a b => do
    evalBinary (← evalDim build operands params a) (← evalDim build operands params b)
      (mulI64 build)
  | .div a b => do
    evalBinary (← evalDim build operands params a) (← evalDim build operands params b)
      (divDim build)

/-- All values concrete, or a gap. -/
def ShapeValue.ofDims (ds : List DimValue) : ShapeValue :=
  match ds.mapM fun d => match d with | .concrete v => some v | .gap => none with
  | some s => .concrete s
  | none => .gap

def DimValue.ofExtent (e : Int) : DimValue := if e = symbolic then .gap else .concrete e

/-- `eval_shape`. -/
def evalShape (build : Build) (operands : List (List Int)) (params : List Int) :
    ShapeExpr → Fallible ShapeValue
  | .sameAs operand => do
    let shape ← okOr operands[operand.toNat]? (.operandOutOfRange operand operands.length)
    pure (.ofDims (shape.map DimValue.ofExtent))
  | .withDim operand axis dim => do
    let shape ← okOr operands[operand.toNat]? (.operandOutOfRange operand operands.length)
    let idx ← ofExcept (resolveAxis axis shape.length)
    let replacement ← evalDim build operands params dim
    pure (.ofDims ((shape.map DimValue.ofExtent).set idx replacement))
  | .dims ds => do
    let vs ← ds.mapM (evalDim build operands params)
    pure (.ofDims vs)

-- half of the last axis of the first input
example : evalDim .debug [[4, 6]] [] (.div (.extent 0 lastAxis) (.const 2)) () = .ok (.concrete 3) () := by
  decide

end Fuel.Jit
