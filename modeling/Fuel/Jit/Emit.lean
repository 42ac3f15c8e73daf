import Fuel.Jit.Recipe
import Fuel.IR.Bundles

/-!
# Re-emitting a region

`emit` appends a region's ops to the arena, children first, over given input
nodes. Open scalar slots take their values from a list in pre-order. A subtree
without open slots that was already emitted in the same call is not emitted
again: the memo table shares it, comparing trees with `==`.

A resolution failure ends the call with an error and leaves what was appended;
a panic of the source is an abort.
-/

namespace Fuel.Jit

open Fuel.IR Method

variable {S : Type}

structure EmitState (S : Type) where
  arena : Arena S
  scalars : List UInt64
  memo : List (PatternNode × NodeId) := []

abbrev Emitter (S : Type) := Method RelAttrError (EmitState S)

/-- `graph.node(id)`. -/
def nodeAt (id : NodeId) : Emitter S Node := do
  index (← get).arena.nodes id

/-- `graph.push(node)`. -/
def pushNode (n : Node) : Emitter S NodeId := do
  let s ← get
  set { s with arena := s.arena.push n }
  pure s.arena.len

/-- The extents of a shape, with the sentinel for those bound at run time. -/
def shapeExprOperand (s : Shape) : List Int :=
  (List.range s.rank).map fun a =>
    if (s.dynamic.getD []).any fun d => decide (d.axis = a) then symbolic
    else ((s.dims.getD a 0 : Nat) : Int)

/-- `bind_operand_shapes`; `none` if an input is not in the arena. -/
def bindOperandShapes (a : Arena S) (inputs : List NodeId) : Option (List (List Int)) :=
  inputs.mapM fun id => (a.nodes[id]?).map fun n => shapeExprOperand n.shape

/-- An open slot takes its values from the cursor. -/
def takeSlots (tag : OpTag) (attrs : OpAttrs) : Emitter S OpAttrs := do
  let arity := ownSlots tag attrs
  if arity = 0 then pure attrs
  else
    let s ← get
    if s.scalars.length < arity then abort .indexOutOfBounds
    else
      set { s with scalars := s.scalars.drop arity }
      pure { attrs with scalars := s.scalars.take arity }

/-- A fill value gets the dtype of the tensor it fills. -/
def refillMasked (conv : ScalarConv) (prim : Op) (dtypes : List DType) : Op :=
  match prim, dtypes.head? with
  | .maskedFill value, some dt =>
    if value.dtype = dt then prim
    else
      match conv.ofF64 (conv.toF64 value) dt with
      | some fixed => .maskedFill fixed
      | none => prim
  | _, _ => prim

/-- The target of a broadcast that raises the rank of its first child. -/
def raisedRank (prim : Op) (children : List Node) : Option Shape :=
  match prim, children with
  | .broadcastTo target, c :: _ =>
    if c.shape.rank < target.rank then
      some (.ofDims (List.replicate (target.rank - c.shape.rank) 1 ++ c.shape.dims))
    else none
  | _, _ => none

/-- The children of a broadcast that raises the rank start with a reshape to leading ones. -/
def padBroadcast (prim : Op) (childIds : List NodeId) (children : List Node) :
    Emitter S (List NodeId × List Node) :=
  match raisedRank prim children, childIds, children with
  | some padShape, id :: ids, c :: cs => do
    let padNode : Node := ⟨.reshape padShape, [id], padShape, c.dtype⟩
    let pad ← pushNode padNode
    pure (pad :: ids, padNode :: cs)
  | _, _, _ => pure (childIds, children)

/-- The type of a malformed node: that of the first child. -/
def fallbackType (children : List Node) : Shape × DType :=
  match children with
  | c :: _ => (c.shape, c.dtype)
  | [] => (.ofDims [], .f32)

/-- The slots of a scan: the stacked outputs, then the final carry. -/
def scanSlots (nXs bound : Nat) (earlyExit : Bool) (children : List Node) :
    Option (List (DType × Shape)) :=
  let nTrailing := if earlyExit then 3 else 2
  if 1 + nXs + nTrailing ≤ children.length then do
    let carry ← children[0]?
    let y ← children[children.length - nTrailing + 1]?
    some [(y.dtype, .ofDims (bound :: y.shape.dims)), (carry.dtype, carry.shape)]
  else none

/-- The slots of the node, if it has several outputs. -/
def outputSlots (prim : Op) (children : List Node) : Option (List (DType × Shape)) :=
  match prim with
  | .scan _ nXs bound _ earlyExit => scanSlots nXs bound earlyExit children
  | _ => none

/-- Shape and dtype of the emitted node. -/
def emittedType (prim : Op) (attrs : OpAttrs) (inputs childIds : List NodeId)
    (children : List Node) : Emitter S (Shape × DType) :=
  match prim with
  | .scan _ _ _ _ _ =>
    match outputSlots prim children with
    | some ((d, s) :: _) => pure (s, d)
    | _ => pure (fallbackType children)
  | .view slot => do
    let s ← get
    match (childIds.head?.bind s.arena.nodeOutputViews).bind fun views => views[slot.toNat]? with
    | some v => pure (v.shape, v.dtype)
    | none => pure (fallbackType children)
  -- the two fused ops a recipe can hold pass the first input's type through
  | .fused _ _ => do
    let c ← index children 0
    pure (c.shape, c.dtype)
  | .scanPlaceholder _ _ => do
    let shape := (shapeFromAttr attrs).getD (fallbackType children).1
    match inputs with
    | b :: _ => do
      let n ← nodeAt b
      pure (shape, n.dtype)
    | [] => pure (shape, (fallbackType children).2)
  | prim =>
    pure ((primitiveShape prim (children.map Node.shape) (children.map Node.dtype)).getD
      (fallbackType children))

/-- The slots of the new node, bundled and entered in the arena's table; what cannot be
bundled is left out. -/
def setOutputViews (id : NodeId) (slots : Option (List (DType × Shape))) : Emitter S Unit :=
  match slots with
  | none => pure ()
  | some slots => do
    let s ← get
    match composeBundle .release (slots.map fun e => ⟨e.1, e.2, .contiguous e.2, none⟩) () with
    | .ok (_, views) () => set { s with arena := { s.arena with
        nodeOutputViews := Function.update s.arena.nodeOutputViews id (some views) } }
    | .err _ () => pure ()
    | .abort why => abort why

/-- Absolute attributes, resolved against the inputs and the children. -/
def resolveAttrs (tag : OpTag) (attrs : OpAttrs) (bindShapes : List (List Int))
    (children : List Node) : Emitter S OpAttrs :=
  if hasRelAttrs attrs then
    match resolveRelAttrs tag attrs bindShapes
      (children.map fun c => shapeExprOperand c.shape) with
    | .ok attrs => pure attrs
    | .error (.panicked why) => abort why
    | .error e => fail e
  else pure attrs

/-- An op over its children, typed and appended. -/
def placeOp (inputs : List NodeId) (attrs : OpAttrs) (prim : Op) (childIds : List NodeId)
    (children : List Node) : Emitter S NodeId := do
  let (childIds, children) ← padBroadcast prim childIds children
  let (shape, dtype) ← emittedType prim attrs inputs childIds children
  let out ← pushNode ⟨prim, childIds, shape, dtype⟩
  setOutputViews out (outputSlots prim children)
  pure out

/-- The op of a node whose children are there. -/
def emitOp (conv : ScalarConv) (inputs : List NodeId) (bindShapes : List (List Int)) (tag : OpTag)
    (attrs : OpAttrs) (childIds : List NodeId) : Emitter S NodeId := do
  let children ← childIds.mapM nodeAt
  let attrs ← resolveAttrs tag attrs bindShapes children
  let prim ← expect (tagToOp conv tag attrs)
  placeOp inputs attrs (refillMasked conv prim (children.map Node.dtype)) childIds children

/-- The node a subtree equal to this one was emitted as. -/
def memoized (s : EmitState S) (node : PatternNode) : Option NodeId :=
  if countScalarSlots node = 0 then (s.memo.find? fun e => e.1.beq node).map (·.2) else none

/-- A subtree without open slots is remembered. -/
def remember (node : PatternNode) (out : NodeId) : Emitter S Unit := do
  if countScalarSlots node = 0 then
    let s ← get
    set { s with memo := s.memo ++ [(node, out)] }
  else pure ()

mutual

/-- `emit`. -/
def emit (conv : ScalarConv) (inputs : List NodeId) (bindShapes : List (List Int)) :
    PatternNode → Emitter S NodeId
  | .bind i => index inputs i.toNat
  | .op tag operands attrs => do
    match memoized (← get) (.op tag operands attrs) with
    | some id => pure id
    | none => do
      let attrs' ← takeSlots tag attrs
      let childIds ← emitAll conv inputs bindShapes operands
      let out ← emitOp conv inputs bindShapes tag attrs' childIds
      remember (.op tag operands attrs) out
      pure out
  | .seeThrough _ | .any => abort .expectFailed

def emitAll (conv : ScalarConv) (inputs : List NodeId) (bindShapes : List (List Int)) :
    List PatternNode → Emitter S (List NodeId)
  | [] => pure []
  | p :: ps => do
    let id ← emit conv inputs bindShapes p
    let ids ← emitAll conv inputs bindShapes ps
    pure (id :: ids)

end

/-- `try_emit_region`: the end of the call, with the arena it leaves. -/
def tryEmitRegion (conv : ScalarConv) (a : Arena S) (region : PatternNode) (inputs : List NodeId)
    (scalars : List UInt64) : Outcome RelAttrError (EmitState S) NodeId :=
  match bindOperandShapes a inputs with
  | none => .abort .indexOutOfBounds
  | some bindShapes => emit conv inputs bindShapes region { arena := a, scalars := scalars }

/-- The fused node's op and its scalars. -/
def fusedScalars : Op → Option (FusedOpId × List UInt64)
  | .fused id (.runtime scalars) => some (id, scalars)
  | .fused id _ => some (id, [])
  | _ => none

/-- `decompose_region`: the node itself where there is nothing to re-emit. -/
def decomposeRegion (conv : ScalarConv) (runtimeRegion : FusedOpId → Option PatternNode)
    (a : Arena S) (nodeId : NodeId) : Outcome RelAttrError (Arena S) NodeId :=
  match a.nodes[nodeId]? with
  | none => .abort .indexOutOfBounds
  | some n =>
    match fusedScalars n.op with
    | none => .ok nodeId a
    | some (id, scalars) =>
      match runtimeRegion id with
      | none => .ok nodeId a
      | some region =>
        if scalars.length ≠ countScalarSlots region then .ok nodeId a
        else
          match tryEmitRegion conv a region n.inputs scalars with
          | .ok out s => .ok out s.arena
          | .err _ s => .ok nodeId s.arena
          | .abort why => .abort why

end Fuel.Jit
