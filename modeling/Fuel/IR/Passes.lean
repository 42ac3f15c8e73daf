import Fuel.IR.Arena
import Fuel.IR.SafetyCopies

/-!
# Passes that redirect inputs

Three passes over the arena append nodes and then redirect inputs to them: the
safety copies of `Fuel.IR.SafetyCopies`, the copies between devices, and the
rewrite rules. Appending goes through `push`, which derives the layout of a view
op; redirecting touches the inputs and no side table.

A rule is code that appends nodes and names replacements; here it returns both.
The driver runs the rules of a family until none fires.
-/

namespace Fuel.IR

variable {S : Type}

/-- The arena with another graph under the same side tables. -/
def Arena.withGraph (a : Arena S) (g : Graph) : Arena S := { a with toGraph := g }

/-! ## Safety copies -/

/-- `insert_safety_copies` on the arena: a copy is no view, so no layout is derived. -/
def Arena.insertSafetyCopies (a : Arena S) (roots : List NodeId) : Option (Arena S × Nat) :=
  (Fuel.IR.insertSafetyCopies a.toGraph roots).map fun r => (a.withGraph r.1, r.2)

/-! ## Copies between devices -/

/-- The copies made so far and the redirections to come: consumer, old input, new input. -/
structure CopyState where
  graph : Graph
  copyCache : NodeId × DeviceLocation → Option NodeId := fun _ => none
  inserted : List NodeId := []
  rewires : List (NodeId × NodeId × NodeId) := []

/-- The three questions the caller answers. -/
structure Topology where
  placementFor : NodeId → Option DeviceLocation
  sharesStorage : DeviceLocation → DeviceLocation → Bool
  needsHostStaging : DeviceLocation → DeviceLocation → Bool

namespace CopyState

/-- The copy of `source` on `target`, made once. -/
def copyTo (s : CopyState) (source : NodeId) (target : DeviceLocation) :
    Option (CopyState × NodeId) :=
  match s.copyCache (source, target) with
  | some id => some (s, id)
  | none => do
    let n ← s.graph.nodes[source]?
    let id := s.graph.len
    some ({ s with
      graph := (s.graph.push ⟨.copy target, [source], n.shape, n.dtype⟩).setPlacement id target
      copyCache := Function.update s.copyCache (source, target) (some id)
      inserted := s.inserted ++ [id] }, id)

/-- The node the copy to the consumer's device reads: the producer, or its copy on the host. -/
def stage (s : CopyState) (twoHop : Bool) (producer : NodeId) : Option (CopyState × NodeId) :=
  if twoHop then s.copyTo producer .cpu else some (s, producer)

/-- One input of a consumer: through the host when the devices need it. -/
def edge (t : Topology) (consumer : NodeId) (consumerPlacement : DeviceLocation) (s : CopyState)
    (producer : NodeId) : Option CopyState :=
  match t.placementFor producer with
  | none => some s
  | some producerPlacement =>
    if t.sharesStorage producerPlacement consumerPlacement then some s
    else do
      let (s₁, source) ← s.stage (t.needsHostStaging producerPlacement consumerPlacement) producer
      let (s₂, copy) ← s₁.copyTo source consumerPlacement
      some { s₂ with rewires := s₂.rewires ++ [(consumer, producer, copy)] }

/-- One consumer; transfers are left alone. -/
def visit (t : Topology) (s : CopyState) (consumer : NodeId) : Option CopyState :=
  match t.placementFor consumer with
  | none => some s
  | some consumerPlacement => do
    let n ← s.graph.nodes[consumer]?
    if n.op.isTransfer then some s
    else n.inputs.foldlM (edge t consumer consumerPlacement) s

end CopyState

/-- `insert_cross_device_copies`: the new graph and the copies. -/
def insertCrossDeviceCopies (g : Graph) (roots : List NodeId) (t : Topology) :
    Option (Graph × List NodeId) := do
  let order ← topoOrderMulti g roots
  let s ← order.foldlM (CopyState.visit t) { graph := g }
  some (s.rewires.foldl (fun h r => h.rewriteInput r.1 r.2.1 r.2.2) s.graph, s.inserted)

/-- The pass on the arena; again no layout is derived. -/
def Arena.insertCrossDeviceCopies (a : Arena S) (roots : List NodeId) (t : Topology) :
    Option (Arena S × List NodeId) :=
  (Fuel.IR.insertCrossDeviceCopies a.toGraph roots t).map fun r => (a.withGraph r.1, r.2)

/-! ## Rewrite rules -/

inductive RuleFamily where
  | lowering | fusion | algebraic
  deriving DecidableEq, Repr

/-- What a rule does at a node: the nodes it appends, in order, the replacements it
names, and the tables of outputs and side effects it leaves. -/
structure Rewrite where
  pushed : List Node
  remap : List (NodeId × NodeId)
  sideEffectRoots : List NodeId
  nodeOutputViews : NodeId → Option (List OutputView)

structure Rule (S : Type) where
  family : RuleFamily
  fits : Arena S → NodeId → Bool
  rewrite : Arena S → NodeId → Rewrite

def Arena.pushAll (a : Arena S) (nodes : List Node) : Arena S := nodes.foldl Arena.push a

/-- The arena after a rewrite, before any redirection. -/
def Rewrite.apply (w : Rewrite) (a : Arena S) : Arena S :=
  { a.pushAll w.pushed with
    sideEffectRoots := w.sideEffectRoots
    nodeOutputViews := w.nodeOutputViews }

structure PassState (S : Type) where
  arena : Arena S
  remap : NodeId → Option NodeId := fun _ => none
  anyFired : Bool := false

namespace PassState

/-- A replacement recorded; a new key counts as progress. -/
def record (s : PassState S) (r : NodeId × NodeId) : PassState S :=
  { s with
    remap := Function.update s.remap r.1 (some r.2)
    anyFired := s.anyFired || (s.remap r.1).isNone }

/-- One node: the first rule of the family that fits rewrites it. -/
def visit (rules : List (Rule S)) (family : RuleFamily) (s : PassState S) (id : NodeId) :
    PassState S :=
  if (s.remap id).isSome then s
  else
    match rules.find? fun r => decide (r.family = family) && r.fits s.arena id with
    | none => s
    | some r =>
      let w := r.rewrite s.arena id
      w.remap.foldl record { s with arena := w.apply s.arena }

end PassState

/-- The inputs of one node redirected, position by position. -/
def redirectNode (remap : NodeId → Option NodeId) (g : Graph) (id : NodeId) : Graph :=
  (List.range (g.inputs id).length).foldl (fun h i =>
    match (h.inputs id)[i]? with
    | none => h
    | some cur =>
      match remap cur with
      | none => h
      | some new => h.rewriteInput id cur new) g

/-- Every node's inputs redirected. -/
def redirectAll (remap : NodeId → Option NodeId) (g : Graph) : Graph :=
  (List.range g.len).foldl (redirectNode remap) g

/-- `run_pass`: the arena, the roots, and whether a rule fired. -/
def Arena.runPass (a : Arena S) (rules : List (Rule S)) (family : RuleFamily)
    (roots : List NodeId) : Option (Arena S × List NodeId × Bool) := do
  let order ← topoOrderMulti a.toGraph roots
  let s := order.foldl (PassState.visit rules family) { arena := a }
  if s.anyFired then
    some (s.arena.withGraph (redirectAll s.remap s.arena.toGraph),
      roots.map fun r => (s.remap r).getD r, true)
  else some (s.arena, roots, false)

/-- Passes of one family until no rule fires. -/
inductive Fixpoint (rules : List (Rule S)) (family : RuleFamily) :
    Arena S → List NodeId → Arena S → List NodeId → Prop
  | quiet {a a' : Arena S} {roots roots' : List NodeId}
      (h : a.runPass rules family roots = some (a', roots', false)) :
      Fixpoint rules family a roots a' roots'
  | fired {a a' b : Arena S} {roots roots' result : List NodeId}
      (h : a.runPass rules family roots = some (a', roots', true))
      (hrest : Fixpoint rules family a' roots' b result) : Fixpoint rules family a roots b result

/-- `optimize_to_fixpoint` returns: lowering, then fusion, then algebraic rules. -/
inductive OptimizesTo (rules : List (Rule S)) :
    Arena S → List NodeId → Arena S → List NodeId → Prop
  | none {a : Arena S} {roots : List NodeId} (h : rules = []) : OptimizesTo rules a roots a roots
  | phases {a b c d : Arena S} {roots r₁ r₂ r₃ : List NodeId} (h : rules ≠ [])
      (h₁ : Fixpoint rules .lowering a roots b r₁) (h₂ : Fixpoint rules .fusion b r₁ c r₂)
      (h₃ : Fixpoint rules .algebraic c r₂ d r₃) : OptimizesTo rules a roots d r₃

/-! ## Fusion rules

A fused op's matcher looks at a node and finds the inputs and parameters of the
fused op that computes the same. -/

/-- `FusionRule`: one fused node in place of the node matched, of its shape and dtype. -/
def fusionRule (id : FusedOpId) (pattern : Graph → NodeId → Option (List NodeId × FusedOpParams)) :
    Rule S where
  family := .fusion
  fits a nid := (pattern a.toGraph nid).isSome
  rewrite a nid :=
    match pattern a.toGraph nid, a.nodes[nid]? with
    | some (inputs, params), some n =>
      ⟨[⟨.fused id params, inputs, n.shape, n.dtype⟩], [(nid, a.len)], a.sideEffectRoots,
        a.nodeOutputViews⟩
    | _, _ => ⟨[], [], a.sideEffectRoots, a.nodeOutputViews⟩

namespace FusedLinear

/-- How often a node is read, over the whole arena. -/
def countConsumers (g : Graph) (id : NodeId) : Nat := (g.nodes.flatMap Node.inputs).count id

/-- The bias behind an optional reshape that pads its one axis with leading ones,
and that reshape. -/
def peelPad (g : Graph) (operand : NodeId) : Option (NodeId × Option NodeId) := do
  let n ← g.nodes[operand]?
  match n.op, n.inputs with
  | .reshape _, [inner] => do
    let m ← g.nodes[inner]?
    if m.shape.dims.length = 1 ∧ n.shape.dims ≠ [] ∧ n.shape.dims.getLast? = m.shape.dims.head? ∧
        ∀ d ∈ n.shape.dims.dropLast, d = 1 then some (inner, some operand)
    else some (operand, none)
  | _, _ => some (operand, none)

/-- `canonical_pattern`: a product of matrices plus a broadcast bias. -/
def canonicalPattern (g : Graph) (addId : NodeId) : Option (List NodeId × FusedOpParams) := do
  let add ← g.nodes[addId]?
  match add.op, add.inputs with
  | .add, [mmId, rhsId] => do
    let mm ← g.nodes[mmId]?
    match mm.op, mm.inputs, mm.shape.dims.getLast? with
    | .matMul, [aId, bId], some lastDim => do
      let rhs ← g.nodes[rhsId]?
      let bcstOperand := match rhs.op, rhs.inputs with
        | .broadcastTo _, [operand] => operand
        | _, _ => rhsId
      let (biasSrc, padReshape) ← peelPad g bcstOperand
      let bias ← g.nodes[biasSrc]?
      if bias.shape.dims ≠ [lastDim] then none
      -- fusing must not compute the product twice nor drop a value someone reads
      else if countConsumers g mmId ≠ 1 then none
      else if padReshape.any fun pad => countConsumers g pad ≠ 1 then none
      else some ([aId, bId, biasSrc], .fusedLinear)
    | _, _, _ => none
  | _, _ => none

end FusedLinear

/-- Key of the fused product with bias. -/
def FusedOps.fusedLinear : FusedOpId := 2

end Fuel.IR
