import Fuel.Jit.Validate

/-!
# Fusing a region and decomposing it again

A match takes a region to nodes of a graph; the fused node that replaces them is
later decomposed by re-emitting the region. The two walks read attributes
differently. The matcher compares scalars, axis, permutation, target shape and
dimensions, where the region sets them; the emitter writes every attribute from
the region. `Agrees` is what the comparison leaves open, op by op.

Two differences are meant: a broadcast that raises the rank of its operand is
emitted over a reshape, and a fill value is converted to the type of the tensor
it fills. Up to these and the order of commutative operands, what is emitted is
what was matched.
-/

namespace Fuel.Jit

open Fuel.IR Method List Option

/-! ## One op -/

/-- The attributes are values of their machine types. -/
def Op.Machine : Op → Prop
  | .iota len => len < 2 ^ 64
  | .reshape s | .broadcastTo s => ∀ d ∈ s.dims, d < 2 ^ 64
  | .powI n => -2 ^ 31 ≤ n ∧ n < 2 ^ 31
  | op => op.InRange

/-- The attributes a match does not compare are those of the node. A permutation or a
target shape that is unset is a wildcard; axes are compared as bytes, shapes without
their dynamic extents, and floats with `==`. -/
def Agrees (conv : ScalarConv) (attrs : OpAttrs) : Op → Prop
  | .addScalar v | .mulScalar v => attrs.scalars = [] ∨ attrs.scalars = [v]
  | .permute axes => (attrs.perm = [] → axes = []) ∧ ∀ a ∈ axes, a < 256
  | .reshape s | .broadcastTo s | .reduceSumTo s | .reduceMaxTo s =>
    (attrs.targetShape = [] → s.dims = []) ∧ s.dynamic = none
  | .unsqueeze dim | .squeeze dim => dim < 256
  | .cast dt => attrs.castDtype = some dt.asStr
  | .slice _ start len => attrs.sliceStart = some start ∧ attrs.sliceLen = some len
  | .roll _ shift => attrs.rollShift = some shift
  | .pad padding mode value => attrs.padAmounts = padding ∧
    attrs.padMode = some (PadMode.code mode) ∧ attrs.padValue.getD 0 = value
  | .maskedFill v => attrs.scalars = [conv.toF64 v] ∧ attrs.castDtype = some v.dtype.asStr ∧
    conv.ofF64 (conv.toF64 v) v.dtype = some v
  | _ => True

section Attrs

variable {conv : ScalarConv} {attrs q : OpAttrs}

theorem attrsMatch_iff : attrsMatch attrs q = true ↔
    (attrs.scalars = [] ∨ Float64.eqAll attrs.scalars q.scalars = true) ∧
    (attrs.axis = none ∨ attrs.axis = q.axis) ∧ (attrs.perm = [] ∨ attrs.perm = q.perm) ∧
    (attrs.targetShape = [] ∨ attrs.targetShape = q.targetShape) ∧
    (attrs.dims = [] ∨ attrs.dims = q.dims) := by
  simp [attrsMatch, and_assoc]

theorem withSlots_slotScalars (h : attrs.scalars ≠ [] ∨ q.scalars = []) :
    attrs.withSlots (slotScalars attrs q) = attrs := by
  unfold slotScalars OpAttrs.withSlots
  rcases h with h | h
  · rw [if_neg h, if_pos rfl]
  · rw [h, ite_self, if_pos rfl]

variable {f : Nat → Op} {op : Op} {tag : OpTag}

/-- An axis that was compared is read back. -/
theorem axisOp_of_match {d : Nat} (hsome : (axisOp attrs f).isSome)
    (haxis : attrs.axis = none ∨ attrs.axis = some (asI64 d)) (hd : d < 2 ^ 64) :
    axisOp attrs f = some (f d) := by
  unfold axisOp at hsome ⊢
  rcases haxis with h | h
  · rw [h] at hsome
    cases hsome
  · rw [h, map_some, asUsize_asI64 hd]

/-- An axis that is not projected is never matched: re-emission needs it set. -/
theorem not_axisOp_of_match (haxis : attrs.axis = none ∨ attrs.axis = none) :
    (axisOp attrs f).isSome = false := by
  unfold axisOp
  rw [haxis.elim id id]
  rfl

theorem map_asUsize_asI64 {dims : List Nat} (h : ∀ d ∈ dims, d < 2 ^ 64) :
    (dims.map asI64).map asUsize = dims := by
  induction dims with
  | nil => rfl
  | cons d ds ih =>
    rw [map_cons, map_cons, asUsize_asI64 (h d mem_cons_self),
      ih fun e he => h e (mem_cons_of_mem _ he)]

theorem shapeFromAttr_of_match {s : Shape} (hsome : (shapeFromAttr attrs).isSome)
    (hmatch : attrs.targetShape = [] ∨ attrs.targetShape = s.dims.map asI64)
    (hwild : attrs.targetShape = [] → s.dims = []) (hstatic : s.dynamic = none)
    (hrange : ∀ d ∈ s.dims, d < 2 ^ 64) : shapeFromAttr attrs = some s := by
  have hs : s = .ofDims s.dims := by
    show s = ⟨s.dims, none⟩
    rw [← hstatic]
  unfold shapeFromAttr at hsome ⊢
  by_cases hnil : attrs.targetShape = []
  · rw [if_pos hnil] at hsome ⊢
    split at hsome
    · rename_i h0
      rw [if_pos h0, hs, hwild hnil]
    · cases hsome
  · rw [if_neg hnil, hmatch.resolve_left hnil, map_asUsize_asI64 hrange, ← hs]

theorem map_toNat_toUInt8 {axes : List Nat} (h : ∀ a ∈ axes, a < 256) :
    (axes.map Nat.toUInt8).map UInt8.toNat = axes := by
  induction axes with
  | nil => rfl
  | cons a as ih =>
    rw [map_cons, map_cons, ih fun b hb => h b (mem_cons_of_mem _ hb)]
    congr 1
    simpa using Nat.mod_eq_of_lt (h a mem_cons_self)

theorem padModeFromAttr_code (mode : PadMode) : padModeFromAttr (PadMode.code mode) = some mode := by
  cases mode <;> rfl

/-- **What was matched is re-emitted**: an op of the region, its slots filled from the node,
stands for the node's op. -/
theorem tagToOp_of_match (htag : opToTag op = some tag)
    (hvalid : (tagToOp conv tag (fillSlots tag attrs)).isSome)
    (hmatch : attrsMatch attrs (opToAttrs conv op) = true) (hagree : Agrees conv attrs op)
    (hmachine : Op.Machine op) :
    tagToOp conv tag (attrs.withSlots (slotScalars attrs (opToAttrs conv op))) = some op := by
  obtain ⟨hscalars, haxis, hperm, htarget, hdims⟩ := attrsMatch_iff.mp hmatch
  cases op
  all_goals cases htag
  case addScalar v | mulScalar v =>
    rcases hagree with h | h
    · unfold slotScalars OpAttrs.withSlots
      rw [if_pos h]
      rfl
    · rw [withSlots_slotScalars (.inl (by rw [h]; simp))]
      simp [tagToOp, h]
  case maskedFill v =>
    obtain ⟨hs, hcast, hconv⟩ := hagree
    rw [withSlots_slotScalars (.inl (by rw [hs]; simp))]
    have hdtype : fillDtype attrs = some v.dtype := by
      unfold fillDtype
      rw [hcast]
      exact DType.ofStr_asStr _
    simp [tagToOp, maskedFillFromAttrs, hs, hdtype, hconv]
  all_goals rw [fillSlots_of_arity rfl] at hvalid
  case powI n =>
    have hne : attrs.scalars ≠ [] := fun h => by simp [tagToOp, h] at hvalid
    obtain ⟨x, xs, hs⟩ := exists_cons_of_ne_nil hne
    have heq : Float64.eq x (Float64.ofInt n) = true := by
      have h := hscalars.resolve_left hne
      rw [hs] at h
      exact (Bool.and_eq_true_iff.mp h).1
    rw [withSlots_slotScalars (.inl hne)]
    simp [tagToOp, hs, Float64.toI32_of_eq hmachine.1 hmachine.2 heq]
  case cumSum | indexSelect | gather | indexAdd | scatterAdd =>
    exact absurd hvalid (by rw [Bool.not_eq_true]; exact not_axisOp_of_match haxis)
  case clamp => cases hvalid
  all_goals rw [withSlots_slotScalars (.inr rfl)]
  case sumDim dim | maxDim dim | meanDim dim | concat dim | flip dim =>
    exact axisOp_of_match hvalid haxis (hmachine dim mem_cons_self)
  case triu | tril =>
    have hax := haxis.resolve_left fun h => by simp [tagToOp, h] at hvalid
    simp only [tagToOp, hax]
    rfl
  case permute axes =>
    show some (Op.permute (attrs.perm.map UInt8.toNat)) = _
    by_cases hnil : attrs.perm = []
    · rw [hnil, hagree.1 hnil]
      rfl
    · rw [hperm.resolve_left hnil]
      exact congrArg (fun l => some (Op.permute l)) (map_toNat_toUInt8 hagree.2)
  case reshape s | broadcastTo s =>
    have hs := shapeFromAttr_of_match (by simpa [tagToOp] using hvalid) htarget hagree.1 hagree.2
      hmachine
    simp only [tagToOp, hs, map_some]
  case reduceSumTo s | reduceMaxTo s =>
    -- the target of these two is not compared, so it is unset
    have hnil := htarget.elim id id
    have hs := shapeFromAttr_of_match (by simpa [tagToOp] using hvalid) (.inl hnil) hagree.1
      hagree.2 (by rw [hagree.1 hnil]; simp)
    simp only [tagToOp, hs, map_some]
  case unsqueeze dim | squeeze dim =>
    have hdim := hdims.resolve_left fun h => by simp [tagToOp, h] at hvalid
    have hbyte : dim % 256 = dim := Nat.mod_eq_of_lt hagree
    simp [tagToOp, hdim, opToAttrs, hbyte]
  case slice dim start len =>
    have hax := haxis.resolve_left fun h => by simp [tagToOp, sliceFromAttrs, h] at hvalid
    show sliceFromAttrs attrs = _
    unfold sliceFromAttrs
    rw [hax, hagree.1, hagree.2]
    exact congrArg (fun d => some (Op.slice d start len))
      (asUsize_asI64 (hmachine dim mem_cons_self))
  case roll dim shift =>
    have hax := haxis.resolve_left fun h => by simp [tagToOp, rollFromAttrs, h] at hvalid
    show rollFromAttrs attrs = _
    unfold rollFromAttrs
    rw [hax, hagree]
    exact congrArg (fun d => some (Op.roll d shift))
      (asUsize_asI64 (hmachine dim mem_cons_self))
  case cast dt =>
    show (attrs.castDtype.bind DType.ofStr).map Op.cast = _
    rw [hagree, bind_some, DType.ofStr_asStr]
    rfl
  case iota len =>
    have hlen := htarget.resolve_left fun h => by simp [tagToOp, h] at hvalid
    show attrs.targetShape.head?.map (fun d => Op.iota (asUsize d)) = _
    rw [hlen]
    exact congrArg (fun d => some (Op.iota d)) (asUsize_asI64 hmachine)
  case pad padding mode value =>
    obtain ⟨hamounts, hmode, hvalue⟩ := hagree
    simp [tagToOp, padFromAttrs, hmode, hamounts, hvalue, padModeFromAttr_code]
  case matMul =>
    obtain ⟨op, hop⟩ := isSome_iff_exists.mp hvalid
    exact hop.trans (congrArg some (matMulFromAttrs_eq_some hop))
  all_goals rfl

theorem slotScalars_length_of_none (hq : q.scalars = []) (h0 : scalarSlotArity tag = 0) :
    (slotScalars attrs q).length = ownSlots tag attrs := by
  unfold slotScalars ownSlots
  rw [hq, h0, ite_self, ite_self]
  rfl

theorem slotScalars_length_of_set (h : attrs.scalars ≠ []) :
    (slotScalars attrs q).length = ownSlots tag attrs := by
  unfold slotScalars ownSlots
  rw [if_neg h, if_neg fun hc => h hc.1]
  rfl

/-- The matcher reads a scalar where the emitter takes one. -/
theorem slotScalars_length (htag : opToTag op = some tag)
    (hvalid : (tagToOp conv tag (fillSlots tag attrs)).isSome) (habs : attrs.scalarRel = none) :
    (slotScalars attrs (opToAttrs conv op)).length = ownSlots tag attrs := by
  cases op with
  | addScalar v =>
    cases htag
    by_cases h : attrs.scalars = []
    · unfold slotScalars ownSlots
      rw [if_pos h, if_pos ⟨h, habs⟩]
      rfl
    · exact slotScalars_length_of_set h
  | mulScalar v =>
    cases htag
    by_cases h : attrs.scalars = []
    · unfold slotScalars ownSlots
      rw [if_pos h, if_pos ⟨h, habs⟩]
      rfl
    · exact slotScalars_length_of_set h
  | powI n =>
    cases htag
    refine slotScalars_length_of_set fun h => ?_
    simp [fillSlots, scalarSlotArity, tagToOp, h] at hvalid
  | clamp min max =>
    cases htag
    cases hvalid
  | maskedFill v =>
    cases htag
    refine slotScalars_length_of_set fun h => ?_
    simp [fillSlots, scalarSlotArity, tagToOp, maskedFillFromAttrs, h] at hvalid
  | _ => cases htag <;> exact slotScalars_length_of_none rfl rfl

theorem opToTag_ne_fused (op : Op) : opToTag op ≠ some .fused := by
  cases op <;> intro h <;> cases h

theorem add_or_mul_of_tag (htag : opToTag op = some tag) (h : tag.isCommutative = true) :
    op = .add ∨ op = .mul := by
  cases op with
  | add => exact .inl rfl
  | mul => exact .inr rfl
  | _ => cases htag <;> cases h

end Attrs

/-! ## The region -/

/-- What a round trip needs beyond a match in which the region's ops take those of `taken`. -/
structure RoundTrips (conv : ScalarConv) (taken : List (OpAttrs × Op)) (region : PatternNode) :
    Prop where
  shares : SharesExactly region
  absolute : ∀ tag operands attrs, .op tag operands attrs ∈ region.subtrees →
    hasRelAttrs attrs = false
  agrees : ∀ pair ∈ taken, Agrees conv pair.1 pair.2

section Region

variable {conv : ScalarConv} {g : Graph} {region : PatternNode} {k : Nat}
  {taken : List (OpAttrs × Op)}

/-- An op of a validated region at a node it takes. -/
structure OpFits (conv : ScalarConv) (tag : OpTag) (attrs : OpAttrs) (n : Node) : Prop where
  absolute : hasRelAttrs attrs = false
  valid : (tagToOp conv tag (fillSlots tag attrs)).isSome
  slots : (slotScalars attrs (opToAttrs conv n.op)).length = ownSlots tag attrs
  prim : tagToOp conv tag (attrs.withSlots (slotScalars attrs (opToAttrs conv n.op))) = some n.op

variable {id : NodeId} (hvalid : validateNode conv k region = .ok ())
  (hround : RoundTrips conv taken region)
  (hmachine : ∀ (id : NodeId) (n : Node), g.nodes[id]? = some n → Op.Machine n.op)

include hvalid hround hmachine

theorem opFits {tag : OpTag} {operands : List PatternNode} {attrs : OpAttrs}
    (hmem : .op tag operands attrs ∈ region.subtrees) {n : Node} (hn : g.nodes[id]? = some n)
    {ids : List NodeId} (hop : OpMatched conv taken tag attrs operands.length n ids) :
    OpFits conv tag attrs n := by
  have habs := hround.absolute tag operands attrs hmem
  have hsub := validateNode_subtree hvalid hmem
  obtain ⟨_, hvop, -⟩ := bind_eq_ok.mp hsub
  have hv := tagToOp_of_validateOp hvop habs
  exact ⟨habs, hv, slotScalars_length hop.sameTag hv (scalarRel_of_absolute habs),
    tagToOp_of_match hop.sameTag hv hop.agree
      (hround.agrees _ hop.mem_taken) (hmachine id n hn)⟩

/-- A matched subtree of a validated region is emitted, with the scalars the match read. -/
theorem Matched.emittable {B : UInt8 → Option NodeId} {nInputs : Nat}
    (hB : ∀ (i : UInt8) (id : NodeId), B i = some id → i.toNat < nInputs) {p : PatternNode}
    (hmem : p ∈ region.subtrees) {ss : List UInt64} (h : Matched conv g taken B p id ss) :
    Emittable conv nInputs p ∧ ss.length = countScalarSlots p := by
  induction p using PatternNode.induct generalizing id ss with
  | op tag operands attrs ih =>
    obtain ⟨n, ids, rest, hn, hop, rfl, hall⟩ := h
    have hfits := opFits hvalid hround hmachine hmem hn hop
    have hoperands : EmittableAll conv nInputs operands ∧
        rest.length = countScalarSlotsAll operands := by
      have hmems := fun q hq => PatternNode.operand_mem_subtrees (q := q) hmem hq
      have hlen := hop.length_eq
      clear hop hfits hmem
      induction operands generalizing ids rest with
      | nil => exact ⟨trivial, congrArg List.length hall⟩
      | cons q qs ihqs =>
        cases ids with
        | nil => cases hlen
        | cons c cs =>
          obtain ⟨s₁, s₂, rfl, hq, hqs⟩ := hall
          obtain ⟨he, hs⟩ := ih q mem_cons_self (hmems q mem_cons_self) hq
          obtain ⟨hes, hss⟩ := ihqs (fun r hr => ih r (mem_cons_of_mem _ hr)) cs s₂ hqs
            (fun r hr => hmems r (mem_cons_of_mem _ hr)) (Nat.succ.inj hlen)
          exact ⟨⟨he, hes⟩, by rw [length_append, hs, hss]; rfl⟩
    refine ⟨⟨⟨hfits.absolute, fun own hown => ?_, fun own fid params hf => ?_⟩, hoperands.1⟩, ?_⟩
    · exact isSome_withSlots hfits.valid (scalarRel_of_absolute hfits.absolute) hown
    · -- no node of the graph is taken by a fused op
      exact absurd (tag_eq_fused hf ▸ hop.sameTag) (opToTag_ne_fused n.op)
    · rw [length_append, hfits.slots, hoperands.2]
      rfl
  | bind i => exact ⟨hB i id h.1, congrArg List.length h.2⟩
  | seeThrough inner _ =>
    have hsub := validateNode_subtree hvalid hmem
    cases hsub
  | any =>
    have hsub := validateNode_subtree hvalid hmem
    cases hsub

end Region

/-! ## The expression, matched and emitted -/

/-- Node `id` of the graph and node `id'` of the arena are one expression over the bound
nodes, up to the order of commutative operands. `Stands op m args` is how a node of the
arena stands for an op over its operands. -/
inductive SameExpr (Stands : Op → Node → List NodeId → Prop) (g b : Graph) (binds : List NodeId) :
    NodeId → NodeId → Prop where
  | bound {id : NodeId} : id ∈ binds → SameExpr Stands g b binds id id
  | node {id id' : NodeId} {n m : Node} {args : List NodeId} : g.nodes[id]? = some n →
      b.nodes[id']? = some m → Stands n.op m args →
      List.Forall₂ (SameExpr Stands g b binds) n.inputs args → SameExpr Stands g b binds id id'
  | swapped {id id' x y u v : NodeId} {n m : Node} : g.nodes[id]? = some n →
      b.nodes[id']? = some m → n.op = .add ∨ n.op = .mul → Stands n.op m [u, v] →
      n.inputs = [x, y] → SameExpr Stands g b binds y u → SameExpr Stands g b binds x v →
      SameExpr Stands g b binds id id'

/-- The same op over the same operands. -/
def Exactly (op : Op) (m : Node) (args : List NodeId) : Prop := m.op = op ∧ m.inputs = args

variable {S : Type}

/-- The op over its operands as it is emitted: a fill value has the type of the tensor it
fills, and a broadcast that raises the rank of its operand reads a reshape of it. -/
def AsEmitted (conv : ScalarConv) (b : Arena S) (op : Op) (m : Node) (args : List NodeId) : Prop :=
  ∃ children, List.Forall₂ (fun (c : NodeId) n => b.nodes[c]? = some n) args children ∧
    m.op = refillMasked conv op (children.map Node.dtype) ∧ Feeds b 0 m.op args children m.inputs

section Compare

variable {conv : ScalarConv} {g : Graph} {region : PatternNode} {k : Nat} {b : Arena S} {base : Nat}
  {binds : List NodeId} {bindShapes : List (List Int)} {B : UInt8 → Option NodeId} {p : PatternNode}
  {id : NodeId} {ss : List UInt64} {taken : List (OpAttrs × Op)}

/-- **What is emitted is what was matched.** -/
theorem sameExpr_of_emitted (hvalid : validateNode conv k region = .ok ())
    (hround : RoundTrips conv taken region)
    (hmachine : ∀ (id : NodeId) (n : Node), g.nodes[id]? = some n → Op.Machine n.op)
    (hB : ∀ (i : UInt8) (id : NodeId), B i = some id → binds[i.toNat]? = some id)
    (hmem : p ∈ region.subtrees) {id' : NodeId} (hmatched : Matched conv g taken B p id ss)
    (hemitted : Emitted conv b base binds bindShapes p ss id') :
    SameExpr (AsEmitted conv b) g b.toGraph binds id id' := by
  have hlt : ∀ (i : UInt8) (id : NodeId), B i = some id → i.toNat < binds.length := fun i id hi =>
    (lt_of_getElem? (hB i id hi))
  induction p using PatternNode.induct generalizing id id' ss with
  | op tag operands attrs ih =>
    obtain ⟨n, ids, rest, hn, hop, hss, hall⟩ := hmatched
    obtain ⟨own, rest', childIds, hss', hown, hall', hopE⟩ := hemitted
    have hfits := opFits hvalid hround hmachine hmem hn hop
    -- both walks cut the scalars at the same place
    obtain ⟨rfl, rfl⟩ : own = slotScalars attrs (opToAttrs conv n.op) ∧ rest' = rest :=
      append_inj (hss'.symm.trans hss) (hown.trans hfits.slots.symm)
    have hchildren : List.Forall₂ (SameExpr (AsEmitted conv b) g b.toGraph binds) ids childIds := by
      have hmems := fun q hq => PatternNode.operand_mem_subtrees (q := q) hmem hq
      have hlen := hop.length_eq
      clear hop hfits hmem hopE hss hss' hown hn
      induction operands generalizing ids rest' childIds with
      | nil =>
        rw [length_eq_zero_iff.mp hlen, hall'.2]
        exact .nil
      | cons q qs ihqs =>
        cases ids with
        | nil => cases hlen
        | cons c cs =>
          obtain ⟨s₁, s₂, rfl, hq, hqs⟩ := hall
          obtain ⟨t₁, t₂, d, ds, hst, rfl, hq', hqs'⟩ := hall'
          have hs := (hq.emittable hvalid hround hmachine hlt (hmems q mem_cons_self)).2
          obtain ⟨rfl, rfl⟩ := append_inj hst (hs.trans hq'.length_eq.symm)
          exact .cons (ih q mem_cons_self (hmems q mem_cons_self) hq hq')
            (ihqs (fun r hr => ih r (mem_cons_of_mem _ hr)) cs s₂ ds hqs' hqs
              (fun r hr => hmems r (mem_cons_of_mem _ hr)) (Nat.succ.inj hlen))
    obtain ⟨children, resolved, prim, m, hlook, hres, hprim, -, hm, hmop, -, hfeeds⟩ := hopE
    -- absolute attributes are emitted as they are
    have hprim' : prim = n.op := by
      unfold Resolves at hres
      rw [hasRelAttrs_withSlots, hfits.absolute] at hres
      rw [hres, hfits.prim] at hprim
      exact (some.inj hprim).symm
    have hstands : AsEmitted conv b n.op m childIds :=
      ⟨children, hlook, hprim' ▸ hmop, hfeeds.mono (.refl _) (Nat.zero_le _)⟩
    rcases hop.order with rfl | ⟨hcomm, harity, rfl⟩
    · exact .node hn hm hstands hchildren
    have hlen := hop.inputs.trans harity
    match hin : n.inputs, hlen with
    | [x, y], _ =>
      rw [hin] at hchildren
      cases hchildren with
      | cons hy hrest =>
        cases hrest with
        | cons hx hnil =>
          cases hnil
          exact .swapped hn hm (add_or_mul_of_tag hop.sameTag hcomm) hstands hin hy hx
  | bind i =>
    obtain rfl : id = id' := some.inj ((hB i id hmatched.1).symm.trans hemitted.1)
    exact .bound (mem_of_getElem? hemitted.1)
  | seeThrough _ _ => exact hemitted.elim
  | any => exact hemitted.elim

/-- Every bound node of a match is in the graph. -/
theorem Matched.bound_lt
    (hin : ∀ (id : NodeId) (n : Node), g.nodes[id]? = some n → ∀ i ∈ n.inputs, i < g.len)
    (h : Matched conv g taken B p id ss) (hid : id < g.len) :
    ∀ i ∈ p.collectBinds, ∀ j : NodeId, B i = some j → j < g.len := by
  induction p using PatternNode.induct generalizing id ss with
  | op tag operands attrs ih =>
    obtain ⟨n, ids, rest, hn, hop, -, hall⟩ := h
    have hids : ∀ (c : NodeId), c ∈ ids → c < g.len := by
      intro c hc
      rcases hop.order with rfl | ⟨-, -, rfl⟩
      · exact hin id n hn c hc
      · exact hin id n hn c (mem_reverse.mp hc)
    have hlen := hop.length_eq
    clear hop hn
    induction operands generalizing ids rest with
    | nil => intro i hi; cases hi
    | cons q qs ihqs =>
      cases ids with
      | nil => cases hlen
      | cons c cs =>
        obtain ⟨s₁, s₂, -, hq, hqs⟩ := hall
        intro i hi
        rcases mem_append.mp hi with hi | hi
        · exact ih q mem_cons_self hq (hids c mem_cons_self) i hi
        · exact ihqs (fun r hr => ih r (mem_cons_of_mem _ hr)) cs s₂ hqs
            (fun d hd => hids d (mem_cons_of_mem _ hd)) (Nat.succ.inj hlen) i hi
  | bind j =>
    intro i hi k hk
    rw [mem_singleton.mp hi, h.1] at hk
    exact some.inj hk ▸ hid
  | seeThrough inner ih => exact ih h hid
  | any => intro i hi; cases hi

end Compare

theorem bindOperandShapes_isSome {a : Arena S} {inputs : List NodeId}
    (h : ∀ (i : NodeId), i ∈ inputs → i < a.len) :
    ∃ bindShapes, bindOperandShapes a inputs = some bindShapes := by
  induction inputs with
  | nil => exact ⟨[], rfl⟩
  | cons i is ih =>
    obtain ⟨shapes, hshapes⟩ := ih fun j hj => h j (mem_cons_of_mem _ hj)
    have hi : i < a.len := h i mem_cons_self
    have hnode : (a.nodes[i]?).map (fun n => shapeExprOperand n.shape) = some _ :=
      congrArg (Option.map _) (getElem?_eq_getElem (l := a.nodes) hi)
    exact ⟨_ :: shapes, mapM_eq_some_iff.mpr (.cons hnode (mapM_eq_some_iff.mp hshapes))⟩

/-! ## The round trip -/

/-- The fused node is decomposed, into the expression at the root. -/
def DecomposesTo (Stands : Arena S → Op → Node → List NodeId → Prop) (conv : ScalarConv)
    (runtimeRegion : FusedOpId → Option PatternNode) (g : Graph) (root : NodeId)
    (binds : List NodeId) (a : Arena S) (fusedId : NodeId) : Prop :=
  ∃ out b, decomposeRegion conv runtimeRegion a fusedId = .ok out b ∧ a.Grows b ∧
    SameExpr (Stands b) g b.toGraph binds root out

/-- **Fuse, then decompose.** Where a validated region matches, the fused node built from
the match decomposes into the matched expression. -/
theorem decompose_matched {conv : ScalarConv} {runtimeRegion : FusedOpId → Option PatternNode}
    {g : Graph} {a : Arena S} {region : PatternNode} {root fusedId : NodeId}
    {consumers : NodeId → Nat} {binds : List NodeId} {scalars : List UInt64} {fid : FusedOpId}
    {shape : Shape} {dtype : DType} (hvalid : validateRecipe conv region = .ok ())
    (hin : ∀ (id : NodeId) (n : Node), g.nodes[id]? = some n → ∀ i ∈ n.inputs, i < g.len)
    (hmachine : ∀ (id : NodeId) (n : Node), g.nodes[id]? = some n → Op.Machine n.op)
    (hroot : root < g.len)
    (hround : RoundTrips conv (takenOps conv g consumers true root {} region) region)
    (hmatch : matchRegionExtract conv g root region consumers = some (binds, scalars))
    (hgrows : g.Extends a.toGraph)
    (hfused : a.nodes[fusedId]? = some ⟨.fused fid (.runtime scalars), binds, shape, dtype⟩)
    (hregion : runtimeRegion fid = some region) :
    DecomposesTo (AsEmitted conv) conv runtimeRegion g root binds a fusedId := by
  -- the match
  obtain ⟨t, hwalk, hmatch⟩ := bind_eq_some_iff.mp hmatch
  obtain ⟨binds', hcontig, hmatch⟩ := bind_eq_some_iff.mp hmatch
  cases hmatch
  obtain ⟨-, honly, ss, hss, hmatched⟩ := matchNode_walked hwalk (Subset.refl _)
  have hmatched := hmatched t.binds fun _ _ h => h
  rw [show ss = t.scalars from hss.symm] at hmatched
  -- its binds are the region's
  obtain ⟨n, hn, hbinds⟩ := mem_collectBinds_of_validateRecipe hvalid
  have hdom : ∀ i : UInt8, (t.binds i).isSome ↔ i.toNat < n := by
    intro i
    rw [← hbinds]
    constructor
    · intro hi
      obtain ⟨j, hj⟩ := isSome_iff_exists.mp hi
      exact (honly i j hj).resolve_left (by simp)
    · exact hmatched.bound i
  obtain ⟨hB, honto⟩ := contiguousBinds_eq_some hn hdom hcontig
  have hnode : validateNode conv region.bindIndices.length region = .ok () := by
    unfold validateRecipe at hvalid
    simp only at hvalid
    split at hvalid
    · exact hvalid
    · cases hvalid
  obtain ⟨hemittable, hslots⟩ := hmatched.emittable hnode hround hmachine
    (fun i id hi => (lt_of_getElem? (hB i id hi))) region.mem_subtrees_self
  -- the bound nodes are in the arena
  have hlen : g.len ≤ a.len := by
    by_contra hlt
    have hpast : a.nodes[a.len]? = none := getElem?_eq_none (Nat.le_refl _)
    rw [hgrows a.len (Nat.lt_of_not_le hlt)] at hpast
    exact hlt (List.getElem?_eq_none_iff.mp hpast)
  have hinputs : ∀ (i : NodeId), i ∈ binds → i < a.len := by
    intro id hid
    obtain ⟨i, hi⟩ := honto id hid
    have hi' : i ∈ region.collectBinds := (hbinds i).mpr ((hdom i).mp (by rw [hi]; rfl))
    exact Nat.lt_of_lt_of_le (hmatched.bound_lt hin hroot i hi' id hi) hlen
  obtain ⟨bindShapes, hshapes⟩ := bindOperandShapes_isSome hinputs
  -- the emission
  have hinv : EmitInv conv region a.len binds bindShapes
      ({ arena := a, scalars := t.scalars } : EmitState S) :=
    ⟨Nat.le_refl _, fun e he => (nomatch he)⟩
  obtain ⟨out, u, hemit⟩ := emit_returns hemittable hround.shares region.mem_subtrees_self hinv
    hinputs (Nat.le_of_eq hslots.symm)
  obtain ⟨taken, htaken, hgrew, -, hemitted⟩ :=
    emit_spec hinv hround.shares region.mem_subtrees_self hemit
  have hall : taken = t.scalars := by
    have hcut := congrArg List.length htaken
    rw [length_append, hemitted.length_eq] at hcut
    have hdone : u.scalars = [] := length_eq_zero_iff.mp (by
      have : t.scalars.length = countScalarSlots region + u.scalars.length := hcut
      omega)
    rw [hdone, append_nil] at htaken
    exact htaken.symm
  rw [hall] at hemitted
  refine ⟨out, u.arena, ?_, hgrew,
    sameExpr_of_emitted hnode hround hmachine hB region.mem_subtrees_self hmatched hemitted⟩
  unfold decomposeRegion
  rw [hfused]
  simp only [fusedScalars, hregion, hslots, ne_eq, not_true_eq_false, if_false]
  unfold tryEmitRegion
  rw [hshapes]
  simp only [hemit]

namespace Samples

/-- Conversions of 64-bit floats. -/
def conv : ScalarConv where
  ofF64 x dt := if dt = .f64 then some (.f64 x) else none
  toF64
    | .f64 x => x
    | _ => 0

/-- A product with a shifted tensor; the shift is left open. -/
def shifted : PatternNode :=
  .plain .mul [.bind 0, .plain .addScalar [.bind 1]]

/-- The shifted tensor stands first. -/
def shiftedGraph : Graph where
  nodes := [⟨.const, [], .ofDims [3], .f32⟩, ⟨.const, [], .ofDims [3], .f32⟩,
    ⟨.addScalar 0x4004000000000000, [1], .ofDims [3], .f32⟩, ⟨.mul, [2, 0], .ofDims [3], .f32⟩]

def fusedNode (scalars : List UInt64) (binds : List NodeId) : Node :=
  ⟨.fused 1000 (.runtime scalars), binds, .ofDims [3], .f32⟩

def shiftedArena : Arena Unit where
  nodes := shiftedGraph.nodes ++ [fusedNode [0x4004000000000000] [0, 1]]

/-- A vector broadcast to a matrix. -/
def raise : PatternNode := .op .broadcastTo [.bind 0] { targetShape := [2, 3] }

def raiseGraph : Graph where
  nodes := [⟨.const, [], .ofDims [3], .f32⟩, ⟨.broadcastTo (.ofDims [2, 3]), [0], .ofDims [2, 3], .f32⟩]

def raiseArena : Arena Unit where
  nodes := raiseGraph.nodes ++ [fusedNode [] [0]]

/-- The sum over the last axis. -/
def sumLast : PatternNode := .op .sumDim [.bind 0] { axisLast := true }

/-- A sum over the first axis of two. -/
def sumGraph : Graph where
  nodes := [⟨.const, [], .ofDims [2, 3], .f32⟩, ⟨.sumDim 0, [0], .ofDims [3], .f32⟩]

def sumArena : Arena Unit where
  nodes := sumGraph.nodes ++ [fusedNode [] [0]]

end Samples

open Samples in
theorem shifted_roundTrips : RoundTrips conv
    (takenOps conv shiftedGraph (fun _ => 1) true 3 {} shifted) shifted := by
  have hsub : shifted.subtrees = [shifted, .bind 0, .plain .addScalar [.bind 1], .bind 1] := rfl
  have htaken : takenOps conv shiftedGraph (fun _ => 1) true 3 {} shifted =
      [({}, .mul), ({}, .addScalar 0x4004000000000000)] := rfl
  refine ⟨?_, ?_, ?_⟩
  · intro p hp q hq h
    rw [hsub] at hp hq
    fin_cases hp <;> fin_cases hq <;> first | rfl | cases h
  · intro tag operands attrs hmem
    rw [hsub] at hmem
    simp only [mem_cons, not_mem_nil, shifted, PatternNode.plain, PatternNode.op.injEq,
      reduceCtorEq, or_false, false_or] at hmem
    rcases hmem with ⟨-, -, rfl⟩ | ⟨-, -, rfl⟩
    · rfl
    · rfl
  · rw [htaken]
    intro pair hpair
    fin_cases hpair
    · trivial
    · exact .inl rfl

open Samples in
theorem decompose_matched_swapped :
    matchRegionExtract conv shiftedGraph 3 shifted (fun _ => 1) =
        some ([0, 1], [0x4004000000000000]) ∧
      DecomposesTo (AsEmitted conv) conv (fun _ => some shifted) shiftedGraph 3 [0, 1]
        shiftedArena 4 := by
  have hmatch : matchRegionExtract conv shiftedGraph 3 shifted (fun _ => 1) =
      some ([0, 1], [0x4004000000000000]) := rfl
  have hfused : shiftedArena.nodes[4]? = some (fusedNode [0x4004000000000000] [0, 1]) := rfl
  have hnodes : ∀ (id : NodeId) (n : Node), shiftedGraph.nodes[id]? = some n →
      (∀ i ∈ n.inputs, i < shiftedGraph.len) ∧ Op.Machine n.op := by
    intro id n hn
    have hnode := mem_of_getElem? hn
    simp only [shiftedGraph, mem_cons, not_mem_nil, or_false] at hnode
    rcases hnode with rfl | rfl | rfl | rfl <;>
      exact ⟨by decide, fun d hd => (nomatch hd)⟩
  refine ⟨hmatch, decompose_matched rfl (fun id n hn => (hnodes id n hn).1)
    (fun id n hn => (hnodes id n hn).2) (by decide) shifted_roundTrips hmatch ?_ hfused rfl⟩
  intro id hid
  exact getElem?_append_left hid

open Samples in
theorem decompose_differs :
    (validateRecipe conv raise = .ok () ∧
      matchRegionExtract conv raiseGraph 1 raise (fun _ => 1) = some ([0], []) ∧
      ¬ DecomposesTo (fun _ => Exactly) conv (fun _ => some raise) raiseGraph 1 [0] raiseArena 2) ∧
    validateRecipe conv sumLast = .ok () ∧
      matchRegionExtract conv sumGraph 1 sumLast (fun _ => 1) = some ([0], []) ∧
      ¬ DecomposesTo (fun _ => Exactly) conv (fun _ => some sumLast) sumGraph 1 [0] sumArena 2 := by
  refine ⟨⟨rfl, rfl, ?_⟩, rfl, rfl, ?_⟩
  · rintro ⟨out, b, hdec, -, hsame⟩
    cases hdec
    cases hsame with
    | node hn hm hst hall =>
      -- the emitted broadcast reads a reshape, the matched one the vector
      cases hn
      cases hm
      obtain ⟨-, rfl⟩ := hst
      cases hall with
      | cons h0 _ =>
        cases h0 with
        | node hn' hm' hst' _ =>
          cases hn'
          cases hm'
          cases hst'.1
        | swapped hn' _ hop _ _ _ _ =>
          cases hn'
          rcases hop with h | h <;> cases h
    | swapped hn _ hop _ _ _ _ =>
      cases hn
      rcases hop with h | h <;> cases h
  · rintro ⟨out, b, hdec, -, hsame⟩
    cases hdec
    cases hsame with
    | node hn hm hst _ =>
      -- the axes differ
      cases hn
      cases hm
      cases hst.1
    | swapped hn _ hop _ _ _ _ =>
      cases hn
      rcases hop with h | h <;> cases h

end Fuel.Jit
