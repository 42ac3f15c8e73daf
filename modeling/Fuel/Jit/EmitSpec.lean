import Fuel.Jit.Emit
import Fuel.IR.Valuation

/-!
# What emitting a region leaves

`Emitted` says that a node of the arena is the re-emission of a region: node by
node along the tree, which op stands where and what it reads. `emit_spec` is
that every call that returns leaves such a node, `emit_returns` that a region
with absolute attributes is emitted whatever the shapes.

The memo table compares floats with `==`, for which the two zeros are one, so the
results are about regions with no two subtrees that differ only there.
-/

namespace Fuel.Jit

open Fuel.IR Method List PatternNode Outcome

variable {S : Type}

/-! ## Shared subtrees -/

mutual

/-- The tree and everything below it. -/
def PatternNode.subtrees : PatternNode → List PatternNode
  | .op tag operands attrs => .op tag operands attrs :: subtreesAll operands
  | .bind i => [.bind i]
  | .seeThrough inner => .seeThrough inner :: inner.subtrees
  | .any => [.any]

def subtreesAll : List PatternNode → List PatternNode
  | [] => []
  | p :: ps => p.subtrees ++ subtreesAll ps

end

variable {ps : List PatternNode} {q : PatternNode}

theorem mem_subtreesAll : q ∈ subtreesAll ps ↔ ∃ p ∈ ps, q ∈ p.subtrees := by
  induction ps with
  | nil => simp [subtreesAll]
  | cons p ps ih => simp [subtreesAll, ih]

theorem PatternNode.mem_subtrees_self (p : PatternNode) : p ∈ p.subtrees := by
  cases p <;> exact mem_cons_self

theorem PatternNode.operand_mem_subtrees {p : PatternNode} {tag : OpTag}
    {operands : List PatternNode} {attrs : OpAttrs} (h : .op tag operands attrs ∈ p.subtrees)
    (hq : q ∈ operands) : q ∈ p.subtrees := by
  induction p using induct with
  | op tag' operands' attrs' ih =>
    rcases mem_cons.mp h with heq | hbelow
    · cases heq
      exact mem_cons_of_mem _ (mem_subtreesAll.mpr ⟨q, hq, q.mem_subtrees_self⟩)
    · obtain ⟨r, hr, hin⟩ := mem_subtreesAll.mp hbelow
      exact mem_cons_of_mem _ (mem_subtreesAll.mpr ⟨r, hr, ih r hr hin⟩)
  | bind i => cases mem_singleton.mp h
  | seeThrough inner ih =>
    rcases mem_cons.mp h with heq | hbelow
    · cases heq
    · exact mem_cons_of_mem _ (ih hbelow)
  | any => cases mem_singleton.mp h

/-- Subtrees of the region that the memo table takes for one are one: none differ only in
the sign of a zero. -/
def SharesExactly (region : PatternNode) : Prop :=
  ∀ p ∈ region.subtrees, ∀ q ∈ region.subtrees, p.beq q = true → p = q

/-! ## Emitted nodes -/

/-- The attributes an op is emitted with. -/
def Resolves (tag : OpTag) (attrs : OpAttrs) (bindShapes : List (List Int)) (children : List Node)
    (resolved : OpAttrs) : Prop :=
  if hasRelAttrs attrs then
    resolveRelAttrs tag attrs bindShapes (children.map fun c => shapeExprOperand c.shape) =
      .ok resolved
  else resolved = attrs

/-- What an op with the given children reads: the children, or a padding reshape of the
first and the others. -/
def Feeds (a : Arena S) (base : Nat) (op : Op) (childIds : List NodeId) (children : List Node)
    (inputs : List NodeId) : Prop :=
  match raisedRank op children with
  | none => inputs = childIds
  | some padShape => ∃ (id pad : NodeId) (ids : List NodeId) (m : Node), childIds = id :: ids ∧
      inputs = pad :: ids ∧ base ≤ pad ∧ a.nodes[pad]? = some m ∧ m.op = .reshape padShape ∧
      m.inputs = [id]

/-- Ops whose type does not come from their children's types alone. -/
def isStructural : Op → Bool
  | .scan _ _ _ _ _ | .view _ | .fused _ _ | .scanPlaceholder _ _ => true
  | _ => false

/-- The type is the one the op gives its children's types. -/
def TypedAs (op : Op) (children : List Node) (n : Node) : Prop :=
  isStructural op = false → (n.shape, n.dtype) =
    (primitiveShape op (children.map Node.shape) (children.map Node.dtype)).getD
      (fallbackType children)

/-- Node `id`, appended after the first `base` nodes, is the op with these children. -/
def OpEmitted (conv : ScalarConv) (a : Arena S) (base : Nat) (bindShapes : List (List Int))
    (tag : OpTag) (attrs : OpAttrs) (childIds : List NodeId) (id : NodeId) : Prop :=
  ∃ (children : List Node) (resolved : OpAttrs) (prim : Op) (n : Node),
    List.Forall₂ (fun (c : NodeId) m => a.nodes[c]? = some m) childIds children ∧
    Resolves tag attrs bindShapes children resolved ∧ tagToOp conv tag resolved = some prim ∧
    base ≤ id ∧ a.nodes[id]? = some n ∧ n.op = refillMasked conv prim (children.map Node.dtype) ∧
    TypedAs n.op children n ∧ Feeds a base n.op childIds children n.inputs

/-- The attributes with an open slot filled. -/
def OpAttrs.withSlots (attrs : OpAttrs) (own : List UInt64) : OpAttrs :=
  if own = [] then attrs else { attrs with scalars := own }

mutual

/-- Node `id` is the re-emission of a region over `inputs`, with its open slots filled by `ss`. -/
def Emitted (conv : ScalarConv) (a : Arena S) (base : Nat) (inputs : List NodeId)
    (bindShapes : List (List Int)) : PatternNode → List UInt64 → NodeId → Prop
  | .bind i, ss, id => inputs[i.toNat]? = some id ∧ ss = []
  | .op tag operands attrs, ss, id => ∃ own rest childIds, ss = own ++ rest ∧
      own.length = ownSlots tag attrs ∧
      EmittedAll conv a base inputs bindShapes operands rest childIds ∧
      OpEmitted conv a base bindShapes tag (attrs.withSlots own) childIds id
  | .seeThrough _, _, _ | .any, _, _ => False

def EmittedAll (conv : ScalarConv) (a : Arena S) (base : Nat) (inputs : List NodeId)
    (bindShapes : List (List Int)) : List PatternNode → List UInt64 → List NodeId → Prop
  | [], ss, ids => ss = [] ∧ ids = []
  | p :: ps, ss, ids => ∃ s₁ s₂ id ids', ss = s₁ ++ s₂ ∧ ids = id :: ids' ∧
      Emitted conv a base inputs bindShapes p s₁ id ∧
      EmittedAll conv a base inputs bindShapes ps s₂ ids'

end

section Growth

variable {conv : ScalarConv} {a b : Arena S} {base base' : Nat} {inputs : List NodeId}
  {bindShapes : List (List Int)} {childIds ids : List NodeId} {id : NodeId} {ss : List UInt64}

theorem Feeds.mono {op : Op} {children : List Node} (h : Feeds a base op childIds children ids)
    (hab : a.Grows b) (hle : base' ≤ base) : Feeds b base' op childIds children ids := by
  unfold Feeds at h ⊢
  cases hr : raisedRank op children with
  | none => simpa only [hr] using h
  | some padShape =>
    simp only [hr] at h ⊢
    obtain ⟨id, pad, ids', m, hids, hinputs, hbase, hm, hop, hread⟩ := h
    exact ⟨id, pad, ids', m, hids, hinputs, hle.trans hbase, hab.node hm, hop, hread⟩

theorem OpEmitted.mono {tag : OpTag} {attrs : OpAttrs}
    (h : OpEmitted conv a base bindShapes tag attrs childIds id) (hab : a.Grows b)
    (hle : base' ≤ base) : OpEmitted conv b base' bindShapes tag attrs childIds id := by
  obtain ⟨children, resolved, prim, n, hchildren, hres, hprim, hbase, hn, hop, htype, hfeeds⟩ := h
  exact ⟨children, resolved, prim, n, hchildren.imp fun _ _ hm => hab.node hm, hres, hprim,
    hle.trans hbase, hab.node hn, hop, htype, hfeeds.mono hab hle⟩

theorem EmittedAll.imp {ps : List PatternNode}
    (h : EmittedAll conv a base inputs bindShapes ps ss ids)
    (himp : ∀ p ∈ ps, ∀ {ss id}, Emitted conv a base inputs bindShapes p ss id →
      Emitted conv b base inputs bindShapes p ss id) :
    EmittedAll conv b base inputs bindShapes ps ss ids := by
  induction ps generalizing ss ids with
  | nil => exact h
  | cons p ps ih =>
    obtain ⟨s₁, s₂, c, cs, hs, hids, hp, hps⟩ := h
    exact ⟨s₁, s₂, c, cs, hs, hids, himp p mem_cons_self hp,
      ih hps fun q hq => himp q (mem_cons_of_mem _ hq)⟩

theorem Emitted.mono {p : PatternNode} (h : Emitted conv a base inputs bindShapes p ss id)
    (hab : a.Grows b) : Emitted conv b base inputs bindShapes p ss id := by
  induction p using PatternNode.induct generalizing ss id with
  | op tag operands attrs ih =>
    obtain ⟨own, rest, childIds, hss, hown, hall, hop⟩ := h
    exact ⟨own, rest, childIds, hss, hown, hall.imp fun q hq _ _ h => ih q hq h,
      hop.mono hab le_rfl⟩
  | bind i => exact h
  | seeThrough _ _ => exact h
  | any => exact h

end Growth

/-! ## The emitter leaves an emitted node -/

section Spec

variable {conv : ScalarConv} {region : PatternNode} {base : Nat} {inputs : List NodeId}
  {bindShapes : List (List Int)} {a : Arena S} {childIds ids : List NodeId} {children : List Node}
  {tag : OpTag} {attrs : OpAttrs} {id : NodeId} {s t : EmitState S} {prim : Op} {p : PatternNode}
  {ss : List UInt64}

theorem nodeAt_eq_ok {n : Node} : nodeAt id s = .ok n t ↔ t = s ∧ s.arena.nodes[id]? = some n := by
  unfold nodeAt
  rw [bind_returns]
  simp [index_returns]

/-- Reading the children. -/
theorem mapM_nodeAt_eq_ok {ns : List Node} : ids.mapM nodeAt s = .ok ns t ↔
      t = s ∧ List.Forall₂ (fun (c : NodeId) m => s.arena.nodes[c]? = some m) ids ns := by
  induction ids generalizing ns t with
  | nil => simp [and_comm, eq_comm]
  | cons id ids ih =>
    rw [mapM_cons, bind_returns]
    constructor
    · rintro ⟨n, u, hn, hrest⟩
      obtain ⟨rfl, hn⟩ := nodeAt_eq_ok.mp hn
      obtain ⟨ms, v, hms, hpure⟩ := bind_returns.mp hrest
      obtain ⟨rfl, hms⟩ := ih.mp hms
      cases hpure
      exact ⟨rfl, .cons hn hms⟩
    · rintro ⟨rfl, hall⟩
      cases hall with
      | cons hn hms =>
        exact ⟨_, _, nodeAt_eq_ok.mpr ⟨rfl, hn⟩,
          bind_returns.mpr ⟨_, _, ih.mpr ⟨rfl, hms⟩, rfl⟩⟩

theorem resolveAttrs_eq_ok {resolved : OpAttrs} :
    resolveAttrs tag attrs bindShapes children s = .ok resolved t ↔
      t = s ∧ Resolves tag attrs bindShapes children resolved := by
  unfold resolveAttrs Resolves
  split
  · cases resolveRelAttrs tag attrs bindShapes (children.map fun c => shapeExprOperand c.shape) with
    | ok a => simp [and_comm, eq_comm]
    | error e => cases e <;> simp
  · simp [and_comm, eq_comm]

/-- What lies between two states of one call: an arena that grew, nothing else. -/
structure Appends (s t : EmitState S) : Prop where
  grows : s.arena.Grows t.arena
  scalars : t.scalars = s.scalars
  memo : t.memo = s.memo

theorem pushNode_appends (n : Node) (s : EmitState S) :
    ∃ t, pushNode n s = .ok s.arena.len t ∧ Appends s t ∧ t.arena = s.arena.push n :=
  ⟨{ s with arena := s.arena.push n }, rfl, ⟨Arena.grows_push s.arena n, rfl, rfl⟩, rfl⟩

variable (hall : List.Forall₂ (fun (c : NodeId) m => s.arena.nodes[c]? = some m) childIds children)

include hall in
theorem padBroadcast_returns (prim : Op) :
    ∃ ids ms t, padBroadcast prim childIds children s = .ok (ids, ms) t ∧ Appends s t ∧
      ms.length = children.length ∧ (∀ n, TypedAs prim ms n → TypedAs prim children n) ∧
      Feeds t.arena s.arena.len prim childIds children ids := by
  cases hr : raisedRank prim children with
  | none =>
    have heq : padBroadcast prim childIds children = (pure (childIds, children) : Emitter S _) := by
      unfold padBroadcast
      rw [hr]
    refine ⟨childIds, children, s, by rw [heq]; rfl, ⟨.refl _, rfl, rfl⟩, rfl, fun _ h => h, ?_⟩
    unfold Feeds
    rw [hr]
  | some padShape =>
    cases hall with
    | nil =>
      -- a broadcast without a child raises nothing
      unfold raisedRank at hr
      split at hr
      · contradiction
      · cases hr
    | @cons id c ids cs hc hcs =>
      let padNode : Node := ⟨.reshape padShape, [id], padShape, c.dtype⟩
      obtain ⟨t, hpush, happ, ht⟩ := pushNode_appends padNode s
      refine ⟨s.arena.len :: ids, padNode :: cs, t, ?_, happ, rfl, fun n hn => ?_, ?_⟩
      · unfold padBroadcast
        rw [hr]
        exact bind_returns.mpr ⟨_, _, hpush, rfl⟩
      · -- a broadcast has its target's shape, whatever it reads
        unfold raisedRank at hr
        split at hr
        · exact hn
        · cases hr
      · unfold Feeds
        rw [hr]
        refine ⟨id, s.arena.len, ids, padNode, rfl, rfl, Nat.le_refl _, ?_, rfl, rfl⟩
        rw [ht]
        exact Arena.node_push_len _ _

theorem readOnly_nodeAt (id : NodeId) : ReadOnly (nodeAt id : Emitter S Node) :=
  readOnly_get.bind fun _ => readOnly_index _ _

theorem readOnly_emittedType (prim : Op) (attrs : OpAttrs) (inputs childIds : List NodeId)
    (children : List Node) :
    ReadOnly (emittedType prim attrs inputs childIds children : Emitter S (Shape × DType)) := by
  unfold emittedType
  split
  · split <;> exact readOnly_pure _
  · refine readOnly_get.bind fun s => ?_
    split <;> exact readOnly_pure _
  · exact (readOnly_index _ _).bind fun _ => readOnly_pure _
  · split
    · exact (readOnly_nodeAt _).bind fun _ => readOnly_pure _
    · exact readOnly_pure _
  · exact readOnly_pure _

theorem setOutputViews_appends (id : NodeId) (slots : Option (List (DType × Shape)))
    (s : EmitState S) : ∃ t, setOutputViews id slots s = .ok () t ∧ Appends s t ∧
      t.arena.nodes = s.arena.nodes := by
  cases slots with
  | none => exact ⟨s, rfl, ⟨.refl _, rfl, rfl⟩, rfl⟩
  | some slots =>
    have hret := returned_composeBundle
      (slots.map fun e => ⟨e.1, e.2, .contiguous e.2, none⟩) ()
    simp only [setOutputViews, bind_run, get_run, andThen_ok]
    generalize composeBundle .release _ () = out at hret ⊢
    cases out with
    | ok r _ => exact ⟨_, rfl, ⟨⟨fun _ _ => rfl, Nat.le_refl _, rfl⟩, rfl, rfl⟩, rfl⟩
    | err e _ => exact ⟨s, rfl, ⟨.refl _, rfl, rfl⟩, rfl⟩
    | abort why => exact hret.elim

theorem Appends.trans {u : EmitState S} (h : Appends s t) (h' : Appends t u) : Appends s u :=
  ⟨h.grows.trans h'.grows, h'.scalars.trans h.scalars, h'.memo.trans h.memo⟩

theorem emittedType_of_plain (h : isStructural prim = false) :
    (emittedType prim attrs inputs childIds children : Emitter S (Shape × DType)) =
      pure ((primitiveShape prim (children.map Node.shape) (children.map Node.dtype)).getD
        (fallbackType children)) := by
  unfold emittedType
  split
  · cases h
  · cases h
  · cases h
  · cases h
  · rfl

theorem typedAs_of_emittedType {shape : Shape} {dtype : DType}
    (h : emittedType prim attrs inputs childIds children s = .ok (shape, dtype) t) :
    TypedAs prim children ⟨prim, ids, shape, dtype⟩ := by
  intro hplain
  rw [emittedType_of_plain hplain, pure_run, ok.injEq] at h
  exact h.1.symm

include hall in
/-- An op that was placed stands behind the nodes that were there. -/
theorem placeOp_spec (h : placeOp inputs attrs prim childIds children s = .ok id t) :
    Appends s t ∧ s.arena.len ≤ id ∧ ∃ n, t.arena.nodes[id]? = some n ∧ n.op = prim ∧
      TypedAs prim children n ∧ Feeds t.arena s.arena.len prim childIds children n.inputs := by
  unfold placeOp at h
  obtain ⟨ids, ms, u, hpad, happ, -, hpadded, hfeeds⟩ := padBroadcast_returns hall prim
  rw [bind_run, hpad, andThen_ok] at h
  obtain ⟨⟨shape, dtype⟩, v, htype, hplace⟩ := bind_returns.mp h
  obtain rfl := readOnly_emittedType _ _ _ _ _ _ _ _ htype
  obtain ⟨w, hpush, happ', hw⟩ := pushNode_appends ⟨prim, ids, shape, dtype⟩ v
  obtain ⟨out, w', hpush', hrest⟩ := bind_returns.mp hplace
  obtain ⟨rfl, rfl⟩ := ok.inj (hpush.symm.trans hpush')
  obtain ⟨x, hviews, happ'', hx⟩ := setOutputViews_appends v.arena.len (outputSlots prim ms) w
  obtain ⟨_, x', hviews', hpure⟩ := bind_returns.mp hrest
  obtain ⟨-, rfl⟩ := ok.inj (hviews.symm.trans hviews')
  cases hpure
  refine ⟨(happ.trans happ').trans happ'', happ.grows.len_le, ⟨prim, ids, shape, dtype⟩, ?_, rfl,
    hpadded _ (typedAs_of_emittedType htype), hfeeds.mono (happ'.trans happ'').grows le_rfl⟩
  rw [hx, hw]
  exact Arena.node_push_len _ _

/-- Typing an op fails only for a fused op without operands. -/
theorem answers_emittedType (attrs : OpAttrs) (childIds : List NodeId)
    (hinputs : ∀ (i : NodeId), i ∈ inputs → i < s.arena.len)
    (hfused : ∀ fid params, prim = .fused fid params → children ≠ []) :
    Answers (emittedType prim attrs inputs childIds children) s := by
  unfold emittedType
  split
  · split <;> exact answers_pure _ _
  · refine Answers.bind ⟨s, rfl⟩ fun _ => ?_
    split <;> exact answers_pure _ _
  · cases children with
    | nil => exact absurd rfl (hfused _ _ rfl)
    | cons c cs => exact ⟨_, rfl⟩
  · split
    · rename_i b _
      have hb : b < s.arena.len := hinputs b mem_cons_self
      have hn : nodeAt b s = .ok _ s :=
        nodeAt_eq_ok.mpr ⟨rfl, getElem?_eq_getElem (l := s.arena.nodes) hb⟩
      exact Answers.bind ⟨_, hn⟩ fun _ => answers_pure _ _
    · exact answers_pure _ _
  · exact answers_pure _ _

include hall in
theorem placeOp_returns (attrs : OpAttrs)
    (hinputs : ∀ (i : NodeId), i ∈ inputs → i < s.arena.len)
    (hfused : ∀ fid params, prim = .fused fid params → childIds ≠ []) :
    ∃ id t, placeOp inputs attrs prim childIds children s = .ok id t := by
  obtain ⟨ids, ms, u, hpad, happ, hlen, -, -⟩ := padBroadcast_returns hall prim
  have hms : ∀ fid params, prim = .fused fid params → ms ≠ [] := by
    intro fid params hprim hnil
    rw [hnil, ← hall.length_eq] at hlen
    exact hfused fid params hprim (length_eq_zero_iff.mp hlen.symm)
  obtain ⟨⟨shape, dtype⟩, htype⟩ := answers_emittedType attrs ids
    (fun i hi => Nat.lt_of_lt_of_le (hinputs i hi) happ.grows.len_le) hms
  obtain ⟨w, hpush, -, -⟩ := pushNode_appends ⟨prim, ids, shape, dtype⟩ u
  obtain ⟨x, hviews, -, -⟩ := setOutputViews_appends u.arena.len (outputSlots prim ms) w
  exact ⟨u.arena.len, x, bind_returns.mpr ⟨(ids, ms), u, hpad, bind_returns.mpr
    ⟨(shape, dtype), u, htype, bind_returns.mpr ⟨_, w, hpush, bind_returns.mpr
      ⟨_, x, hviews, rfl⟩⟩⟩⟩⟩

theorem emitOp_spec (h : emitOp conv inputs bindShapes tag attrs childIds s = .ok id t) :
    Appends s t ∧ OpEmitted conv t.arena s.arena.len bindShapes tag attrs childIds id := by
  obtain ⟨children, u, hread, hrest⟩ := bind_returns.mp h
  obtain ⟨rfl, hall⟩ := mapM_nodeAt_eq_ok.mp hread
  obtain ⟨resolved, v, hresolve, hrest'⟩ := bind_returns.mp hrest
  obtain ⟨rfl, hres⟩ := resolveAttrs_eq_ok.mp hresolve
  obtain ⟨prim, w, hexpect, hplace⟩ := bind_returns.mp hrest'
  obtain ⟨rfl, hprim⟩ := expect_returns.mp hexpect
  obtain ⟨happ, hle, n, hn, hop, htype, hfeeds⟩ := placeOp_spec hall hplace
  refine ⟨happ, children, resolved, prim, n, ?_, hres, hprim, hle, hn, hop, ?_, ?_⟩
  · exact hall.imp fun _ _ hm => happ.grows.node hm
  · rw [hop]
    exact htype
  · rw [hop]
    exact hfeeds

/-- Fixing a fill value makes no fused op. -/
theorem eq_fused_of_refillMasked {dtypes : List DType} {fid : FusedOpId} {params : FusedOpParams}
    (h : refillMasked conv prim dtypes = .fused fid params) : prim = .fused fid params := by
  unfold refillMasked at h
  split at h
  · split at h
    · exact h
    · split at h
      · cases h
      · exact h
  · exact h

theorem emitOp_returns (bindShapes : List (List Int))
    (hchildren : ∀ (c : NodeId), c ∈ childIds → c < s.arena.len)
    (hinputs : ∀ (i : NodeId), i ∈ inputs → i < s.arena.len) (habs : hasRelAttrs attrs = false)
    (hprim : (tagToOp conv tag attrs).isSome)
    (hfused : ∀ fid params, tagToOp conv tag attrs = some (.fused fid params) → childIds ≠ []) :
    ∃ id t, emitOp conv inputs bindShapes tag attrs childIds s = .ok id t := by
  have hlookup : ∃ children,
      List.Forall₂ (fun (c : NodeId) m => s.arena.nodes[c]? = some m) childIds children := by
    clear hfused
    induction childIds with
    | nil => exact ⟨[], .nil⟩
    | cons c cs ih =>
      obtain ⟨ms, hms⟩ := ih fun d hd => hchildren d (mem_cons_of_mem _ hd)
      have hc : c < s.arena.len := hchildren c mem_cons_self
      exact ⟨_ :: ms, .cons (getElem?_eq_getElem (l := s.arena.nodes) hc) hms⟩
  obtain ⟨children, hall⟩ := hlookup
  obtain ⟨prim, hprim⟩ := Option.isSome_iff_exists.mp hprim
  have hres : Resolves tag attrs bindShapes children attrs := by
    unfold Resolves
    rw [habs]
    rfl
  have hfill : ∀ fid params, refillMasked conv prim (children.map Node.dtype) = .fused fid params →
      childIds ≠ [] := fun fid params h =>
    hfused fid params (by rw [hprim, eq_fused_of_refillMasked h])
  obtain ⟨id, t, hplace⟩ := placeOp_returns hall attrs hinputs hfill
  exact ⟨id, t, bind_returns.mpr ⟨children, s, mapM_nodeAt_eq_ok.mpr ⟨rfl, hall⟩,
    bind_returns.mpr ⟨attrs, s, resolveAttrs_eq_ok.mpr ⟨rfl, hres⟩,
      bind_returns.mpr ⟨prim, s, expect_returns.mpr ⟨rfl, hprim⟩, hplace⟩⟩⟩⟩

/-- The memo table holds emitted subtrees of the region. -/
structure EmitInv (conv : ScalarConv) (region : PatternNode) (base : Nat) (inputs : List NodeId)
    (bindShapes : List (List Int)) (s : EmitState S) : Prop where
  base_le : base ≤ s.arena.len
  memo : ∀ e ∈ s.memo, e.1 ∈ region.subtrees ∧
    Emitted conv s.arena base inputs bindShapes e.1 [] e.2

theorem EmitInv.mono (h : EmitInv conv region base inputs bindShapes s)
    (hgrows : s.arena.Grows t.arena) (hmemo : t.memo = s.memo) :
    EmitInv conv region base inputs bindShapes t := by
  refine ⟨h.base_le.trans hgrows.len_le, fun e he => ?_⟩
  rw [hmemo] at he
  exact ⟨(h.memo e he).1, (h.memo e he).2.mono hgrows⟩

/-- What a call that returns did: it took scalars off the cursor and left an emitted tree. -/
def EmitsTree (conv : ScalarConv) (region : PatternNode) (base : Nat) (inputs : List NodeId)
    (bindShapes : List (List Int)) (p : PatternNode) (s : EmitState S) (id : NodeId)
    (t : EmitState S) : Prop :=
  ∃ taken, s.scalars = taken ++ t.scalars ∧ s.arena.Grows t.arena ∧
    EmitInv conv region base inputs bindShapes t ∧ Emitted conv t.arena base inputs bindShapes p taken id

def EmitsTrees (conv : ScalarConv) (region : PatternNode) (base : Nat) (inputs : List NodeId)
    (bindShapes : List (List Int)) (ps : List PatternNode) (s : EmitState S) (ids : List NodeId)
    (t : EmitState S) : Prop :=
  ∃ taken, s.scalars = taken ++ t.scalars ∧ s.arena.Grows t.arena ∧
    EmitInv conv region base inputs bindShapes t ∧
    EmittedAll conv t.arena base inputs bindShapes ps taken ids

theorem Emitted.length_eq (h : Emitted conv a base inputs bindShapes p ss id) :
    ss.length = countScalarSlots p := by
  induction p using PatternNode.induct generalizing ss id with
  | op tag operands attrs ih =>
    obtain ⟨own, rest, childIds, rfl, hown, hall, -⟩ := h
    have hrest : rest.length = countScalarSlotsAll operands := by
      clear hown
      induction operands generalizing rest childIds with
      | nil => rw [hall.1]; rfl
      | cons q qs ihqs =>
        obtain ⟨s₁, s₂, c, cs, rfl, -, hq, hqs⟩ := hall
        rw [length_append, ih q mem_cons_self hq,
          ihqs (fun p hp => ih p (mem_cons_of_mem _ hp)) s₂ cs hqs]
        rfl
    rw [length_append, hown, hrest]
    rfl
  | bind i => rw [h.2]; rfl
  | seeThrough _ _ => exact h.elim
  | any => exact h.elim

theorem takeSlots_returns {filled : OpAttrs} :
    takeSlots tag attrs s = .ok filled t ↔ ∃ own, own.length = ownSlots tag attrs ∧
      s.scalars = own ++ t.scalars ∧ t = { s with scalars := t.scalars } ∧
      filled = attrs.withSlots own := by
  unfold takeSlots
  by_cases h0 : ownSlots tag attrs = 0
  · simp only [h0, ite_true, pure_run, ok.injEq]
    constructor
    · rintro ⟨rfl, rfl⟩
      exact ⟨[], rfl, rfl, rfl, rfl⟩
    · rintro ⟨own, hown, hs, ht, rfl⟩
      obtain rfl := length_eq_zero_iff.mp hown
      refine ⟨rfl, ?_⟩
      rw [ht]
      exact congrArg (fun l => { s with scalars := l }) hs
  · simp only [h0, ite_false, bind_run, get_run, andThen_ok]
    by_cases hlt : s.scalars.length < ownSlots tag attrs
    · simp only [hlt, ite_true, abort_run]
      constructor
      · intro h
        cases h
      · rintro ⟨own, hown, hs, -, -⟩
        rw [hs, length_append] at hlt
        omega
    simp only [hlt, ite_false, bind_run, set_run, andThen_ok, pure_run, ok.injEq]
    have hne : s.scalars.take (ownSlots tag attrs) ≠ [] := by
      intro h
      have := congrArg List.length h
      rw [length_take, length_nil] at this
      omega
    constructor
    · rintro ⟨rfl, rfl⟩
      refine ⟨s.scalars.take (ownSlots tag attrs), ?_, (take_append_drop _ _).symm, rfl, ?_⟩
      · rw [length_take]
        omega
      · rw [OpAttrs.withSlots, if_neg hne]
    · rintro ⟨own, hown, hs, ht, rfl⟩
      have htake : s.scalars.take (ownSlots tag attrs) = own := by rw [hs, ← hown]; simp
      have hdrop : s.scalars.drop (ownSlots tag attrs) = t.scalars := by rw [hs, ← hown]; simp
      rw [htake] at hne ⊢
      rw [OpAttrs.withSlots, if_neg hne, hdrop]
      exact ⟨rfl, ht.symm⟩

variable (hinv : EmitInv conv region base inputs bindShapes s)

include hinv

theorem memoized_spec (hshare : SharesExactly region) (hp : p ∈ region.subtrees)
    (h : memoized s p = some id) :
    Emitted conv s.arena base inputs bindShapes p [] id := by
  unfold memoized at h
  split at h
  · obtain ⟨e, he, rfl⟩ := Option.map_eq_some_iff.mp h
    obtain ⟨hp', hemitted⟩ := hinv.memo e (mem_of_find?_eq_some he)
    have hbeq : e.1.beq p = true := by simpa using find?_some he
    rw [← hshare e.1 hp' p hp hbeq]
    exact hemitted
  · cases h

/-- An emitted tree, remembered where it has no open slot. -/
theorem remember_spec (hp : p ∈ region.subtrees)
    (hemitted : Emitted conv s.arena base inputs bindShapes p ss id)
    (h : remember p id s = .ok () t) :
    t.arena = s.arena ∧ t.scalars = s.scalars ∧ EmitInv conv region base inputs bindShapes t := by
  unfold remember at h
  split at h
  · rename_i h0
    obtain rfl : ss = [] := length_eq_zero_iff.mp (hemitted.length_eq.trans h0)
    obtain ⟨s', u, hget, hset⟩ := bind_returns.mp h
    cases hget
    cases hset
    refine ⟨rfl, rfl, hinv.base_le, fun e he => ?_⟩
    rcases mem_append.mp he with he | he
    · exact hinv.memo e he
    · rw [mem_singleton.mp he]
      exact ⟨hp, hemitted⟩
  · cases h
    exact ⟨rfl, rfl, hinv⟩

theorem emitAll_spec {ps : List PatternNode}
    (hone : ∀ p ∈ ps, ∀ (s t : EmitState S) (id : NodeId), EmitInv conv region base inputs bindShapes s →
      emit conv inputs bindShapes p s = .ok id t → EmitsTree conv region base inputs bindShapes p s id t)
    (h : emitAll conv inputs bindShapes ps s = .ok ids t) :
    EmitsTrees conv region base inputs bindShapes ps s ids t := by
  induction ps generalizing s t ids with
  | nil =>
    cases h
    exact ⟨[], rfl, .refl _, hinv, rfl, rfl⟩
  | cons p ps ih =>
    obtain ⟨id, u, hp, hrest⟩ := bind_returns.mp h
    obtain ⟨ids', v, hps, hpure⟩ := bind_returns.mp hrest
    cases hpure
    obtain ⟨s₁, hs₁, hgrows₁, hinv₁, hp⟩ := hone p mem_cons_self s u id hinv hp
    obtain ⟨s₂, hs₂, hgrows₂, hinv₂, hps⟩ :=
      ih hinv₁ (fun q hq => hone q (mem_cons_of_mem _ hq)) hps
    refine ⟨s₁ ++ s₂, ?_, hgrows₁.trans hgrows₂, hinv₂, s₁, s₂, id, ids', rfl, rfl,
      hp.mono hgrows₂, hps⟩
    rw [hs₁, hs₂, List.append_assoc]

/-- **Every emission that returns leaves the region.** -/
theorem emit_spec (hshare : SharesExactly region) (hp : p ∈ region.subtrees)
    (h : emit conv inputs bindShapes p s = .ok id t) :
    EmitsTree conv region base inputs bindShapes p s id t := by
  induction p using induct generalizing s t id with
  | op tag operands attrs ih =>
    obtain ⟨s', u, hget, h⟩ := bind_returns.mp h
    cases hget
    cases hmemo : memoized s (.op tag operands attrs) with
    | some found =>
      rw [hmemo] at h
      cases h
      exact ⟨[], rfl, .refl _, hinv, memoized_spec hinv hshare hp hmemo⟩
    | none =>
      rw [hmemo] at h
      obtain ⟨filled, u, htake, h⟩ := bind_returns.mp h
      obtain ⟨own, hown, hscalars, hu, rfl⟩ := takeSlots_returns.mp htake
      have hinvu : EmitInv conv region base inputs bindShapes u := by
        rw [hu]
        exact ⟨hinv.base_le, hinv.memo⟩
      obtain ⟨childIds, v, hall, h⟩ := bind_returns.mp h
      obtain ⟨rest, hrest, hgrows, hinvv, hall⟩ := emitAll_spec hinvu
        (fun q hq s t id hs h => ih q hq hs (operand_mem_subtrees hp hq) h) hall
      obtain ⟨out, w, hop, h⟩ := bind_returns.mp h
      obtain ⟨happ, hop⟩ := emitOp_spec hop
      obtain ⟨_, x, hrem, h⟩ := bind_returns.mp h
      cases h
      have hemitted : Emitted conv w.arena base inputs bindShapes (.op tag operands attrs)
          (own ++ rest) id :=
        ⟨own, rest, childIds, rfl, hown, hall.imp fun _ _ _ _ h => h.mono happ.grows,
          hop.mono (.refl _) hinvv.base_le⟩
      obtain ⟨harena, hcursor, hinvt⟩ :=
        remember_spec (hinvv.mono happ.grows happ.memo) hp hemitted hrem
      refine ⟨own ++ rest, ?_, ?_, hinvt, ?_⟩
      · rw [hscalars, hrest, hcursor, happ.scalars, List.append_assoc]
      · rw [harena]
        have hsu : s.arena.Grows u.arena := by
          rw [hu]
          exact .refl _
        exact hsu.trans (hgrows.trans happ.grows)
      · rw [harena]
        exact hemitted
  | bind i =>
    obtain ⟨rfl, hi⟩ := index_returns.mp h
    exact ⟨[], rfl, .refl _, hinv, hi, rfl⟩
  | seeThrough _ _ => 
    cases h
  | any => 
    cases h

end Spec

/-! ## Regions that are always emitted -/

/-- An op with absolute attributes that stands for a primitive however its slots are filled. -/
structure OpEmittable (conv : ScalarConv) (tag : OpTag) (attrs : OpAttrs) (arity : Nat) : Prop where
  absolute : hasRelAttrs attrs = false
  prim : ∀ own : List UInt64, own.length = ownSlots tag attrs →
    (tagToOp conv tag (attrs.withSlots own)).isSome
  fused : ∀ own fid params,
    tagToOp conv tag (attrs.withSlots own) = some (.fused fid params) → arity ≠ 0

mutual

/-- A region whose emission needs nothing of the shapes. -/
def Emittable (conv : ScalarConv) (nInputs : Nat) : PatternNode → Prop
  | .op tag operands attrs =>
    OpEmittable conv tag attrs operands.length ∧ EmittableAll conv nInputs operands
  | .bind i => i.toNat < nInputs
  | .seeThrough _ | .any => False

def EmittableAll (conv : ScalarConv) (nInputs : Nat) : List PatternNode → Prop
  | [] => True
  | p :: ps => Emittable conv nInputs p ∧ EmittableAll conv nInputs ps

end

theorem emittableAll_iff {conv : ScalarConv} {nInputs : Nat} :
    EmittableAll conv nInputs ps ↔ ∀ p ∈ ps, Emittable conv nInputs p := by
  induction ps with
  | nil => simp [EmittableAll]
  | cons p ps ih => simp [EmittableAll, ih]

section Returns

variable {conv : ScalarConv} {region : PatternNode} {base : Nat} {inputs : List NodeId}
  {bindShapes : List (List Int)} {a : Arena S} {ss : List UInt64} {ps : List PatternNode}
  {p : PatternNode} {ids : List NodeId} {s : EmitState S}

/-- An emitted node is in the arena. -/
theorem Emitted.lt_len {id : NodeId} (h : Emitted conv a base inputs bindShapes p ss id)
    (hinputs : ∀ (i : NodeId), i ∈ inputs → i < a.len) : id < a.len := by
  cases p with
  | op tag operands attrs =>
    obtain ⟨_, _, _, -, -, -, _, _, _, _, -, -, -, -, hn, -, -, -⟩ := h
    exact lt_of_getElem? hn
  | bind i => exact hinputs id (mem_of_getElem? h.1)
  | seeThrough _ => exact h.elim
  | any => exact h.elim

theorem EmittedAll.length_eq (h : EmittedAll conv a base inputs bindShapes ps ss ids) :
    ids.length = ps.length := by
  induction ps generalizing ss ids with
  | nil => rw [h.2]; rfl
  | cons p ps ih =>
    obtain ⟨_, _, id, ids', -, rfl, -, hps⟩ := h
    rw [length_cons, length_cons, ih hps]

theorem EmittedAll.lt_len (h : EmittedAll conv a base inputs bindShapes ps ss ids)
    (hinputs : ∀ (i : NodeId), i ∈ inputs → i < a.len) : ∀ (c : NodeId), c ∈ ids → c < a.len := by
  induction ps generalizing ss ids with
  | nil =>
    rw [h.2]
    intro c hc
    cases hc
  | cons p ps ih =>
    obtain ⟨_, _, id, ids', -, rfl, hp, hps⟩ := h
    intro c hc
    rcases mem_cons.mp hc with rfl | hc
    · exact hp.lt_len hinputs
    · exact ih hps c hc

theorem hasRelAttrs_withSlots (attrs : OpAttrs) (own : List UInt64) :
    hasRelAttrs (attrs.withSlots own) = hasRelAttrs attrs := by
  unfold OpAttrs.withSlots
  split <;> rfl

theorem remember_returns (p : PatternNode) (id : NodeId) (s : EmitState S) :
    ∃ t, remember p id s = .ok () t := by
  unfold remember
  split
  · exact ⟨_, rfl⟩
  · exact ⟨_, rfl⟩

/-- Operands are emitted one after another, each with its scalars. -/
theorem emitAll_returns
    (hone : ∀ p ∈ ps, ∀ s : EmitState S, EmitInv conv region base inputs bindShapes s →
      (∀ (i : NodeId), i ∈ inputs → i < s.arena.len) → countScalarSlots p ≤ s.scalars.length →
      ∃ id t, emit conv inputs bindShapes p s = .ok id t) (hshare : SharesExactly region)
    (hmem : ∀ p ∈ ps, p ∈ region.subtrees) (hinv : EmitInv conv region base inputs bindShapes s)
    (hinputs : ∀ (i : NodeId), i ∈ inputs → i < s.arena.len)
    (hscalars : countScalarSlotsAll ps ≤ s.scalars.length) :
    ∃ ids t, emitAll conv inputs bindShapes ps s = .ok ids t := by
  induction ps generalizing s with
  | nil => exact ⟨[], s, rfl⟩
  | cons p ps ih =>
    have hcount : countScalarSlotsAll (p :: ps) = countScalarSlots p + countScalarSlotsAll ps := rfl
    obtain ⟨id, u, hp⟩ := hone p mem_cons_self s hinv hinputs (by omega)
    obtain ⟨taken, htaken, hgrows, hinvu, hemitted⟩ := emit_spec hinv hshare (hmem p mem_cons_self) hp
    have hlen : s.scalars.length = countScalarSlots p + u.scalars.length := by
      rw [htaken, length_append, hemitted.length_eq]
    obtain ⟨ids, t, hps⟩ := ih (fun q hq => hone q (mem_cons_of_mem _ hq))
      (fun q hq => hmem q (mem_cons_of_mem _ hq)) hinvu
      (fun i hi => Nat.lt_of_lt_of_le (hinputs i hi) hgrows.len_le) (by omega)
    exact ⟨id :: ids, t, bind_returns.mpr ⟨id, u, hp, bind_returns.mpr ⟨ids, t, hps, rfl⟩⟩⟩

/-- **A region with absolute attributes is emitted**, given its inputs and its scalars. -/
theorem emit_returns (hp : Emittable conv inputs.length p) (hshare : SharesExactly region)
    (hmem : p ∈ region.subtrees) (hinv : EmitInv conv region base inputs bindShapes s)
    (hinputs : ∀ (i : NodeId), i ∈ inputs → i < s.arena.len)
    (hscalars : countScalarSlots p ≤ s.scalars.length) :
    ∃ id t, emit conv inputs bindShapes p s = .ok id t := by
  induction p using induct generalizing s with
  | op tag operands attrs ih =>
    cases hmemo : memoized s (.op tag operands attrs) with
    | some found =>
      refine ⟨found, s, ?_⟩
      unfold emit
      rw [bind_run, get_run, andThen_ok, hmemo]
      rfl
    | none =>
      have hcount : countScalarSlots (.op tag operands attrs) =
        ownSlots tag attrs + countScalarSlotsAll operands := rfl
      obtain ⟨hop, hall⟩ := hp
      -- the slots of the op itself
      have hown : (s.scalars.take (ownSlots tag attrs)).length = ownSlots tag attrs := by
        rw [length_take]
        omega
      let u : EmitState S := { s with scalars := s.scalars.drop (ownSlots tag attrs) }
      have htake : takeSlots tag attrs s =
          .ok (attrs.withSlots (s.scalars.take (ownSlots tag attrs))) u :=
        takeSlots_returns.mpr ⟨_, hown, (take_append_drop _ _).symm, rfl, rfl⟩
      have hinvu : EmitInv conv region base inputs bindShapes u := ⟨hinv.base_le, hinv.memo⟩
      -- the operands
      obtain ⟨childIds, v, hops⟩ : ∃ ids t, emitAll conv inputs bindShapes operands u = .ok ids t :=
        emitAll_returns
        (fun q hq s hs hin hsc => ih q hq (emittableAll_iff.mp hall q hq)
          (operand_mem_subtrees hmem hq) hs hin hsc) hshare
        (fun q hq => operand_mem_subtrees hmem hq) hinvu hinputs
        (by show _ ≤ (s.scalars.drop _).length; rw [length_drop]; omega)
      obtain ⟨rest, -, hgrows, -, hemitted⟩ := emitAll_spec hinvu
        (fun q hq s t id hs h => emit_spec hs hshare (operand_mem_subtrees hmem hq) h) hops
      have hin : ∀ (i : NodeId), i ∈ inputs → i < v.arena.len := fun i hi =>
        Nat.lt_of_lt_of_le (hinputs i hi) hgrows.len_le
      -- the op
      obtain ⟨out, w, hout⟩ := emitOp_returns bindShapes (hemitted.lt_len hin) hin
        ((hasRelAttrs_withSlots attrs _).trans hop.absolute) (hop.prim _ hown)
        fun fid params hf hnil => hop.fused _ fid params hf <| by
          rw [← hemitted.length_eq, hnil]
          rfl
      obtain ⟨x, hrem⟩ := remember_returns (.op tag operands attrs) out w
      refine ⟨out, x, ?_⟩
      unfold emit
      rw [bind_run, get_run, andThen_ok, hmemo]
      exact bind_returns.mpr ⟨_, u, htake, bind_returns.mpr ⟨childIds, v, hops,
        bind_returns.mpr ⟨out, w, hout, bind_returns.mpr ⟨_, x, hrem, rfl⟩⟩⟩⟩
  | bind i =>
    have hi : i.toNat < inputs.length := hp
    unfold emit
    rw [index_of_lt hi]
    exact ⟨_, _, rfl⟩
  | seeThrough _ _ => exact hp.elim
  | any => exact hp.elim

end Returns

end Fuel.Jit
