import Fuel.IR.DeviceCopies
import Fuel.IR.Rewiring
import Fuel.IR.Valuation

/-!
# Layouts of views across the passes

A view op's layout is derived once, when its node is appended. The passes then
redirect inputs without deriving it again, so the stored layout stays right
exactly as long as the new input has the layout the old one had. A copy is
contiguous: a view over a strided node that gets a copy in between keeps
strides into storage it no longer reads.

`Redirected` says what a pass may do to the arena without hurting the layouts,
step by step; `LayoutInv` is the invariant it keeps.
-/

namespace Fuel.IR

open Fuel.DepGraph List Function Option

variable {S : Type}

/-! ## Conflicts -/

variable {g : Graph}

/-- A conflict has the shape of its tensor. -/
theorem conflictOf_shape {order : List NodeId} {id : NodeId} {c : Conflict}
    (h : conflictOf g order id = some c) :
    ∃ n, g.nodes[c.target]? = some n ∧ c.targetShape = n.shape := by
  unfold conflictOf at h
  simp only [bind_eq_bind, bind_eq_some_iff] at h
  obtain ⟨target, -, h⟩ := h
  split at h
  · cases h
  split at h
  · cases h
  obtain ⟨n, hn, hc⟩ := bind_eq_some_iff.mp h
  cases hc
  exact ⟨n, hn, rfl⟩

/-- A conflicting reader is another node and reads the tensor. -/
theorem conflictingReaders_reads {order : List NodeId} {id target r : NodeId}
    (h : r ∈ conflictingReaders g order id target) : r ≠ id ∧ target ∈ g.inputs r := by
  have hr := (mem_filter.mp h).2
  simp only [Bool.and_eq_true, decide_eq_true_eq] at hr
  exact hr.1

/-! ## Coherence -/

/-- Every view op has the layout its first input's layout gives it. -/
def Arena.Coherent (a : Arena S) : Prop :=
  ∀ (id : NodeId) (n : Node) (x : NodeId) (l l' : Layout), a.nodes[id]? = some n →
    n.inputs.head? = some x → a.layout x = some l → deriveViewOutputLayout n.op l = some l' →
    a.layout id = some l'

/-- The node is laid out row by row from offset zero. -/
def Arena.IsContiguous (a : Arena S) (id : NodeId) : Prop :=
  ∀ n : Node, a.nodes[id]? = some n → a.layout id = some (.contiguous n.shape)

/-- The first input of a view op exists. -/
def Node.HeadBelow (len : Nat) (n : Node) : Prop :=
  n.op.isViewOp = true → ∀ x : NodeId, n.inputs.head? = some x → x < len

structure Arena.LayoutInv (a : Arena S) : Prop where
  coherent : a.Coherent
  heads : ∀ (id : NodeId) (n : Node), a.nodes[id]? = some n → n.HeadBelow a.len
  /-- Only views have an entry. -/
  views : ∀ (id : NodeId) (l : Layout), a.layouts id = some l →
    ∃ n, a.nodes[id]? = some n ∧ n.op.isViewOp = true

namespace Arena

variable {a b c : Arena S} {n : Node} {id x : NodeId}

theorem layout_eq_of_node (hlayouts : b.layouts id = a.layouts id)
    (hshape : (b.nodes[id]?).map Node.shape = (a.nodes[id]?).map Node.shape) :
    b.layout id = a.layout id := by
  unfold layout
  rw [hlayouts]
  cases a.layouts id with
  | some l => rfl
  | none =>
    have h := congrArg (Option.map Layout.contiguous) hshape
    rw [Option.map_map, Option.map_map] at h
    exact h

theorem layout_isSome_of_lt (h : id < a.len) : ∃ l, a.layout id = some l := by
  unfold layout
  cases a.layouts id with
  | some l => exact ⟨l, rfl⟩
  | none => exact ⟨_, by rw [getElem?_eq_getElem h]; rfl⟩

theorem LayoutInv.layouts_eq_none (h : a.LayoutInv) (hid : a.len ≤ id) : a.layouts id = none := by
  cases hl : a.layouts id with
  | none => rfl
  | some l =>
    obtain ⟨n, hn, -⟩ := h.views id l hl
    rw [getElem?_eq_none hid] at hn
    cases hn

variable {l : Layout} {g : Graph} {p k : NodeId} {t : Topology} {order : List NodeId}
  {s s' : CopyState} {g' : Graph}

/-- A layout is that of a node of the arena. -/
theorem LayoutInv.lt_of_layout (h : a.LayoutInv) (hl : a.layout id = some l) : id < a.len := by
  by_contra hge
  have hge := Nat.le_of_not_lt hge
  rw [layout, h.layouts_eq_none hge, getElem?_eq_none hge] at hl
  cases hl

/-- What is no view is contiguous. -/
theorem LayoutInv.isContiguous (h : a.LayoutInv) (hn : a.nodes[id]? = some n)
    (hview : n.op.isViewOp = false) : a.layout id = some (.contiguous n.shape) := by
  unfold layout
  cases hl : a.layouts id with
  | none => simp [hn]
  | some l =>
    obtain ⟨m, hm, hmview⟩ := h.views id l hl
    rw [hn, some.injEq] at hm
    rw [← hm, hview] at hmview
    cases hmview

/-! ## Appending -/

theorem layouts_push_of_ne (h : id ≠ a.len) : (a.push n).layouts id = a.layouts id := by
  unfold push
  simp only
  split
  · exact update_of_ne h _ _
  · rfl

theorem layout_push_of_lt (h : id < a.len) : (a.push n).layout id = a.layout id := by
  apply layout_eq_of_node
  · exact layouts_push_of_ne (Nat.ne_of_lt h)
  · rw [a.node_push_of_lt n h]

/-- Appending what is no view adds no layout. -/
theorem push_eq_withGraph (h : n.op.isViewOp = false) :
    a.push n = a.withGraph (a.toGraph.push n) := by
  simp [push, h, withGraph]

/-- The entry of a view appended over an existing node. -/
theorem layouts_push_len {l' : Layout} (hx : n.inputs.head? = some x) (hlt : x < a.len)
    (hl : a.layout x = some l) (hd : deriveViewOutputLayout n.op l = some l') :
    (a.push n).layouts a.len = some l' := by
  have hlen : x < (a.withGraph (a.toGraph.push n)).len := by
    show x < (a.toGraph.push n).len
    rw [Graph.len_push]
    exact Nat.lt_succ_of_lt hlt
  have hlx : (a.withGraph (a.toGraph.push n)).layout x = some l := by
    rw [← hl]
    apply layout_eq_of_node
    · rfl
    · rw [show (a.withGraph (a.toGraph.push n)).nodes[x]? = a.nodes[x]? from
        a.toGraph.node_push_of_lt n hlt]
  have hview : (a.withGraph (a.toGraph.push n)).viewLayout n.op n.inputs = some l' := by
    simp [viewLayout, hx, hlen, hlx, hd]
  unfold withGraph at hview
  unfold push
  simp only [isViewOp_of_derive hd, if_true, hview]
  exact update_self _ _ _

theorem layouts_push_len_view (h : a.LayoutInv) (hl : (a.push n).layouts a.len = some l) :
    n.op.isViewOp = true := by
  cases hview : n.op.isViewOp with
  | true => rfl
  | false =>
    rw [push_eq_withGraph hview] at hl
    rw [show (a.withGraph (a.toGraph.push n)).layouts = a.layouts from rfl,
      h.layouts_eq_none (Nat.le_refl _)] at hl
    cases hl

/-- **Appending keeps the layouts coherent** when a view reads a node that is there. -/
theorem LayoutInv.push (h : a.LayoutInv) (hhead : n.HeadBelow a.len) :
    (a.push n).LayoutInv := by
  constructor
  case coherent =>
    intro id m x l l' hm hx hl hd
    rcases node_push_cases hm with ⟨hlt, hm⟩ | ⟨rfl, rfl⟩
    · have hxlt := h.heads id m hm (isViewOp_of_derive hd) x hx
      rw [layout_push_of_lt hxlt] at hl
      rw [layout_push_of_lt hlt]
      exact h.coherent id m x l l' hm hx hl hd
    · have hxlt := hhead (isViewOp_of_derive hd) x hx
      rw [layout_push_of_lt hxlt] at hl
      rw [layout, layouts_push_len hx hxlt hl hd]
  case heads =>
    intro id m hm hview x hx
    rw [a.len_push]
    rcases node_push_cases hm with ⟨-, hm⟩ | ⟨-, rfl⟩
    · exact Nat.lt_succ_of_lt (h.heads id m hm hview x hx)
    · exact Nat.lt_succ_of_lt (hhead hview x hx)
  case views =>
    intro id l hl
    by_cases hid : id = a.len
    · subst hid
      exact ⟨n, a.node_push_len n, layouts_push_len_view h hl⟩
    · rw [layouts_push_of_ne hid] at hl
      obtain ⟨m, hm, hview⟩ := h.views id l hl
      refine ⟨m, ?_, hview⟩
      rw [a.node_push_of_lt n (lt_of_getElem? hm)]
      exact hm

/-- `Graph::new`. -/
def new : Arena S := { nodes := [] }

theorem LayoutInv.new : (Arena.new : Arena S).LayoutInv := by
  constructor
  case coherent => intro id n x l l' hn; cases hn
  case heads => intro id n hn; cases hn
  case views => intro id l hl; cases hl

/-! ## Redirecting -/

/-- `b` is `a` with further nodes that are no views and with inputs redirected: the first
input of a view only to a node with the same layout. -/
structure Redirected (a b : Arena S) : Prop where
  layouts : b.layouts = a.layouts
  len : a.len ≤ b.len
  old : ∀ (id : NodeId) (m : Node), id < a.len → b.nodes[id]? = some m →
    ∃ n, a.nodes[id]? = some n ∧ m.op = n.op ∧ m.shape = n.shape ∧
      (n.op.isViewOp = true → ∀ y, m.inputs.head? = some y → ∃ x, n.inputs.head? = some x ∧
        (x < a.len → y < b.len ∧ b.layout y = a.layout x))
  fresh : ∀ (id : NodeId) (m : Node), a.len ≤ id → b.nodes[id]? = some m → m.op.isViewOp = false

theorem Redirected.shape (h : a.Redirected b) (hid : id < a.len) :
    (b.nodes[id]?).map Node.shape = (a.nodes[id]?).map Node.shape := by
  have hb : id < b.len := Nat.lt_of_lt_of_le hid h.len
  obtain ⟨m, hm⟩ : ∃ m, b.nodes[id]? = some m := ⟨_, getElem?_eq_getElem hb⟩
  obtain ⟨n, hn, -, hshape, -⟩ := h.old id m hid hm
  rw [hm, hn, map_some, map_some, hshape]

theorem Redirected.layout (h : a.Redirected b) (hid : id < a.len) :
    b.layout id = a.layout id :=
  layout_eq_of_node (congrFun h.layouts id) (h.shape hid)

theorem Redirected.refl (a : Arena S) : a.Redirected a := by
  constructor
  case layouts => rfl
  case len => exact Nat.le_refl _
  case old =>
    intro id m _ hm
    exact ⟨m, hm, rfl, rfl, fun _ y hy => ⟨y, hy, fun hlt => ⟨hlt, rfl⟩⟩⟩
  case fresh =>
    intro id m hid hm
    rw [getElem?_eq_none hid] at hm
    cases hm

theorem Redirected.trans (h : a.Redirected b) (h' : b.Redirected c) : a.Redirected c := by
  constructor
  case layouts => rw [h'.layouts, h.layouts]
  case len => exact Nat.le_trans h.len h'.len
  case old =>
    intro id k hid hk
    obtain ⟨m, hm, hop', hshape', hhead'⟩ := h'.old id k (Nat.lt_of_lt_of_le hid h.len) hk
    obtain ⟨n, hn, hop, hshape, hhead⟩ := h.old id m hid hm
    refine ⟨n, hn, hop'.trans hop, hshape'.trans hshape, fun hview z hz => ?_⟩
    obtain ⟨y, hy, hyz⟩ := hhead' (hop ▸ hview) z hz
    obtain ⟨x, hx, hxy⟩ := hhead hview y hy
    refine ⟨x, hx, fun hlt => ?_⟩
    obtain ⟨hylt, hly⟩ := hxy hlt
    obtain ⟨hzlt, hlz⟩ := hyz hylt
    exact ⟨hzlt, hlz.trans hly⟩
  case fresh =>
    intro id k hid hk
    by_cases hlt : id < b.len
    · obtain ⟨m, hm, hop, -⟩ := h'.old id k hlt hk
      rw [hop]
      exact h.fresh id m hid hm
    · exact h'.fresh id k (Nat.le_of_not_lt hlt) hk

/-- **Redirecting keeps the layouts coherent.** -/
theorem LayoutInv.redirected (h : a.LayoutInv) (hr : a.Redirected b) : b.LayoutInv := by
  -- a view of `b` is one of `a`, its first input one with the layout of the old first input
  have hold : ∀ (id : NodeId) (m : Node) (y : NodeId), b.nodes[id]? = some m →
      m.op.isViewOp = true → m.inputs.head? = some y → id < a.len ∧ ∃ n x,
        a.nodes[id]? = some n ∧ n.op = m.op ∧ n.inputs.head? = some x ∧ y < b.len ∧
          b.layout y = a.layout x := by
    intro id m y hm hview hy
    have hid : id < a.len := by
      by_contra hge
      rw [hr.fresh id m (Nat.le_of_not_lt hge) hm] at hview
      cases hview
    obtain ⟨n, hn, hop, -, hhead⟩ := hr.old id m hid hm
    obtain ⟨x, hx, hxy⟩ := hhead (hop ▸ hview) y hy
    obtain ⟨hlt, hlayout⟩ := hxy (h.heads id n hn (hop ▸ hview) x hx)
    exact ⟨hid, n, x, hn, hop.symm, hx, hlt, hlayout⟩
  constructor
  case coherent =>
    intro id m y l l' hm hy hl hd
    obtain ⟨hid, n, x, hn, hop, hx, -, hlayout⟩ := hold id m y hm (isViewOp_of_derive hd) hy
    rw [hr.layout hid]
    rw [hlayout] at hl
    rw [← hop] at hd
    exact h.coherent id n x l l' hn hx hl hd
  case heads =>
    intro id m hm hview y hy
    obtain ⟨-, -, -, -, -, -, hlt, -⟩ := hold id m y hm hview hy
    exact hlt
  case views =>
    intro id l hl
    rw [hr.layouts] at hl
    obtain ⟨n, hn, hview⟩ := h.views id l hl
    have hid : id < a.len := lt_of_getElem? hn
    have hb : id < b.len := Nat.lt_of_lt_of_le hid hr.len
    refine ⟨_, getElem?_eq_getElem hb, ?_⟩
    obtain ⟨n', hn', hop, -⟩ := hr.old id _ hid (getElem?_eq_getElem hb)
    rw [hn, some.injEq] at hn'
    rw [hop, ← hn', hview]

theorem layout_rewriteInput (a : Arena S) (r old new id : NodeId) :
    (a.withGraph (a.toGraph.rewriteInput r old new)).layout id = a.layout id := by
  apply layout_eq_of_node
  · rfl
  · show ((a.toGraph.rewriteInput r old new).nodes[id]?).map Node.shape = _
    rw [Graph.node_rewriteInput, Option.map_map]
    congr 1
    funext n
    split <;> rfl

/-- One input redirected. -/
theorem Redirected.rewriteInput {r old new : NodeId} (hnew : new < a.len)
    (h : ∀ n, a.nodes[r]? = some n → n.op.isViewOp = true → a.layout new = a.layout old) :
    a.Redirected (a.withGraph (a.toGraph.rewriteInput r old new)) := by
  have hlen : (a.withGraph (a.toGraph.rewriteInput r old new)).len = a.len :=
    a.toGraph.len_rewriteInput r old new
  constructor
  case layouts => rfl
  case len => exact Nat.le_of_eq hlen.symm
  case old =>
    intro id m hid hm
    obtain ⟨n, hn⟩ : ∃ n, a.nodes[id]? = some n := ⟨_, getElem?_eq_getElem hid⟩
    change (a.toGraph.rewriteInput r old new).nodes[id]? = some m at hm
    rw [Graph.node_rewriteInput, hn, map_some, some.injEq] at hm
    rw [hlen]
    by_cases hr : r = id
    · subst hr
      rw [if_pos rfl] at hm
      subst hm
      refine ⟨n, hn, rfl, rfl, fun hview y hy => ?_⟩
      rw [head?_map, map_eq_some_iff] at hy
      obtain ⟨x, hx, rfl⟩ := hy
      refine ⟨x, hx, fun hlt => ?_⟩
      rw [layout_rewriteInput]
      by_cases hxold : x = old
      · rw [if_pos hxold, hxold]
        exact ⟨hnew, h n hn hview⟩
      · rw [if_neg hxold]
        exact ⟨hlt, rfl⟩
    · rw [if_neg hr] at hm
      subst hm
      exact ⟨n, hn, rfl, rfl, fun _ y hy =>
        ⟨y, hy, fun hlt => ⟨hlt, a.layout_rewriteInput r old new y⟩⟩⟩
  case fresh =>
    intro id m hid hm
    rw [← hlen] at hid
    rw [getElem?_eq_none hid] at hm
    cases hm

/-! ## Safety copies -/

/-- A pass that appends nodes that are no views and maps every input, the first input of a
view only to a node with the same layout. -/
theorem Redirected.of_map (f : NodeId → NodeId → NodeId) (hlen : a.len ≤ g'.len)
    (hold : ∀ id < a.len, g'.nodes[id]? =
      (a.nodes[id]?).map fun n => { n with inputs := n.inputs.map (f id) })
    (hfresh : ∀ (id : NodeId) (m : Node), a.len ≤ id → g'.nodes[id]? = some m →
      m.op.isViewOp = false)
    (hheads : ∀ (id : NodeId) (n : Node) (x : NodeId), a.nodes[id]? = some n →
      n.op.isViewOp = true → x ∈ n.inputs → x < a.len →
        f id x < g'.len ∧ (a.withGraph g').layout (f id x) = a.layout x) :
    a.Redirected (a.withGraph g') := by
  constructor
  case layouts => rfl
  case len => exact hlen
  case old =>
    intro id m hid hm
    change g'.nodes[id]? = some m at hm
    rw [hold id hid] at hm
    obtain ⟨n, hn, rfl⟩ := map_eq_some_iff.mp hm
    refine ⟨n, hn, rfl, rfl, fun hview y hy => ?_⟩
    rw [head?_map, map_eq_some_iff] at hy
    obtain ⟨x, hx, rfl⟩ := hy
    exact ⟨x, hx, hheads id n x hn hview (mem_of_head? hx)⟩
  case fresh => exact hfresh

/-- Nodes keep their layout when their inputs are mapped. -/
theorem layout_of_map {f : NodeId → NodeId}
    (hold : g'.nodes[id]? = (a.nodes[id]?).map fun n => { n with inputs := n.inputs.map f }) :
    (a.withGraph g').layout id = a.layout id := by
  refine layout_eq_of_node rfl ?_
  show (g'.nodes[id]?).map Node.shape = _
  rw [hold, Option.map_map]
  rfl

/-- An appended node is contiguous. -/
theorem LayoutInv.layout_fresh {m : Node} (ha : a.LayoutInv) (hid : a.len ≤ id)
    (hm : g'.nodes[id]? = some m) : (a.withGraph g').layout id = some (.contiguous m.shape) := by
  unfold layout
  rw [show (a.withGraph g').layouts id = none from ha.layouts_eq_none hid]
  show (g'.nodes[id]?).map (fun n => Layout.contiguous n.shape) = _
  rw [hm, map_some]

/-- No view op reads a strided tensor that another op destroys. -/
def NoStridedTarget (a : Arena S) (roots : List NodeId) : Prop :=
  ∀ order, topoOrderMulti a.toGraph roots = some order → ∀ d ∈ order, ∀ v ∈ order, v ≠ d →
    ∀ (n : Node) (t : NodeId), a.destroyed d = some t → a.nodes[v]? = some n →
      n.op.isViewOp = true → t ∈ n.inputs → a.IsContiguous t

theorem redirected_insertSafetyCopies {roots : List NodeId} {k : Nat} (ha : a.LayoutInv)
    (hsafe : a.NoStridedTarget roots) (h : a.insertSafetyCopies roots = some (b, k)) :
    a.Redirected b := by
  obtain ⟨⟨g', k'⟩, hpass, hb⟩ := map_eq_some_iff.mp h
  obtain ⟨rfl, -⟩ := Prod.mk.injEq .. ▸ hb
  obtain ⟨order, horder⟩ : ∃ order, topoOrderMulti a.toGraph roots = some order := by
    obtain ⟨order, horder, -⟩ := map_eq_some_iff.mp hpass
    exact ⟨order, horder⟩
  obtain ⟨hre, -⟩ := insertSafetyCopies_rewired horder hpass
  -- a node past the old ones is the copy of a conflict
  have hcopy : ∀ (id : NodeId) (m : Node), a.len ≤ id → g'.nodes[id]? = some m →
      m.op.isViewOp = false := by
    intro id m hid hm
    have hlt : id < g'.len := lt_of_getElem? hm
    obtain ⟨j, rfl⟩ := Nat.exists_eq_add_of_le hid
    rw [hre.len, Nat.add_lt_add_iff_left] at hlt
    obtain ⟨loc, hnode⟩ := hre.copy j _ (getElem?_eq_getElem hlt)
    rw [hm, some.injEq] at hnode
    rw [hnode]
    rfl
  refine .of_map (rewire a.len (conflicts a.toGraph order)) (hre.len ▸ Nat.le_add_right _ _) hre.old
    hcopy fun v n x hn hview hx hlt => ?_
  rcases rewire_cases a.len (conflicts a.toGraph order) v x with
    ⟨heq, -⟩ | ⟨j, c, hc, rfl, hv, heq, -⟩
  · rw [heq]
    exact ⟨Nat.lt_of_lt_of_le hlt (hre.len ▸ Nat.le_add_right _ _), layout_of_map (hre.old x hlt)⟩
  obtain ⟨d, hd, hcd⟩ := mem_filterMap.mp (mem_of_getElem? hc)
  obtain ⟨-, hdestroyed, -, hreaders, -⟩ := conflictOf_spec hcd
  obtain ⟨t, ht, hshape⟩ := conflictOf_shape hcd
  obtain ⟨loc, hnode⟩ := hre.copy j c hc
  rw [hreaders] at hv
  have hcontiguous := hsafe order horder d hd v (conflictingReaders_subset hv)
    (conflictingReaders_reads hv).1 n c.target hdestroyed hn hview hx t ht
  rw [heq, ha.layout_fresh (Nat.le_add_right _ _) hnode, hcontiguous, hshape]
  exact ⟨lt_of_getElem? hnode, rfl⟩

/-! ## Copies between devices -/

/-- The consumer and one of its inputs are placed on devices that share no storage. -/
structure Crosses (a : Arena S) (t : Topology) (order : List NodeId) (consumer producer : NodeId) :
    Prop where
  mem : consumer ∈ order
  reads : producer ∈ a.inputs consumer
  apart : ∃ src dst, t.placementFor producer = some src ∧ t.placementFor consumer = some dst ∧
    t.sharesStorage src dst = false

/-- No view op reads a strided tensor from another device. -/
def NoStridedCrossing (a : Arena S) (roots : List NodeId) (t : Topology) : Prop :=
  ∀ order, topoOrderMulti a.toGraph roots = some order → ∀ (v p : NodeId) (n : Node),
    a.Crosses t order v p → a.nodes[v]? = some n → n.op.isViewOp = true → a.IsContiguous p

theorem redirected_insertCrossDeviceCopies {roots inserted : List NodeId} (ha : a.LayoutInv)
    (hsafe : a.NoStridedCrossing roots t)
    (h : a.insertCrossDeviceCopies roots t = some (b, inserted)) : a.Redirected b := by
  obtain ⟨⟨g', inserted'⟩, hpass, hb⟩ := map_eq_some_iff.mp h
  obtain ⟨rfl, -⟩ := Prod.mk.injEq .. ▸ hb
  obtain ⟨order, horder⟩ : ∃ order, topoOrderMulti a.toGraph roots = some order := by
    obtain ⟨order, horder, -⟩ := bind_eq_some_iff.mp hpass
    exact ⟨order, horder⟩
  have htopo := topoOrderMulti_spec horder
  obtain ⟨s, hrun, hinv⟩ := insertCrossDeviceCopies_spec t horder
  rw [hrun, some.injEq, Prod.mk.injEq] at hpass
  obtain ⟨rfl, -⟩ := hpass
  have hlen : a.len ≤ s.final.len := s.final_tables.1 ▸ hinv.len
  have hold : ∀ id < a.len, s.final.nodes[id]? =
      (a.nodes[id]?).map fun n => { n with inputs := n.inputs.map (inputAfter s.rewires id) } :=
    fun _ hid => hinv.node_old htopo hid
  have hshape : ∀ {q loc k}, s.copyCache (q, loc) = some k →
      (s.final.nodes[k]?).map Node.shape = (s.final.nodes[q]?).map Node.shape := by
    intro q loc k hk
    obtain ⟨n, hn, hnode⟩ := (hinv.copyOf_cached htopo hk).node
    rw [hn, hnode]
    rfl
  refine .of_map (inputAfter s.rewires) hlen hold (fun id m hid hm => ?_)
    fun v n p hn hview hp hlt => ?_
  · have hidlt : id < s.graph.len := s.final_tables.1 ▸ (lt_of_getElem? hm)
    obtain ⟨q, loc, hq⟩ := hinv.made id hid hidlt
    obtain ⟨_, _, hnode⟩ := (hinv.copyOf_cached htopo hq).node
    rw [hm, some.injEq] at hnode
    rw [hnode]
    rfl
  rcases inputAfter_cases s.rewires v p with hmem | ⟨heq, -⟩
  · -- after one hop or two the copy has the producer's shape
    obtain ⟨⟨hv, -, hread⟩, src, dst, source, hsrc, hdst, hshare, hstaged, hk⟩ :=
      hinv.noted _ _ _ hmem
    have hof := hinv.copyOf_cached htopo hk
    have hpshape : (s.final.nodes[inputAfter s.rewires v p]?).map Node.shape =
        (s.final.nodes[p]?).map Node.shape := by
      rw [hshape hk]
      cases hhost : t.needsHostStaging src dst with
      | true =>
        rw [hhost] at hstaged
        exact hshape hstaged
      | false =>
        rw [hhost] at hstaged
        rw [show source = p from hstaged]
    refine ⟨hof.lt, ?_⟩
    obtain ⟨_, _, hnode⟩ := hof.node
    obtain ⟨m, hm⟩ : ∃ m, a.nodes[p]? = some m := ⟨_, getElem?_eq_getElem hlt⟩
    rw [hnode, hold p hlt, hm] at hpshape
    rw [ha.layout_fresh hof.fresh hnode, hsafe order horder v p n
      ⟨hv, hread, src, dst, hsrc, hdst, hshare⟩ hn hview m hm, ← some.inj hpshape]
  · rw [heq]
    exact ⟨Nat.lt_of_lt_of_le hlt hlen, layout_of_map (hold p hlt)⟩

/-! ## Rewrite rules -/

/-- Nodes appended one after another, each view over a node that is there. -/
def HeadsBelow : Nat → List Node → Prop
  | _, [] => True
  | len, n :: rest => n.HeadBelow len ∧ HeadsBelow (len + 1) rest

theorem LayoutInv.pushAll {nodes : List Node} (h : a.LayoutInv) (hheads : HeadsBelow a.len nodes) :
    (a.pushAll nodes).LayoutInv ∧ a.len ≤ (a.pushAll nodes).len ∧
      ∀ id < a.len, (a.pushAll nodes).layout id = a.layout id := by
  induction nodes generalizing a with
  | nil => exact ⟨h, Nat.le_refl _, fun _ _ => rfl⟩
  | cons n nodes ih =>
    obtain ⟨hhead, hrest⟩ := hheads
    rw [← a.len_push n] at hrest
    obtain ⟨hinv, hlen, hlayout⟩ := ih (h.push hhead) hrest
    rw [a.len_push] at hlen
    refine ⟨hinv, Nat.le_of_succ_le hlen, fun id hid => ?_⟩
    show ((a.push n).pushAll nodes).layout id = _
    rw [hlayout id (by rw [a.len_push]; exact Nat.lt_succ_of_lt hid), layout_push_of_lt hid]

end Arena

/-- The rewrite appends views over nodes that are there, and replaces nodes only by
nodes with the same layout. -/
structure Rewrite.KeepsLayouts (w : Rewrite) (a : Arena S) : Prop where
  heads : Arena.HeadsBelow a.len w.pushed
  remap : ∀ p p', (p, p') ∈ w.remap →
    p' < (w.apply a).len ∧ (w.apply a).layout p' = (w.apply a).layout p

namespace PassState

variable {s : PassState S} {rules : List (Rule S)} {family : RuleFamily}

/-- The layouts are coherent, and replacements have the layout of what they replace. -/
structure LayoutInv (s : PassState S) : Prop where
  arena : s.arena.LayoutInv
  remap : ∀ p p', s.remap p = some p' → p' < s.arena.len ∧ s.arena.layout p' = s.arena.layout p

theorem LayoutInv.start {a : Arena S} (h : a.LayoutInv) : LayoutInv { arena := a } :=
  ⟨h, fun _ _ hp => (nomatch hp)⟩

/-- The rule that fires at the node, if one does, keeps the layouts. -/
def FiringKeeps (s : PassState S) (rules : List (Rule S)) (family : RuleFamily) (id : NodeId) :
    Prop :=
  ∀ r, s.remap id = none →
    (rules.find? fun r => decide (r.family = family) && r.fits s.arena id) = some r →
    (r.rewrite s.arena id).KeepsLayouts s.arena

variable (h : s.LayoutInv)

include h

theorem LayoutInv.record {p p' : NodeId} (hlt : p' < s.arena.len)
    (hlayout : s.arena.layout p' = s.arena.layout p) : (s.record (p, p')).LayoutInv := by
  refine ⟨h.arena, fun q q' hq => ?_⟩
  by_cases hqp : q = p
  · subst hqp
    simp only [PassState.record, update_self, some.injEq] at hq
    exact hq ▸ ⟨hlt, hlayout⟩
  · simp only [PassState.record, update_of_ne hqp] at hq
    exact h.remap q q' hq

theorem LayoutInv.foldl_record {remap : List (NodeId × NodeId)}
    (hremap : ∀ p p', (p, p') ∈ remap → p' < s.arena.len ∧ s.arena.layout p' = s.arena.layout p) :
    (remap.foldl PassState.record s).LayoutInv := by
  induction remap generalizing s with
  | nil => exact h
  | cons r remap ih =>
    obtain ⟨hlt, hlayout⟩ := hremap r.1 r.2 mem_cons_self
    exact ih (h.record hlt hlayout) fun p p' hp => hremap p p' (mem_cons_of_mem _ hp)

theorem LayoutInv.visit {id : NodeId} (hfires : s.FiringKeeps rules family id) :
    (visit rules family s id).LayoutInv := by
  unfold PassState.visit
  split
  · exact h
  rename_i hnew
  split
  · exact h
  rename_i r hr
  have hkeeps := hfires r (by simpa using hnew) hr
  obtain ⟨hinv, hlen, hlayout⟩ := h.arena.pushAll hkeeps.heads
  refine LayoutInv.foldl_record ⟨⟨hinv.coherent, hinv.heads, hinv.views⟩, ?_⟩ hkeeps.remap
  intro p p' hp
  obtain ⟨hlt, heq⟩ := h.remap p p' hp
  -- a replacement's layout is that of an old node, so what it replaces is an old node
  obtain ⟨l, hl⟩ := Arena.layout_isSome_of_lt hlt
  have hplt : p < s.arena.len := h.arena.lt_of_layout (heq ▸ hl)
  exact ⟨Nat.lt_of_lt_of_le hlt hlen, (hlayout p' hlt).trans (heq.trans (hlayout p hplt).symm)⟩

theorem LayoutInv.redirectNode {g : Graph} {id : NodeId}
    (hg : s.arena.Redirected (s.arena.withGraph g)) :
    s.arena.Redirected (s.arena.withGraph (redirectNode s.remap g id)) := by
  refine foldl_invariant (I := fun _ g => s.arena.Redirected (s.arena.withGraph g)) _ hg ?_
  intro _ i _ g' _ hg'
  cases hcur : (g'.inputs id)[i]? with
  | none => exact hg'
  | some cur =>
    cases hnew : s.remap cur with
    | none => simpa only [hnew] using hg'
    | some new =>
      simp only [hnew]
      obtain ⟨hlt, heq⟩ := h.remap cur new hnew
      obtain ⟨l, hl⟩ := Arena.layout_isSome_of_lt hlt
      have hcurlt : cur < s.arena.len := h.arena.lt_of_layout (heq ▸ hl)
      refine hg'.trans (.rewriteInput (a := s.arena.withGraph g')
        (Nat.lt_of_lt_of_le hlt hg'.len) fun _ _ _ => ?_)
      rw [hg'.layout hlt, hg'.layout hcurlt, heq]

theorem LayoutInv.redirectAll :
    s.arena.Redirected (s.arena.withGraph (redirectAll s.remap s.arena.toGraph)) :=
  foldl_invariant (I := fun _ g => s.arena.Redirected (s.arena.withGraph g)) _ (.refl _)
    fun _ _ _ _ _ hg => h.redirectNode hg

end PassState

namespace Arena

variable {a b : Arena S} {rules : List (Rule S)} {family : RuleFamily}
  {roots roots' : List NodeId}

/-- Every rule that fires in a pass over the arena keeps the layouts. -/
def PassKeeps (a : Arena S) (rules : List (Rule S)) (family : RuleFamily) (roots : List NodeId) :
    Prop :=
  ∀ order, topoOrderMulti a.toGraph roots = some order → ∀ done id rest, order = done ++ id :: rest →
    (done.foldl (PassState.visit rules family) { arena := a }).FiringKeeps rules family id

theorem LayoutInv.visits {order : List NodeId} (h : a.LayoutInv)
    (hfires : ∀ done id rest, order = done ++ id :: rest →
      (done.foldl (PassState.visit rules family) { arena := a }).FiringKeeps rules family id)
    (done : List NodeId) (hdone : done <+: order) :
    (done.foldl (PassState.visit rules family) { arena := a }).LayoutInv := by
  induction done using List.reverseRecOn with
  | nil => exact .start h
  | append_singleton done id ih =>
    obtain ⟨rest, hrest⟩ := hdone
    rw [append_assoc, singleton_append] at hrest
    rw [foldl_append]
    exact (ih ⟨_, hrest⟩).visit (hfires done id rest hrest.symm)

theorem LayoutInv.runPass {fired : Bool} (h : a.LayoutInv) (hpass : a.PassKeeps rules family roots)
    (hrun : a.runPass rules family roots = some (b, roots', fired)) : b.LayoutInv := by
  obtain ⟨order, horder, hrun⟩ := bind_eq_some_iff.mp hrun
  have hinv := h.visits (hpass order horder) order (prefix_refl order)
  simp only at hrun
  split at hrun
  · cases hrun
    exact hinv.arena.redirected hinv.redirectAll
  · cases hrun
    exact hinv.arena

/-- The passes that `optimize_to_fixpoint` makes: where each one starts. -/
inductive MakesPass (rules : List (Rule S)) (a : Arena S) (roots : List NodeId) :
    RuleFamily → Arena S → List NodeId → Prop
  | lowering : MakesPass rules a roots .lowering a roots
  | fusion {b r} (h : Fixpoint rules .lowering a roots b r) : MakesPass rules a roots .fusion b r
  | algebraic {b c r r'} (h : Fixpoint rules .lowering a roots b r)
      (h' : Fixpoint rules .fusion b r c r') : MakesPass rules a roots .algebraic c r'
  | again {family b c r r'} (h : MakesPass rules a roots family b r)
      (hrun : b.runPass rules family r = some (c, r', true)) : MakesPass rules a roots family c r'

theorem LayoutInv.fixpoint {c : Arena S} {r r' : List NodeId} (hb : b.LayoutInv)
    (hsafe : ∀ c r, c.LayoutInv → MakesPass rules a roots family c r → c.PassKeeps rules family r)
    (hmakes : MakesPass rules a roots family b r) (hrun : Fixpoint rules family b r c r') :
    c.LayoutInv := by
  induction hrun with
  | quiet hpass => exact hb.runPass (hsafe _ _ hb hmakes) hpass
  | fired hpass _ ih => exact ih (hb.runPass (hsafe _ _ hb hmakes) hpass) (hmakes.again hpass)

theorem LayoutInv.optimizesTo (h : a.LayoutInv)
    (hsafe : ∀ family c r, MakesPass rules a roots family c r → c.PassKeeps rules family r)
    (hrun : OptimizesTo rules a roots b roots') : b.LayoutInv := by
  cases hrun with
  | none _ => exact h
  | phases _ h₁ h₂ h₃ =>
    have hlowered := h.fixpoint (fun _ _ _ => hsafe _ _ _) .lowering h₁
    have hfused := hlowered.fixpoint (fun _ _ _ => hsafe _ _ _) (.fusion h₁) h₂
    exact hfused.fixpoint (fun _ _ _ => hsafe _ _ _) (.algebraic h₁ h₂) h₃

section Rules

variable (hrules : ∀ r ∈ rules, ∀ (b : Arena S) (id : NodeId), b.LayoutInv → r.fits b id = true →
  (r.rewrite b id).KeepsLayouts b)

include hrules

/-- Rules that keep the layouts of every coherent arena do so wherever they fire. -/
theorem LayoutInv.passKeeps (h : a.LayoutInv) : a.PassKeeps rules family roots := by
  have hfires : ∀ s : PassState S, s.LayoutInv → ∀ id, s.FiringKeeps rules family id := by
    intro s hs id r _ hr
    have hfound : (decide (r.family = family) && r.fits s.arena id) = true := by
      simpa using find?_some hr
    exact hrules r (mem_of_find?_eq_some hr) s.arena id hs.arena (Bool.and_eq_true_iff.mp hfound).2
  intro order _ done id rest _
  refine hfires _ (foldl_invariant (I := fun _ s => PassState.LayoutInv s) done (.start h) ?_) id
  exact fun _ id _ s _ hs => hs.visit (hfires s hs id)

theorem MakesPass.layoutInv (h : a.LayoutInv) (hmakes : MakesPass rules a roots family b roots') :
    b.LayoutInv := by
  induction hmakes with
  | lowering => exact h
  | fusion h₁ => exact h.fixpoint (fun _ _ hc _ => hc.passKeeps hrules) .lowering h₁
  | algebraic h₁ h₂ =>
    have hlowered := h.fixpoint (fun _ _ hc _ => hc.passKeeps hrules) .lowering h₁
    exact hlowered.fixpoint (fun _ _ hc _ => hc.passKeeps hrules) (.fusion h₁) h₂
  | again _ hrun ih => exact ih.runPass (ih.passKeeps hrules) hrun

end Rules

end Arena

/-- A fusion rule whose matcher takes no view for its root: the fused node and the node it
replaces are both contiguous. -/
theorem fusionRule_keepsLayouts {id : FusedOpId}
    {pattern : Graph → NodeId → Option (List NodeId × FusedOpParams)}
    (hroot : ∀ g nid m, pattern g nid = some m →
      ∃ n, g.nodes[nid]? = some n ∧ n.op.isViewOp = false) :
    ∀ (a : Arena S) (nid : NodeId), a.LayoutInv → (fusionRule id pattern : Rule S).fits a nid = true →
      ((fusionRule id pattern : Rule S).rewrite a nid).KeepsLayouts a := by
  intro a nid ha hfits
  obtain ⟨⟨inputs, params⟩, hm⟩ := isSome_iff_exists.mp hfits
  obtain ⟨n, hn, hview⟩ := hroot a.toGraph nid _ hm
  have hnid : nid < a.len := lt_of_getElem? hn
  let fused : Node := ⟨.fused id params, inputs, n.shape, n.dtype⟩
  have hhead : fused.HeadBelow a.len := fun h => (nomatch h)
  have hrewrite : (fusionRule id pattern : Rule S).rewrite a nid =
      ⟨[fused], [(nid, a.len)], a.sideEffectRoots, a.nodeOutputViews⟩ := by
    simp only [fusionRule, hm, hn, fused]
  rw [hrewrite]
  constructor
  case heads => exact ⟨hhead, trivial⟩
  case remap =>
    intro p p' hp
    rw [mem_singleton] at hp
    cases hp
    show a.len < (a.push fused).len ∧ (a.push fused).layout a.len = (a.push fused).layout nid
    rw [a.len_push, (ha.push hhead).isContiguous (a.node_push_len fused) rfl,
      Arena.layout_push_of_lt hnid, ha.isContiguous hn hview]
    exact ⟨Nat.lt_succ_self _, rfl⟩

theorem FusedLinear.root_of_canonicalPattern {nid : NodeId} {m : List NodeId × FusedOpParams}
    (h : canonicalPattern g nid = some m) :
    ∃ n, g.nodes[nid]? = some n ∧ n.op.isViewOp = false := by
  obtain ⟨n, hn, h⟩ := bind_eq_some_iff.mp h
  refine ⟨n, hn, ?_⟩
  split at h
  · rename_i hop _
    rw [hop]
    rfl
  · cases h

/-! ## Runs -/

/-- A call that appends to the arena or redirects its inputs. -/
inductive Call (S : Type) where
  | push (n : Node)
  | insertSafetyCopies (roots : List NodeId)
  | insertCrossDeviceCopies (roots : List NodeId) (t : Topology)
  | optimizeToFixpoint (rules : List (Rule S)) (roots : List NodeId)

/-- The call returns and leaves the arena `b`. -/
inductive Call.Returns : Call S → Arena S → Arena S → Prop
  | push {a : Arena S} (n : Node) : Returns (.push n) a (a.push n)
  | insertSafetyCopies {a b : Arena S} {roots : List NodeId} {k : Nat}
      (h : a.insertSafetyCopies roots = some (b, k)) : Returns (.insertSafetyCopies roots) a b
  | insertCrossDeviceCopies {a b : Arena S} {roots inserted : List NodeId} {t : Topology}
      (h : a.insertCrossDeviceCopies roots t = some (b, inserted)) :
      Returns (.insertCrossDeviceCopies roots t) a b
  | optimizeToFixpoint {a b : Arena S} {rules : List (Rule S)} {roots roots' : List NodeId}
      (h : OptimizesTo rules a roots b roots') : Returns (.optimizeToFixpoint rules roots) a b

/-- The condition under which a call keeps the layouts: nothing puts a contiguous copy, or a
replacement with another layout, under a view of a strided tensor. -/
def Call.Safe (a : Arena S) : Call S → Prop
  | .push n => n.HeadBelow a.len
  | .insertSafetyCopies roots => a.NoStridedTarget roots
  | .insertCrossDeviceCopies roots t => a.NoStridedCrossing roots t
  | .optimizeToFixpoint rules roots => ∀ family b r,
      Arena.MakesPass rules a roots family b r → b.PassKeeps rules family r

/-- The calls return one after another, each where `P` holds. -/
inductive Calls (P : Arena S → Call S → Prop) : List (Call S) → Arena S → Arena S → Prop
  | nil (a : Arena S) : Calls P [] a a
  | cons {a b c : Arena S} {call : Call S} {rest : List (Call S)} (hp : P a call)
      (hcall : call.Returns a b) (hrest : Calls P rest b c) : Calls P (call :: rest) a c

/-- One call keeps the invariant. -/
theorem Arena.LayoutInv.call {a b : Arena S} {call : Call S} (h : a.LayoutInv)
    (hsafe : call.Safe a) (hcall : call.Returns a b) : b.LayoutInv := by
  cases hcall with
  | push n => exact h.push hsafe
  | insertSafetyCopies hrun => exact h.redirected (redirected_insertSafetyCopies h hsafe hrun)
  | insertCrossDeviceCopies hrun =>
    exact h.redirected (redirected_insertCrossDeviceCopies h hsafe hrun)
  | optimizeToFixpoint hrun => exact h.optimizesTo hsafe hrun

theorem Calls.append {P : Arena S → Call S → Prop} {a b c : Arena S} {l l' : List (Call S)}
    (h : Calls P l a b) (h' : Calls P l' b c) : Calls P (l ++ l') a c := by
  induction h with
  | nil => exact h'
  | cons hp hcall _ ih => exact .cons hp hcall (ih h')

theorem Arena.LayoutInv.calls {a b : Arena S} {calls : List (Call S)} (h : a.LayoutInv)
    (hrun : Calls (fun a call => call.Safe a) calls a b) : b.LayoutInv := by
  induction hrun with
  | nil a => exact h
  | cons hsafe hcall _ ih => exact ih (h.call hsafe hcall)

/-- **The layouts of views stay coherent** in every run whose calls are safe. -/
theorem calls_coherent (calls : List (Call S)) (a : Arena S)
    (hrun : Calls (fun a call => call.Safe a) calls .new a) : a.Coherent :=
  (Arena.LayoutInv.new.calls hrun).coherent

/-- No view op reads a node with a layout of its own. -/
def Arena.Flat (a : Arena S) : Prop :=
  ∀ n ∈ a.nodes, n.op.isViewOp = true → ∀ p ∈ n.inputs, a.layouts p = none

instance (a : Arena S) : Decidable a.Flat :=
  inferInstanceAs (Decidable (∀ n ∈ a.nodes, n.op.isViewOp = true → ∀ p ∈ n.inputs,
    a.layouts p = none))

section Flat

variable {a : Arena S}

theorem Arena.Flat.isContiguous (h : a.Flat) {v p : NodeId} {n : Node} (hn : a.nodes[v]? = some n)
    (hview : n.op.isViewOp = true) (hp : p ∈ n.inputs) : a.IsContiguous p := by
  intro m hm
  rw [Arena.layout, h n (mem_of_getElem? hn) hview p hp, hm]
  rfl

theorem Arena.Flat.noStridedTarget (h : a.Flat) (roots : List NodeId) : a.NoStridedTarget roots :=
  fun _ _ _ _ _ _ _ _ _ _ hn hview ht => h.isContiguous hn hview ht

theorem Arena.Flat.noStridedCrossing (h : a.Flat) (roots : List NodeId) (t : Topology) :
    a.NoStridedCrossing roots t :=
  fun _ _ _ _ _ hcross hn hview =>
    h.isContiguous hn hview (by rw [← Graph.inputs_eq hn]; exact hcross.reads)

end Flat

namespace Samples

/-- A tensor of `f32`. -/
def node (op : Op) (inputs : List NodeId) (dims : List Nat) : Node := ⟨op, inputs, .ofDims dims, .f32⟩

/-- Everything on the host but node `id`, which is on a GPU. -/
def onGpu (id : NodeId) : Topology where
  placementFor i := some (if i = id then .cuda 0 else .cpu)
  sharesStorage src dst := decide (src = dst)
  needsHostStaging _ _ := false

/-- A product with bias, transposed. -/
def linear : List Node :=
  [node .const [] [2, 3], node .const [] [3, 4], node .matMul [0, 1] [2, 4], node .const [] [4],
    node (.broadcastTo (.ofDims [2, 4])) [3] [2, 4], node .add [2, 4] [2, 4],
    node .transpose [5] [4, 2]]

end Samples

open Samples in
theorem calls_coherent_linear : ∃ a : Arena Unit,
    Calls (fun a call => call.Safe a) (linear.map Call.push ++
      [.optimizeToFixpoint [fusionRule FusedOps.fusedLinear FusedLinear.canonicalPattern] [6],
        .insertCrossDeviceCopies [6] (onGpu 6), .insertSafetyCopies [6]]) .new a ∧
      a.inputs 6 = [8] ∧ a.Coherent := by
  have hpushed : Calls (fun a call => call.Safe a) (linear.map Call.push) (.new : Arena Unit)
      (linear.foldl Arena.push .new) := by
    refine .cons ?_ (.push _) <| .cons ?_ (.push _) <| .cons ?_ (.push _) <|
      .cons ?_ (.push _) <| .cons ?_ (.push _) <| .cons ?_ (.push _) <| .cons ?_ (.push _) <| .nil _
    case refine_5 | refine_7 =>
      intro _ x hx
      cases hx
      decide
    all_goals exact fun hview => (nomatch hview)
  have hrules : ∀ r ∈ [fusionRule FusedOps.fusedLinear FusedLinear.canonicalPattern],
      ∀ (b : Arena Unit) (id : NodeId), b.LayoutInv → r.fits b id = true →
        (r.rewrite b id).KeepsLayouts b := by
    intro r hr
    rw [mem_singleton.mp hr]
    exact fusionRule_keepsLayouts fun _ _ _ => FusedLinear.root_of_canonicalPattern
  obtain ⟨a, hrun, hinputs⟩ : ∃ a : Arena Unit, Calls (fun a call => call.Safe a)
      [.optimizeToFixpoint [fusionRule FusedOps.fusedLinear FusedLinear.canonicalPattern] [6],
        .insertCrossDeviceCopies [6] (onGpu 6), .insertSafetyCopies [6]]
      (linear.foldl Arena.push .new) a ∧ a.inputs 6 = [8] := by
    refine ⟨_, .cons ?_ (.optimizeToFixpoint (.phases (by simp) (.quiet rfl)
        (.fired rfl (.quiet rfl)) (.quiet rfl))) <|
      .cons ?_ (.insertCrossDeviceCopies rfl) <| .cons ?_ (.insertSafetyCopies rfl) <| .nil _, rfl⟩
    · intro family b r hmakes
      exact (hmakes.layoutInv hrules (Arena.LayoutInv.new.calls hpushed)).passKeeps hrules
    · exact Arena.Flat.noStridedCrossing (by decide) _ _
    · exact Arena.Flat.noStridedTarget (by decide) _
  have hall := hpushed.append hrun
  exact ⟨a, hall, hinputs, calls_coherent _ a hall⟩

/-- Two transposes, the second on another device: the copy between them is contiguous, but
the second still has the strides for reading the first. -/
def Samples.twoTransposes : List Node :=
  [node .const [] [2, 3], node .transpose [0] [3, 2], node .transpose [1] [2, 3]]

/-- The transpose of a tensor rectified in place, written over from the tensor as it was
before. No order suits both writes, so their readers get copies, a further transpose among them. -/
def Samples.writtenOver : List Node :=
  [node .const [] [2, 2], node .reluInplace [0] [2, 2], node .transpose [1] [2, 2],
    node (.writeSlice [(0, 2), (0, 2)] none) [2, 0] [2, 2], node .transpose [2] [2, 2],
    node .add [3, 4] [2, 2]]

open Samples in
theorem calls_leave_layouts_stale :
    (∃ a : Arena Unit, Calls (fun _ _ => True) (twoTransposes.map Call.push ++
      [.insertCrossDeviceCopies [2] (onGpu 2)]) .new a ∧ a.inputs 2 = [3] ∧ ¬ a.Coherent) ∧
    ∃ a : Arena Unit, Calls (fun _ _ => True) (writtenOver.map Call.push ++
      [.insertSafetyCopies [5]]) .new a ∧ a.inputs 4 = [7] ∧ ¬ a.Coherent := by
  constructor
  · refine ⟨_, .cons trivial (.push _) <| .cons trivial (.push _) <| .cons trivial (.push _) <|
      .cons trivial (.insertCrossDeviceCopies rfl) <| .nil _, rfl, fun h => ?_⟩
    exact absurd (h 2 _ 3 _ _ rfl rfl rfl rfl) (by decide)
  · refine ⟨_, .cons trivial (.push _) <| .cons trivial (.push _) <| .cons trivial (.push _) <|
      .cons trivial (.push _) <| .cons trivial (.push _) <| .cons trivial (.push _) <|
      .cons trivial (.insertSafetyCopies rfl) <| .nil _, rfl, fun h => ?_⟩
    exact absurd (h 4 _ 7 _ _ rfl rfl rfl rfl) (by decide)

end Fuel.IR
