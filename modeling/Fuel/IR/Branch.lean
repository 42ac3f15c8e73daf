import Fuel.IR.Graph
import Fuel.Lib.Kahn
import Fuel.Lib.Lists
import Fuel.Lib.Search

/-!
# Building branches

A branch node records a choice between arms that leave one node and meet again
at another. `finalizeBranches` is the only way to make one: it checks the arms
and appends the node, or reports why not.

`Built` is the arena as callers grow it, by appending ordinary nodes and
finalizing branches. What the checks established when a branch was appended
still holds in every later arena (`Built.wellBranched`), because appending
changes no path between older nodes.
-/

namespace Fuel.IR

open Fuel.DepGraph Relation List Fuel.IR.Graph

/-! ## Rejections -/

/-- Why a branch is rejected. -/
inductive InvalidBranch where
  | noArms
  | divergeOutOfBounds (diverge n : Nat)
  | reconvergeOutOfBounds (reconvergeAt n : Nat)
  | armOutOfBounds (arm n : Nat)
  | reconvergeIsDiverge (reconvergeAt : NodeId)
  | notDescendant (reconvergeAt diverge : NodeId)
  | notUniform (arm : NodeId) (shape : Shape) (dtype : DType) (arm0 : NodeId) (wantShape : Shape)
      (wantDtype : DType)
  | armZeroUnread (reconvergeAt arm0 : NodeId)
  | emptyInterior (exit diverge : NodeId)
  | sharedInterior (i j : Nat) (shared : NodeId)
  | readFromOutside (i : Nat) (m c : NodeId)
  deriving DecidableEq

/-! ## The builder -/

structure BranchBuilder where
  diverge : NodeId
  arms : List NodeId

/-- `Graph::open_branch`. -/
def openBranch (diverge : NodeId) : BranchBuilder := ⟨diverge, []⟩

def BranchBuilder.addArm (b : BranchBuilder) (exit : NodeId) : BranchBuilder :=
  { b with arms := b.arms ++ [exit] }

namespace Graph

/-- The nodes that read a node. -/
def consumers (g : Graph) (id : NodeId) : List NodeId := dependents (List.range g.len) g.inputs id

def forwardReachable (g : Graph) (start : NodeId) : List NodeId :=
  cone g.consumers (fun _ => true) (List.range g.len) start

def backwardReachable (g : Graph) (start : NodeId) : List NodeId :=
  cone g.inputs (fun _ => true) (List.range g.len) start

end Graph

/-- A check of the builder: pass, or the rejection. -/
def require (p : Prop) [Decidable p] (e : InvalidBranch) : Except InvalidBranch Unit :=
  if p then .ok () else .error e

namespace BranchBuilder

/-- An arm's nodes past the diverge point. -/
def interior (b : BranchBuilder) (g : Graph) (exit : NodeId) : List NodeId :=
  (g.backwardReachable exit).filter fun n =>
    decide (n ∈ g.forwardReachable b.diverge) && decide (n ≠ b.diverge)

def interiors (b : BranchBuilder) (g : Graph) : List (List NodeId) := b.arms.map (b.interior g)

/-- (1) Every node named is in the arena. -/
def checkBounds (b : BranchBuilder) (g : Graph) (reconvergeAt : NodeId) :
    Except InvalidBranch Unit := do
  require (b.arms ≠ []) .noArms
  require (b.diverge < g.len) (.divergeOutOfBounds b.diverge g.len)
  require (reconvergeAt < g.len) (.reconvergeOutOfBounds reconvergeAt g.len)
  b.arms.forM fun arm => require (arm < g.len) (.armOutOfBounds arm g.len)

/-- (2) The merge node is a strict descendant of the diverge point. -/
def checkReconverge (b : BranchBuilder) (g : Graph) (reconvergeAt : NodeId) :
    Except InvalidBranch Unit := do
  require (reconvergeAt ≠ b.diverge) (.reconvergeIsDiverge reconvergeAt)
  require (reconvergeAt ∈ g.forwardReachable b.diverge) (.notDescendant reconvergeAt b.diverge)

/-- (4) All exits have arm 0's shape and type. -/
def checkUniform (b : BranchBuilder) (g : Graph) (arm0 : NodeId) (want : Node) :
    Except InvalidBranch Unit :=
  b.arms.tail.forM fun arm =>
    match g.nodes[arm]? with
    | none => .error (.armOutOfBounds arm g.len)
    | some n => require (n.shape = want.shape ∧ n.dtype = want.dtype)
        (.notUniform arm n.shape n.dtype arm0 want.shape want.dtype)

/-- (3) Every arm has an interior. -/
def checkInteriors (b : BranchBuilder) (g : Graph) : Except InvalidBranch Unit :=
  b.arms.forM fun exit => require (b.interior g exit ≠ []) (.emptyInterior exit b.diverge)

/-- (3a) No two arms share an interior node. -/
def checkDisjoint (b : BranchBuilder) (g : Graph) : Except InvalidBranch Unit :=
  (b.interiors g).zipIdx.forM fun (mine, i) =>
    ((b.interiors g).zipIdx.filter fun other => decide (i < other.2)).forM fun (other, j) =>
      match mine.find? fun n => decide (n ∈ other) with
      | some shared => .error (.sharedInterior i j shared)
      | none => .ok ()

/-- (3b) Interior nodes are read inside the branch or by the merge node only. -/
def checkClosed (b : BranchBuilder) (g : Graph) (reconvergeAt : NodeId) :
    Except InvalidBranch Unit :=
  (b.interiors g).zipIdx.forM fun (interior, i) =>
    interior.forM fun m =>
      (g.consumers m).forM fun c =>
        require (c ∈ (b.interiors g).flatten ∨ c = reconvergeAt) (.readFromOutside i m c)

/-- `BranchBuilder::finalize_branches`: the arena and, unless the branch has a
single arm and collapses, the new node. The `none` cases of the lookups are
excluded by the bounds check. -/
def finalizeBranches (b : BranchBuilder) (g : Graph) (reconvergeAt : NodeId) :
    Except InvalidBranch (Graph × Option NodeId) := do
  b.checkBounds g reconvergeAt
  if b.arms.length = 1 then
    return (g, none)
  b.checkReconverge g reconvergeAt
  match b.arms.head? with
  | none => throw .noArms
  | some arm0 =>
    match g.nodes[arm0]? with
    | none => throw (.armOutOfBounds arm0 g.len)
    | some want =>
      b.checkUniform g arm0 want
      require (arm0 ∈ g.inputs reconvergeAt) (.armZeroUnread reconvergeAt arm0)
      b.checkInteriors g
      b.checkDisjoint g
      b.checkClosed g reconvergeAt
      return (g.push ⟨.branch reconvergeAt, b.arms, want.shape, want.dtype⟩, some g.len)

end BranchBuilder

open BranchBuilder

/-! ## What acceptance means -/

@[simp] theorem require_eq_ok {p : Prop} [Decidable p] {e : InvalidBranch} {u : Unit} :
    require p e = .ok u ↔ p := by
  unfold require
  split <;> simp_all

theorem bind_eq_ok {ε α β : Type} {x : Except ε α} {f : α → Except ε β} {b : β} :
    (x >>= f) = .ok b ↔ ∃ a, x = .ok a ∧ f a = .ok b := by
  cases x with
  | error e => simp [bind, Except.bind]
  | ok a => simp [bind, Except.bind]

theorem forM_eq_ok {ε α : Type} {f : α → Except ε Unit} {l : List α} {u : Unit} :
    l.forM f = .ok u ↔ ∀ a ∈ l, f a = .ok () := by
  induction l with
  | nil => simp [pure, Except.pure]
  | cons a l ih =>
    rw [forM_eq_forM] at ih ⊢
    rw [forM_cons, bind_eq_ok, forall_mem_cons, ← ih]
    exact ⟨fun ⟨_, hx, hl⟩ => ⟨hx, hl⟩, fun ⟨hx, hl⟩ => ⟨(), hx, hl⟩⟩

/-- Every input is an older node. -/
def Graph.Ordered (g : Graph) : Prop := ∀ id, ∀ i ∈ g.inputs id, i < id

section Reach

variable {g : Graph}

theorem Graph.Ordered.acyclic (h : g.Ordered) : g.Acyclic :=
  acyclic_of_inputs_lt fun id _ i hi => h id i hi

theorem Graph.Ordered.lt_len (h : g.Ordered) (id : NodeId) : ∀ i ∈ g.inputs id, i < g.len :=
  fun i hi => Nat.lt_trans (h id i hi) (lt_len_of_mem_inputs hi)

theorem Graph.Ordered.le_of_path (h : g.Ordered) {a b : NodeId}
    (hpath : ReflTransGen (Precedes g.inputs) a b) : a ≤ b := by
  induction hpath with
  | refl => exact Nat.le_refl a
  | tail _ hbc ih => exact Nat.le_trans ih (Nat.le_of_lt (h _ _ hbc))

theorem mem_backwardReachable (start n : NodeId) :
    n ∈ g.backwardReachable start ↔ ReflTransGen (Precedes g.inputs) n start :=
  mem_cone (fun _ _ h => inputs_support g _ h) (fun _ _ _ _ => rfl) rfl n

theorem mem_consumers {a b : NodeId} : b ∈ g.consumers a ↔ a ∈ g.inputs b := by
  rw [consumers, mem_dependents, mem_range]
  exact ⟨fun h => h.2, fun h => ⟨lt_len_of_mem_inputs h, h⟩⟩

theorem mem_forwardReachable (h : g.Ordered) (start n : NodeId) :
    n ∈ g.forwardReachable start ↔ ReflTransGen (Precedes g.inputs) start n := by
  have hsupp : ∀ a, (fun _ : NodeId => true) a = true → a ∉ List.range g.len →
      g.consumers a = [] := by
    intro a _ ha
    rw [eq_nil_iff_forall_not_mem]
    intro b hb
    have hin := mem_consumers.mp hb
    exact ha (mem_range.mpr (Nat.lt_trans (h b a hin) (lt_len_of_mem_inputs hin)))
  rw [forwardReachable, mem_cone hsupp (fun _ _ _ _ => rfl) rfl n]
  have hswap : Precedes g.consumers = Function.swap (Precedes g.inputs) := by
    funext a b
    exact propext mem_consumers
  rw [hswap]
  exact reflTransGen_swap

/-- A node strictly after the diverge point that the exit is computed from. -/
def Interior (g : Graph) (diverge exit n : NodeId) : Prop :=
  TransGen (Precedes g.inputs) diverge n ∧ ReflTransGen (Precedes g.inputs) n exit

theorem mem_interior (h : g.Ordered) (b : BranchBuilder) (exit n : NodeId) :
    n ∈ b.interior g exit ↔ Interior g b.diverge exit n := by
  rw [BranchBuilder.interior, mem_filter, mem_backwardReachable, Bool.and_eq_true,
    decide_eq_true_eq, decide_eq_true_eq, mem_forwardReachable h]
  constructor
  · rintro ⟨hexit, hdiv, hne⟩
    rcases reflTransGen_iff_eq_or_transGen.mp hdiv with heq | hpath
    · exact absurd heq hne
    · exact ⟨hpath, hexit⟩
  · rintro ⟨hpath, hexit⟩
    refine ⟨hexit, hpath.to_reflTransGen, fun heq => ?_⟩
    rw [heq] at hpath
    exact h.acyclic _ hpath

end Reach

variable {b : BranchBuilder} {g g' : Graph} {reconvergeAt id : NodeId}

/-- The checks a branch has passed when its node is appended. -/
theorem finalizeBranches_eq_ok (h : b.finalizeBranches g reconvergeAt = .ok (g', some id)) :
    id = g.len ∧
      (∃ arm0 want, b.arms.head? = some arm0 ∧ g.nodes[arm0]? = some want ∧
        arm0 ∈ g.inputs reconvergeAt ∧
        g' = g.push ⟨.branch reconvergeAt, b.arms, want.shape, want.dtype⟩) ∧
      2 ≤ b.arms.length ∧ (∀ arm ∈ b.arms, arm < g.len) ∧
      (∀ exit ∈ b.arms, b.interior g exit ≠ []) ∧ b.checkDisjoint g = .ok () := by
  obtain ⟨_, hbounds, h⟩ := bind_eq_ok.mp h
  simp only [checkBounds, bind_eq_ok, require_eq_ok, forM_eq_ok] at hbounds
  obtain ⟨_, harms, _, -, _, -, hlt⟩ := hbounds
  split at h
  · cases h
  obtain ⟨-, -, h⟩ := bind_eq_ok.mp h
  split at h
  · cases h
  rename_i arm0 harm0
  split at h
  · cases h
  rename_i want hwant
  simp only [bind_eq_ok, require_eq_ok, checkInteriors, forM_eq_ok] at h
  obtain ⟨_, -, _, hread, _, hint, _, hdisj, _, -, hpush⟩ := h
  cases hpush
  have hlen : 2 ≤ b.arms.length := by
    have := length_pos_iff.mpr harms
    omega
  exact ⟨rfl, ⟨arm0, want, harm0, hwant, hread, rfl⟩, hlen, hlt, hint, hdisj⟩

theorem checkDisjoint_eq_ok (h : b.checkDisjoint g = .ok ()) {i j : Nat} (hij : i < j)
    {e e' : NodeId} (he : b.arms[i]? = some e) (he' : b.arms[j]? = some e') {n : NodeId}
    (hn : n ∈ b.interior g e) : n ∉ b.interior g e' := by
  have hmem : ∀ k x, b.arms[k]? = some x → (b.interior g x, k) ∈ (b.interiors g).zipIdx := by
    intro k x hx
    rw [mem_zipIdx_iff_getElem?, interiors, getElem?_map, hx]
    rfl
  simp only [checkDisjoint, forM_eq_ok] at h
  have hpair := h _ (hmem i e he) _ (mem_filter.mpr ⟨hmem j e' he', by simpa using hij⟩)
  split at hpair
  · cases hpair
  · rename_i hnone
    simpa using find?_eq_none.mp hnone n hn

/-! ## Arenas that grow -/

/-- `g'` has the nodes of `g` and perhaps more. -/
def Graph.Extends (g g' : Graph) : Prop := ∀ id < g.len, g'.nodes[id]? = g.nodes[id]?

namespace Graph.Extends

variable {g g' : Graph}

theorem push (g : Graph) (n : Node) : g.Extends (g.push n) := fun _ h => g.node_push_of_lt n h

variable {id : NodeId} (h : g.Extends g')

include h

theorem lt_len (hid : id < g.len) : id < g'.len := by
  have hnode := h id hid
  rw [getElem?_eq_getElem hid] at hnode
  exact lt_of_getElem? hnode

theorem inputs (hid : id < g.len) : g'.inputs id = g.inputs id := by
  simp only [Graph.inputs, h id hid]

theorem branchAt (hid : id < g.len) : g'.branchAt id = g.branchAt id := by
  simp only [Graph.branchAt, Graph.op?, h id hid]

/-- Paths to an old node are the same in both. -/
theorem transGen_iff (hord : g.Ordered) {a b : NodeId} (hb : b < g.len) :
    TransGen (Precedes g'.inputs) a b ↔ TransGen (Precedes g.inputs) a b := by
  constructor
  · intro hpath
    refine (transGen_mono_on (P := fun c => c < g.len) ?_ hb hpath).1
    intro c hc i hi
    rw [h.inputs hc] at hi
    exact ⟨hi, Nat.lt_trans (hord c i hi) hc⟩
  · intro hpath
    refine (transGen_mono_on (P := fun c => c < g.len) ?_ hb hpath).1
    intro c hc i hi
    rw [h.inputs hc]
    exact ⟨hi, Nat.lt_trans (hord c i hi) hc⟩

theorem interior_iff (hord : g.Ordered) {diverge exit n : NodeId} (hexit : exit < g.len) :
    Interior g' diverge exit n ↔ Interior g diverge exit n := by
  have hlt : ReflTransGen (Precedes g.inputs) n exit → n < g.len := fun hpath =>
    Nat.lt_of_le_of_lt (hord.le_of_path hpath) hexit
  have hrefl : ReflTransGen (Precedes g'.inputs) n exit ↔ ReflTransGen (Precedes g.inputs) n exit := by
    rw [reflTransGen_iff_eq_or_transGen, reflTransGen_iff_eq_or_transGen, h.transGen_iff hord hexit]
  unfold Interior
  rw [hrefl]
  exact and_congr_left fun hpath => h.transGen_iff hord (hlt hpath)

end Graph.Extends

/-- What is known of a branch node and the point its arms leave from. -/
structure WellBranched (g : Graph) (branch diverge : NodeId) : Prop where
  lt_len : branch < g.len
  isBranch : (g.branchAt branch).isSome
  two_arms : 2 ≤ (g.inputs branch).length
  diverges : ∀ exit ∈ g.inputs branch, TransGen (Precedes g.inputs) diverge exit
  disjoint : ∀ (i j : Nat) (e e' : NodeId), i ≠ j → (g.inputs branch)[i]? = some e →
    (g.inputs branch)[j]? = some e' → ∀ n, Interior g diverge e n → ¬ Interior g diverge e' n

theorem WellBranched.extends {branch diverge : NodeId} (h : WellBranched g branch diverge)
    (hord : g.Ordered) (hext : g.Extends g') : WellBranched g' branch diverge := by
  have hinputs := hext.inputs h.lt_len
  have hexit : ∀ exit ∈ g.inputs branch, exit < g.len := fun exit he =>
    Nat.lt_trans (hord branch exit he) h.lt_len
  constructor
  case lt_len => exact hext.lt_len h.lt_len
  case isBranch => rw [hext.branchAt h.lt_len]; exact h.isBranch
  case two_arms => rw [hinputs]; exact h.two_arms
  case diverges =>
    intro exit he
    rw [hinputs] at he
    exact (hext.transGen_iff hord (hexit exit he)).mpr (h.diverges exit he)
  case disjoint =>
    intro i j e e' hij he he' n
    rw [hinputs] at he he'
    rw [hext.interior_iff hord (hexit e (mem_of_getElem? he)),
      hext.interior_iff hord (hexit e' (mem_of_getElem? he'))]
    exact h.disjoint i j e e' hij he he' n

/-- A branch that passes the checks is well branched. -/
theorem wellBranched_of_finalize (hord : g.Ordered)
    (h : b.finalizeBranches g reconvergeAt = .ok (g', some id)) : WellBranched g' id b.diverge := by
  obtain ⟨rfl, ⟨-, want, -, -, -, rfl⟩, htwo, hlt, hint, hdisj⟩ := finalizeBranches_eq_ok h
  have hext := Graph.Extends.push g ⟨.branch reconvergeAt, b.arms, want.shape, want.dtype⟩
  have hnode := g.node_push_len ⟨.branch reconvergeAt, b.arms, want.shape, want.dtype⟩
  have hinputs := inputs_eq hnode
  constructor
  case lt_len => exact lt_of_getElem? hnode
  case isBranch => simp [branchAt, op?, hnode, Op.reconvergeAt?]
  case two_arms => rw [hinputs]; exact htwo
  case diverges =>
    intro exit he
    rw [hinputs] at he
    obtain ⟨n, hn⟩ := exists_mem_of_ne_nil _ (hint exit he)
    obtain ⟨hdiv, hexit⟩ := (mem_interior hord b exit n).mp hn
    exact (hext.transGen_iff hord (hlt exit he)).mpr (hdiv.trans_left hexit)
  case disjoint =>
    intro i j e e' hij he he' n
    rw [hinputs] at he he'
    rw [hext.interior_iff hord (hlt e (mem_of_getElem? he)),
      hext.interior_iff hord (hlt e' (mem_of_getElem? he')), ← mem_interior hord,
      ← mem_interior hord]
    intro hn hn'
    rcases Nat.lt_or_gt_of_ne hij with hlt' | hgt
    · exact checkDisjoint_eq_ok hdisj hlt' he he' hn hn'
    · exact checkDisjoint_eq_ok hdisj hgt he' he hn' hn

/-- An arena grown by appending ordinary nodes over older ones and finalizing
branches, with each branch node and its diverge point. The side tables may be
set at any time. -/
inductive Built : Graph → List (NodeId × NodeId) → Prop
  | empty {g : Graph} (h : g.nodes = []) : Built g []
  | push {g : Graph} {branches : List (NodeId × NodeId)} {n : Node} (h : Built g branches)
      (hop : n.op.reconvergeAt? = none) (hin : ∀ i ∈ n.inputs, i < g.len) :
      Built (g.push n) branches
  | finalize {g g' : Graph} {branches : List (NodeId × NodeId)} {b : BranchBuilder}
      {reconvergeAt id : NodeId} (h : Built g branches)
      (hok : b.finalizeBranches g reconvergeAt = .ok (g', some id)) :
      Built g' (branches ++ [(id, b.diverge)])
  | tables {g g' : Graph} {branches : List (NodeId × NodeId)} (h : Built g branches)
      (hnodes : g'.nodes = g.nodes) : Built g' branches

/-- An arena of ordinary nodes over older ones is built. -/
theorem Built.of_branchless
    (h : ∀ id < g.len, ∀ n ∈ g.nodes[id]?, n.op.reconvergeAt? = none ∧ ∀ i ∈ n.inputs, i < id) :
    Built g [] := by
  obtain ⟨nodes, placements, backends⟩ := g
  induction nodes using List.reverseRecOn with
  | nil => exact .empty rfl
  | append_singleton nodes n ih =>
    let prior : Graph := ⟨nodes, placements, backends⟩
    have hlast : prior.len < (prior.push n).len := by rw [prior.len_push n]; exact Nat.lt_succ_self _
    have hnew := h prior.len hlast n (prior.node_push_len n)
    refine Built.push (ih fun id hid m hm => ?_) hnew.1 hnew.2
    exact h id (Nat.lt_trans hid hlast) m ((prior.node_push_of_lt n hid).trans hm)

/-- A finalized branch, with the node it appends written out. -/
theorem Built.branch {branches : List (NodeId × NodeId)} {arm0 : NodeId} {want : Node}
    (h : Built g branches) (hok : (b.finalizeBranches g reconvergeAt).map (·.2) = .ok (some g.len))
    (harm0 : b.arms.head? = some arm0) (hwant : g.nodes[arm0]? = some want) :
    Built (g.push ⟨.branch reconvergeAt, b.arms, want.shape, want.dtype⟩)
      (branches ++ [(g.len, b.diverge)]) := by
  cases hfin : b.finalizeBranches g reconvergeAt with
  | error e => rw [hfin] at hok; cases hok
  | ok result =>
    obtain ⟨g', id⟩ := result
    rw [hfin] at hok
    cases hok
    obtain ⟨-, ⟨arm, node, harm, hnode, -, rfl⟩, -⟩ := finalizeBranches_eq_ok hfin
    obtain rfl := Option.mem_unique harm0 harm
    obtain rfl := Option.mem_unique hwant hnode
    exact .finalize h hfin

theorem Graph.Ordered.push {n : Node} (h : g.Ordered) (hin : ∀ i ∈ n.inputs, i < g.len) :
    (g.push n).Ordered := by
  intro id i hi
  obtain ⟨m, hm⟩ : ∃ m, (g.push n).nodes[id]? = some m :=
    ⟨_, getElem?_eq_getElem (lt_len_of_mem_inputs hi)⟩
  rw [inputs_eq hm] at hi
  rcases g.node_push_eq_some n hm with hold | ⟨rfl, rfl⟩
  · exact h id i (by rwa [inputs_eq hold])
  · exact hin i hi

/-- A branch node of a pushed arena is an old one, or the new node is one. -/
theorem branchAt_push {n : Node} (h : ((g.push n).branchAt id).isSome) :
    (g.branchAt id).isSome ∨ id = g.len ∧ n.op.reconvergeAt?.isSome := by
  obtain ⟨r, hr⟩ := Option.isSome_iff_exists.mp h
  simp only [branchAt, op?, Option.bind_eq_some_iff, Option.map_eq_some_iff] at hr
  obtain ⟨op, ⟨m, hm, rfl⟩, hop⟩ := hr
  rcases g.node_push_eq_some n hm with hold | ⟨rfl, rfl⟩
  · left
    simp [branchAt, op?, hold, hop]
  · right
    simp [hop]

/-- **What holds of every arena callers can build.** -/
structure Built.Spec (g : Graph) (branches : List (NodeId × NodeId)) : Prop where
  ordered : g.Ordered
  wellBranched : ∀ b ∈ branches, WellBranched g b.1 b.2
  recorded : ∀ id, (g.branchAt id).isSome → ∃ diverge, (id, diverge) ∈ branches

theorem Built.spec {branches : List (NodeId × NodeId)} (h : Built g branches) :
    Built.Spec g branches := by
  induction h with
  | empty h =>
    constructor
    case ordered => intro id i hi; simp [inputs, h] at hi
    case wellBranched => intro b hb; cases hb
    case recorded => intro id hid; simp [branchAt, op?, h] at hid
  | @push g branches n _ hop hin ih =>
    have hext := Graph.Extends.push g n
    constructor
    case ordered => exact ih.ordered.push hin
    case wellBranched => exact fun b hb => (ih.wellBranched b hb).extends ih.ordered hext
    case recorded =>
      intro id hid
      rcases branchAt_push hid with hold | ⟨-, hnew⟩
      · exact ih.recorded id hold
      · rw [hop] at hnew
        cases hnew
  | @finalize g g' branches b reconvergeAt id _ hok ih =>
    have hnew := wellBranched_of_finalize ih.ordered hok
    obtain ⟨rfl, ⟨-, want, -, -, -, rfl⟩, -, hlt, -⟩ := finalizeBranches_eq_ok hok
    have hext := Graph.Extends.push g ⟨.branch reconvergeAt, b.arms, want.shape, want.dtype⟩
    constructor
    case ordered => exact ih.ordered.push hlt
    case wellBranched =>
      intro c hc
      rcases mem_append.mp hc with hc | hc
      · exact (ih.wellBranched c hc).extends ih.ordered hext
      · rw [mem_singleton.mp hc]
        exact hnew
    case recorded =>
      intro c hc
      rcases branchAt_push hc with hold | ⟨rfl, -⟩
      · obtain ⟨d, hd⟩ := ih.recorded c hold
        exact ⟨d, mem_append_left _ hd⟩
      · exact ⟨b.diverge, mem_append_right _ (mem_singleton_self _)⟩
  | @tables g g' branches _ hnodes ih =>
    have hext : g.Extends g' := fun id _ => by rw [hnodes]
    have hinputs : g'.inputs = g.inputs := by funext id; simp [inputs, hnodes]
    have hbranch : g'.branchAt = g.branchAt := by
      funext id; simp [branchAt, op?, hnodes]
    constructor
    case ordered => intro id i hi; rw [hinputs] at hi; exact ih.ordered id i hi
    case wellBranched => exact fun b hb => (ih.wellBranched b hb).extends ih.ordered hext
    case recorded => intro id hid; rw [hbranch] at hid; exact ih.recorded id hid

end Fuel.IR
