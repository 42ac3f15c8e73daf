import Fuel.Jit.Recipe
import Fuel.IR.Semantics

/-!
# Matching a region

The matcher walks a region and the graph together from a root. An op of the
region takes a node with its tag, with attributes that agree where the region
sets them, and with as many inputs; below the root the node may have no other
reader. A bind takes any node, the same for each of its occurrences. The two
operands of a commutative op are tried in both orders.

`Matched` is the walk as a relation to the final binds: what a successful match
says about the graph.
-/

namespace Fuel.Jit

open Fuel.IR List Option

variable (conv : ScalarConv)

/-! ## The matcher -/

/-- `op_to_tag`. -/
def opToTag : Op → Option OpTag
  | .add => some .add | .sub => some .sub | .mul => some .mul | .div => some .div
  | .maximum => some .maximum | .minimum => some .minimum | .pow => some .pow | .rem => some .rem
  | .neg => some .neg | .abs => some .abs | .sqr => some .sqr | .sqrt => some .sqrt
  | .rsqrt => some .rsqrt | .recip => some .recip | .exp => some .exp | .log => some .log
  | .sin => some .sin | .cos => some .cos | .tanh => some .tanh | .sigmoid => some .sigmoid
  | .silu => some .silu | .geluTanh => some .geluTanh | .gelu => some .gelu | .relu => some .relu
  | .erf => some .erf | .step => some .step | .floor => some .floor | .ceil => some .ceil
  | .round => some .round | .sign => some .sign
  | .addScalar _ => some .addScalar | .mulScalar _ => some .mulScalar | .powI _ => some .powI
  | .clamp _ _ => some .clamp
  | .equal => some .equal | .ne => some .ne | .lt => some .lt | .le => some .le
  | .gt => some .gt | .ge => some .ge
  | .whereSelect => some .whereSelect | .maskedFill _ => some .maskedFill
  | .sumAll => some .sumAll | .maxAll => some .maxAll | .minAll => some .minAll
  | .meanAll => some .meanAll | .sumDim _ => some .sumDim | .maxDim _ => some .maxDim
  | .meanDim _ => some .meanDim | .reduceSumTo _ => some .reduceSumTo
  | .reduceMaxTo _ => some .reduceMaxTo | .cumSum _ => some .cumSum
  | .matMul => some .matMul | .transpose => some .transpose | .permute _ => some .permute
  | .reshape _ => some .reshape | .broadcastTo _ => some .broadcastTo
  | .unsqueeze _ => some .unsqueeze | .squeeze _ => some .squeeze | .cast _ => some .cast
  | .slice _ _ _ => some .slice | .concat _ => some .concat | .flip _ => some .flip
  | .roll _ _ => some .roll | .pad _ _ _ => some .pad | .triu _ => some .triu | .tril _ => some .tril
  | .indexSelect _ => some .indexSelect | .gather _ => some .gather | .indexAdd _ => some .indexAdd
  | .scatterAdd _ => some .scatterAdd | .logSoftmaxLastDim => some .logSoftmaxLastDim
  | .iota _ => some .iota
  | _ => none

/-- The tag an op is re-emitted from: also those the matcher does not look for. -/
def recipeTag : Op → Option OpTag
  | .scan _ _ _ _ _ => some .scan
  | .scanPlaceholder _ _ => some .scanPlaceholder
  | .view _ => some .view
  | .fused _ _ => some .fused
  | op => opToTag op

/-- **An op determines the tag it was emitted from.** -/
theorem recipeTag_of_tagToOp {conv : ScalarConv} {tag : OpTag} {attrs : OpAttrs} {op : Op}
    (h : tagToOp conv tag attrs = some op) : recipeTag op = some tag := by
  cases tag with
  | matMul =>
    have hmat : matMulFromAttrs attrs = some op := h
    unfold matMulFromAttrs at hmat
    split at hmat
    · cases hmat
      rfl
    · split at hmat <;> cases hmat
      rfl
  | fused =>
    obtain ⟨name, -, hname⟩ := bind_eq_some_iff.mp h
    unfold nestedFused at hname
    split at hname
    · cases hname
      rfl
    · split at hname <;> cases hname
      rfl
  | slice | scanPlaceholder | maskedFill =>
    simp only [tagToOp, sliceFromAttrs, scanPlaceholderFromAttrs, maskedFillFromAttrs, bind_eq_bind,
      bind_eq_some_iff] at h
    obtain ⟨_, -, _, -, _, -, h⟩ := h
    cases h
    rfl
  | roll | pad =>
    simp only [tagToOp, rollFromAttrs, padFromAttrs, bind_eq_bind, bind_eq_some_iff] at h
    obtain ⟨_, -, _, -, h⟩ := h
    cases h
    rfl
  | scan =>
    simp only [tagToOp, scanFromAttrs, bind_eq_bind, bind_eq_some_iff] at h
    obtain ⟨_, -, _, -, _, -, _, -, _, -, h⟩ := h
    cases h
    rfl
  | _ =>
    -- a constant op, an op of one attribute, or none
    first
    | (cases h; rfl)
    | (obtain ⟨_, -, rfl⟩ := map_eq_some_iff.mp h; rfl)
    | cases h

/-- `is_commutative`. -/
def OpTag.isCommutative : OpTag → Bool
  | .add | .mul => true
  | _ => false

def PadMode.code : PadMode → UInt8
  | .constant => 0 | .reflect => 1 | .replicate => 2

/-- `op_to_attrs`. The axes of `CumSum` and of the indexing ops and the targets of the
keep-dimension reductions are not projected. -/
def opToAttrs : Op → OpAttrs
  | .addScalar v | .mulScalar v => { scalars := [v] }
  | .clamp min max => { scalars := [min, max] }
  | .powI n => { scalars := [Float64.ofInt n] }
  | .sumDim d | .maxDim d | .meanDim d | .concat d | .flip d => { axis := some (asI64 d) }
  | .triu diagonal | .tril diagonal => { axis := some diagonal }
  | .permute axes => { perm := axes.map Nat.toUInt8 }
  | .broadcastTo s | .reshape s => { targetShape := s.dims.map asI64 }
  | .unsqueeze dim | .squeeze dim => { dims := [dim.toUInt8] }
  | .slice dim start len =>
    { axis := some (asI64 dim), sliceStart := some start, sliceLen := some len }
  | .roll dim shift => { axis := some (asI64 dim), rollShift := some shift }
  | .cast dt => { castDtype := some dt.asStr }
  | .iota len => { targetShape := [asI64 len] }
  | .pad padding mode value =>
    { padAmounts := padding, padMode := some (PadMode.code mode), padValue := some value }
  | .maskedFill value => { scalars := [conv.toF64 value], castDtype := some value.dtype.asStr }
  | _ => {}

/-- `attrs_match`: an attribute the pattern leaves unset matches anything. -/
def attrsMatch (pattern node : OpAttrs) : Bool :=
  (pattern.scalars.isEmpty || Float64.eqAll pattern.scalars node.scalars) &&
    (pattern.axis.isNone || decide (pattern.axis = node.axis)) &&
    (pattern.perm.isEmpty || decide (pattern.perm = node.perm)) &&
    (pattern.targetShape.isEmpty || decide (pattern.targetShape = node.targetShape)) &&
    (pattern.dims.isEmpty || decide (pattern.dims = node.dims))

/-- Nodes bound so far and scalars read so far. -/
structure MatchState where
  binds : UInt8 → Option NodeId := fun _ => none
  scalars : List UInt64 := []

/-- A bind's node: the first time any, afterwards the same. -/
def bindNode (i : UInt8) (id : NodeId) (s : MatchState) : Option MatchState :=
  match s.binds i with
  | some existing => if existing = id then some s else none
  | none => some { s with binds := Function.update s.binds i (some id) }

/-- The scalars an open slot reads off the node. -/
def slotScalars (attrs nodeAttrs : OpAttrs) : List UInt64 :=
  if attrs.scalars = [] then nodeAttrs.scalars else []

/-- The node an op of the region takes, with the tests on the node itself. -/
def acceptNode (g : Graph) (consumers : NodeId → Nat) (isRoot : Bool)
    (tag : OpTag) (attrs : OpAttrs) (arity : Nat) (id : NodeId) : Option Node :=
  (g.nodes[id]?).bind fun n =>
    if opToTag n.op = some tag ∧ attrsMatch attrs (opToAttrs conv n.op) = true ∧
        (isRoot = true ∨ consumers id = 1) ∧ n.inputs.length = arity then some n
    else none

mutual

/-- `match_node`. -/
def matchNode (conv : ScalarConv) (g : Graph) (consumers : NodeId → Nat) (isRoot : Bool)
    (id : NodeId) (s : MatchState) : PatternNode → Option MatchState
  | .any => some s
  | .bind i => bindNode i id s
  | .seeThrough inner => matchNode conv g consumers isRoot id s inner
  | .op tag operands attrs =>
    (acceptNode conv g consumers isRoot tag attrs operands.length id).bind fun n =>
      let s : MatchState :=
        { s with scalars := s.scalars ++ slotScalars attrs (opToAttrs conv n.op) }
      if tag.isCommutative ∧ operands.length = 2 then
        (matchAll conv g consumers n.inputs s operands).orElse fun _ =>
          matchAll conv g consumers n.inputs.reverse s operands
      else matchAll conv g consumers n.inputs s operands

/-- Operands against inputs, left to right. -/
def matchAll (conv : ScalarConv) (g : Graph) (consumers : NodeId → Nat) (ids : List NodeId)
    (s : MatchState) : List PatternNode → Option MatchState
  | [] => some s
  | p :: ps =>
    match ids with
    | [] => some s
    | id :: ids =>
      (matchNode conv g consumers false id s p).bind fun s => matchAll conv g consumers ids s ps

end

/-- The bound nodes in order, if the indices are `0..n`. -/
def contiguousBinds (binds : UInt8 → Option NodeId) : Option (List NodeId) :=
  let keys := (List.range 256).filter fun i => (binds i.toUInt8).isSome
  (List.range (keys.length % 256)).mapM fun i => binds i.toUInt8

/-- `match_region_extract`. -/
def matchRegionExtract (g : Graph) (root : NodeId) (pattern : PatternNode)
    (consumers : NodeId → Nat) : Option (List NodeId × List UInt64) := do
  let s ← matchNode conv g consumers true root {} pattern
  let binds ← contiguousBinds s.binds
  some (binds, s.scalars)

/-! ## What a match says -/

mutual

/-- The ops of the region beside the ops they take on the walk of `match_node`. -/
def takenOps (conv : ScalarConv) (g : Graph) (consumers : NodeId → Nat) (isRoot : Bool)
    (id : NodeId) (s : MatchState) : PatternNode → List (OpAttrs × Op)
  | .any | .bind _ => []
  | .seeThrough inner => takenOps conv g consumers isRoot id s inner
  | .op tag operands attrs =>
    match acceptNode conv g consumers isRoot tag attrs operands.length id with
    | none => []
    | some n =>
      let s : MatchState :=
        { s with scalars := s.scalars ++ slotScalars attrs (opToAttrs conv n.op) }
      -- the order of the inputs that was kept
      (attrs, n.op) :: if (matchAll conv g consumers n.inputs s operands).isSome
        then takenOpsAll conv g consumers n.inputs s operands
        else takenOpsAll conv g consumers n.inputs.reverse s operands

def takenOpsAll (conv : ScalarConv) (g : Graph) (consumers : NodeId → Nat) (ids : List NodeId)
    (s : MatchState) : List PatternNode → List (OpAttrs × Op)
  | [] => []
  | p :: ps =>
    match ids with
    | [] => []
    | id :: ids => takenOps conv g consumers false id s p ++
      match matchNode conv g consumers false id s p with
      | none => []
      | some t => takenOpsAll conv g consumers ids t ps

end

/-- An op of the region takes node `n`, its operands the nodes `ids`. -/
structure OpMatched (conv : ScalarConv) (taken : List (OpAttrs × Op)) (tag : OpTag)
    (attrs : OpAttrs) (arity : Nat) (n : Node) (ids : List NodeId) : Prop where
  mem_taken : (attrs, n.op) ∈ taken
  sameTag : opToTag n.op = some tag
  agree : attrsMatch attrs (opToAttrs conv n.op) = true
  inputs : n.inputs.length = arity
  order : ids = n.inputs ∨ tag.isCommutative = true ∧ arity = 2 ∧ ids = n.inputs.reverse

mutual

/-- The region stands at node `id` of the graph, with the nodes its binds take and the
scalars its open slots read; its ops take those of `taken`. -/
def Matched (conv : ScalarConv) (g : Graph) (taken : List (OpAttrs × Op))
    (binds : UInt8 → Option NodeId) :
    PatternNode → NodeId → List UInt64 → Prop
  | .bind i, id, ss => binds i = some id ∧ ss = []
  | .op tag operands attrs, id, ss => ∃ n ids rest, g.nodes[id]? = some n ∧
      OpMatched conv taken tag attrs operands.length n ids ∧
      ss = slotScalars attrs (opToAttrs conv n.op) ++ rest ∧
      MatchedAll conv g taken binds operands ids rest
  | .seeThrough inner, id, ss => Matched conv g taken binds inner id ss
  | .any, _, ss => ss = []

def MatchedAll (conv : ScalarConv) (g : Graph) (taken : List (OpAttrs × Op))
    (binds : UInt8 → Option NodeId) :
    List PatternNode → List NodeId → List UInt64 → Prop
  | [], _, ss => ss = []
  | _ :: _, [], ss => ss = []
  | p :: ps, id :: ids, ss => ∃ s₁ s₂, ss = s₁ ++ s₂ ∧ Matched conv g taken binds p id s₁ ∧
      MatchedAll conv g taken binds ps ids s₂

end

/-- What a walk leaves: more binds, those of the tree among them, more scalars, and a
match under every later assignment of the binds. -/
structure Walked (s t : MatchState) (bound : List UInt8)
    (matched : (UInt8 → Option NodeId) → List UInt64 → Prop) : Prop where
  keeps : ∀ i id, s.binds i = some id → t.binds i = some id
  only : ∀ i id, t.binds i = some id → s.binds i = some id ∨ i ∈ bound
  scalars : ∃ ss, t.scalars = s.scalars ++ ss ∧
    ∀ B : UInt8 → Option NodeId, (∀ i id, t.binds i = some id → B i = some id) → matched B ss

section Walk

variable {conv : ScalarConv} {g : Graph} {consumers : NodeId → Nat} {id : NodeId} {s t : MatchState}
  {isRoot : Bool} {tag : OpTag} {attrs : OpAttrs} {arity : Nat} {n : Node} {ids : List NodeId}
  {p : PatternNode} {taken : List (OpAttrs × Op)}

theorem acceptNode_eq_some (h : acceptNode conv g consumers isRoot tag attrs arity id = some n) :
    g.nodes[id]? = some n ∧ opToTag n.op = some tag ∧
      attrsMatch attrs (opToAttrs conv n.op) = true ∧ n.inputs.length = arity := by
  obtain ⟨m, hm, h⟩ := bind_eq_some_iff.mp h
  split at h
  · rename_i hc
    cases h
    exact ⟨hm, hc.1, hc.2.1, hc.2.2.2⟩
  · cases h

theorem bindNode_walked {i : UInt8} (h : bindNode i id s = some t) :
    Walked s t [i] fun B ss => Matched conv g taken B (.bind i) id ss := by
  unfold bindNode at h
  cases hs : s.binds i with
  | some existing =>
    rw [hs] at h
    by_cases heq : existing = id
    · subst heq
      simp only [ite_true] at h
      cases h
      exact ⟨fun _ _ h => h, fun _ _ h => .inl h, [], (append_nil _).symm,
        fun B hB => ⟨hB i existing hs, rfl⟩⟩
    · simp only [if_neg heq] at h
      cases h
  | none =>
    rw [hs] at h
    cases h
    refine ⟨fun j k hj => ?_, fun j k hj => ?_, [], (append_nil _).symm, fun B hB => ⟨?_, rfl⟩⟩
    · have hne : j ≠ i := by
        rintro rfl
        rw [hs] at hj
        cases hj
      exact (Function.update_of_ne hne _ _).trans hj
    · by_cases hij : j = i
      · exact .inr (mem_singleton.mpr hij)
      · exact .inl ((Function.update_of_ne hij _ _).symm.trans hj)
    · exact hB i id (Function.update_self _ _ _)

theorem matchAll_walked {ps : List PatternNode}
    (hone : ∀ p ∈ ps, ∀ (id : NodeId) (s t : MatchState),
      matchNode conv g consumers false id s p = some t →
      takenOps conv g consumers false id s p ⊆ taken →
      Walked s t p.collectBinds fun B ss => Matched conv g taken B p id ss)
    (h : matchAll conv g consumers ids s ps = some t)
    (htaken : takenOpsAll conv g consumers ids s ps ⊆ taken) :
    Walked s t (PatternNode.collectBindsAll ps) fun B ss => MatchedAll conv g taken B ps ids ss := by
  induction ps generalizing ids s with
  | nil =>
    cases h
    exact ⟨fun _ _ h => h, fun _ _ h => .inl h, [], (append_nil _).symm, fun _ _ => rfl⟩
  | cons p ps ih =>
    cases ids with
    | nil =>
      cases h
      exact ⟨fun _ _ h => h, fun _ _ h => .inl h, [], (append_nil _).symm, fun _ _ => rfl⟩
    | cons id ids =>
      obtain ⟨u, hp, hps⟩ := bind_eq_some_iff.mp h
      simp only [takenOpsAll, hp, append_subset] at htaken
      obtain ⟨hkeep₁, honly₁, s₁, hs₁, hm₁⟩ := hone p mem_cons_self id s u hp htaken.1
      obtain ⟨hkeep₂, honly₂, s₂, hs₂, hm₂⟩ :=
        ih (fun q hq => hone q (mem_cons_of_mem _ hq)) hps htaken.2
      refine ⟨fun i j hi => hkeep₂ i j (hkeep₁ i j hi), fun i j hi => ?_, s₁ ++ s₂, ?_,
        fun B hB => ⟨s₁, s₂, rfl, hm₁ B fun i j hi => hB i j (hkeep₂ i j hi), hm₂ B hB⟩⟩
      · rcases honly₂ i j hi with hi | hi
        · exact (honly₁ i j hi).imp_right fun hi => mem_append_left _ hi
        · exact .inr (mem_append_right _ hi)
      · rw [hs₂, hs₁, List.append_assoc]

/-- The two ways an op's operands are matched. -/
theorem matchNode_op_eq_some {operands : List PatternNode} {tag : OpTag} {attrs : OpAttrs}
    (h : matchNode conv g consumers isRoot id s (.op tag operands attrs) = some t) :
    ∃ n u, acceptNode conv g consumers isRoot tag attrs operands.length id = some n ∧
      u = { s with scalars := s.scalars ++ slotScalars attrs (opToAttrs conv n.op) } ∧
      (matchAll conv g consumers n.inputs u operands = some t ∨
        (tag.isCommutative = true ∧ operands.length = 2) ∧
        matchAll conv g consumers n.inputs u operands = none ∧
        matchAll conv g consumers n.inputs.reverse u operands = some t) := by
  obtain ⟨n, hn, h⟩ := bind_eq_some_iff.mp h
  refine ⟨n, { s with scalars := s.scalars ++ slotScalars attrs (opToAttrs conv n.op) }, hn, rfl, ?_⟩
  split at h
  · rename_i hcomm
    dsimp only at h
    cases hfirst : matchAll conv g consumers n.inputs
      { s with scalars := s.scalars ++ slotScalars attrs (opToAttrs conv n.op) } operands with
    | some u =>
      rw [hfirst] at h
      exact .inl h
    | none =>
      rw [hfirst] at h
      exact .inr ⟨hcomm, rfl, h⟩
  · exact .inl h

/-- **A match is one.** -/
theorem matchNode_walked (h : matchNode conv g consumers isRoot id s p = some t)
    (htaken : takenOps conv g consumers isRoot id s p ⊆ taken) :
    Walked s t p.collectBinds fun B ss => Matched conv g taken B p id ss := by
  induction p using PatternNode.induct generalizing isRoot id s t with
  | op tag operands attrs ih =>
    obtain ⟨n, u, hn, rfl, hwalk⟩ := matchNode_op_eq_some h
    obtain ⟨hnode, htag, hattrs, harity⟩ := acceptNode_eq_some hn
    simp only [takenOps, hn, cons_subset] at htaken
    -- whichever order of the inputs the operands took
    obtain ⟨ids, hop, hall, hrest⟩ : ∃ ids,
        OpMatched conv taken tag attrs operands.length n ids ∧
        matchAll conv g consumers ids _ operands = some t ∧
        takenOpsAll conv g consumers ids _ operands ⊆ taken := by
      rcases hwalk with hall | ⟨hcomm, hfirst, hall⟩
      · rw [hall] at htaken
        exact ⟨_, ⟨htaken.1, htag, hattrs, harity, .inl rfl⟩, hall, htaken.2⟩
      · rw [hfirst] at htaken
        exact ⟨_, ⟨htaken.1, htag, hattrs, harity, .inr ⟨hcomm.1, hcomm.2, rfl⟩⟩, hall, htaken.2⟩
    obtain ⟨hkeep, honly, rest, hrest, hmatched⟩ :=
      matchAll_walked (fun q hq id s t h => ih q hq h) hall hrest
    refine ⟨hkeep, honly, slotScalars attrs (opToAttrs conv n.op) ++ rest, ?_,
      fun B hB => ⟨n, ids, rest, hnode, hop, rfl, hmatched B hB⟩⟩
    rw [hrest, List.append_assoc]
  | bind i =>
    exact bindNode_walked h
  | seeThrough inner ih =>
    exact ih h htaken
  | any =>
    cases h
    exact ⟨fun _ _ h => h, fun _ _ h => .inl h, [], (append_nil _).symm, fun _ _ => rfl⟩

/-- Operands and the nodes they take are as many. -/
theorem OpMatched.length_eq (h : OpMatched conv taken tag attrs arity n ids) : ids.length = arity := by
  rcases h.order with rfl | ⟨-, -, rfl⟩
  · exact h.inputs
  · rw [length_reverse, h.inputs]

/-- Every bind of the region has its node. -/
theorem Matched.bound {B : UInt8 → Option NodeId} {ss : List UInt64}
    (h : Matched conv g taken B p id ss) :
    ∀ i ∈ p.collectBinds, (B i).isSome := by
  induction p using PatternNode.induct generalizing id ss with
  | op tag operands attrs ih =>
    obtain ⟨n, ids, rest, -, hop, -, hall⟩ := h
    have hlen := hop.length_eq
    clear hop
    induction operands generalizing ids rest with
    | nil => intro i hi; cases hi
    | cons p ps ihps =>
      cases ids with
      | nil => cases hlen
      | cons id ids =>
        obtain ⟨s₁, s₂, -, hp, hps⟩ := hall
        intro i hi
        rcases mem_append.mp hi with hi | hi
        · exact ih p mem_cons_self hp i hi
        · exact ihps (fun q hq => ih q (mem_cons_of_mem _ hq)) ids s₂ hps
            (Nat.succ.inj hlen) i hi
  | bind j =>
    intro i hi
    rw [mem_singleton.mp hi, h.1]
    rfl
  | seeThrough inner ih => exact ih h
  | any => intro i hi; cases hi

end Walk

/-! ## The bound nodes -/

theorem filter_lt_range (m n : Nat) :
    ((List.range m).filter fun i => decide (i < n)) = List.range (min m n) := by
  induction m with
  | zero => simp
  | succ m ih =>
    rw [range_succ, filter_append, ih]
    by_cases h : m < n
    · rw [filter_singleton, decide_eq_true h, show min m n = m by omega,
        show min (m + 1) n = m + 1 by omega, range_succ]
      rfl
    · rw [filter_singleton, decide_eq_false h, show min (m + 1) n = min m n by omega]
      simp

theorem toNat_toUInt8 {k : Nat} (h : k < 256) : k.toUInt8.toNat = k := by
  simpa using Nat.mod_eq_of_lt h

/-- The binds of a validated region are the bytes below their number. -/
theorem mem_collectBinds_of_validateRecipe {conv : ScalarConv} {region : PatternNode}
    (h : validateRecipe conv region = .ok ()) : ∃ n < 256, ∀ i : UInt8,
      i ∈ region.collectBinds ↔ i.toNat < n := by
  unfold validateRecipe at h
  simp only at h
  split at h
  · rename_i heq
    have hlen := congrArg List.length heq
    rw [length_map, length_range] at hlen
    refine ⟨region.bindIndices.length % 256, Nat.mod_lt _ (by decide), fun i => ?_⟩
    rw [← PatternNode.mem_bindIndices]
    constructor
    · intro hi
      rw [heq] at hi
      obtain ⟨k, hk, rfl⟩ := mem_map.mp hi
      rwa [toNat_toUInt8 (by have := mem_range.mp hk; omega), ← mem_range]
    · intro hi
      rw [heq]
      exact mem_map.mpr ⟨i.toNat, mem_range.mpr hi, by simp⟩
  · cases h

/-- **The bound nodes are the node of each bind, in order.** -/
theorem contiguousBinds_eq_some {B : UInt8 → Option NodeId} {n : Nat} (hn : n < 256)
    (hdom : ∀ i : UInt8, (B i).isSome ↔ i.toNat < n) {binds : List NodeId}
    (h : contiguousBinds B = some binds) :
    (∀ (i : UInt8) (id : NodeId), B i = some id → binds[i.toNat]? = some id) ∧
      ∀ (id : NodeId), id ∈ binds → ∃ i, B i = some id := by
  -- the bound indices are the first `n` bytes
  have hkeys : ((List.range 256).filter fun i => (B i.toUInt8).isSome) = List.range n := by
    have hcongr : ∀ i ∈ List.range 256, (B i.toUInt8).isSome = decide (i < n) := by
      intro i hi
      rw [Bool.eq_iff_iff, hdom, toNat_toUInt8 (mem_range.mp hi), decide_eq_true_iff]
    rw [filter_congr hcongr, filter_lt_range, show min 256 n = n by omega]
  unfold contiguousBinds at h
  simp only [hkeys, length_range, Nat.mod_eq_of_lt hn] at h
  have hall := mapM_eq_some_iff.mp h
  constructor
  · intro i id hi
    have hlt : i.toNat < n := (hdom i).mp (by rw [hi]; rfl)
    obtain ⟨j, hj, hB⟩ := forall₂_getElem? hall (getElem?_range hlt)
    have hself : i.toNat.toUInt8 = i := by simp
    rw [hself, hi] at hB
    rw [hj, hB]
  · intro id hid
    obtain ⟨k, hk⟩ := mem_iff_getElem?.mp hid
    obtain ⟨i, -, hi⟩ := forall₂_getElem? hall.flip hk
    exact ⟨i.toUInt8, hi⟩

end Fuel.Jit
