import Fuel.Jit.Match

/-!
# Matching and operand order

`match_node` tries the operands of a commutative op in the written order and,
if that fails, in the other. It keeps the first order under which the operands
match and does not come back to it. A bind that occurs again further right can
then find itself on the wrong node.

`Fits` leaves the order of every commutative op open: some choice of orders,
with one node for each bind, makes the whole pattern match. `Settled` is a
choice the matcher can make without looking ahead: it reverses the operands of
an op only where the written order does not match, given the binds to the left.
-/

namespace Fuel.Jit

open Fuel.IR List Function PatternNode Option

/-- `match_region`. -/
def matchRegion (conv : ScalarConv) (g : Graph) (root : NodeId) (pattern : PatternNode)
    (consumers : NodeId → Nat) : Option (List NodeId) :=
  (matchRegionExtract conv g root pattern consumers).map Prod.fst

section Orders

variable (conv : ScalarConv) (g : Graph) (consumers : NodeId → Nat)

mutual

/-- Some order of the operands at each commutative op makes the pattern match at `id`, its
binds taking the nodes of `B`. -/
def Fits (B : UInt8 → Option NodeId) (isRoot : Bool) : PatternNode → NodeId → Prop
  | .bind i, id => B i = some id
  | .op tag operands attrs, id => ∃ n,
      acceptNode conv g consumers isRoot tag attrs operands.length id = some n ∧
      (FitsAll B operands n.inputs ∨
        (tag.isCommutative = true ∧ operands.length = 2) ∧ FitsAll B operands n.inputs.reverse)
  | .seeThrough inner, id => Fits B isRoot inner id
  | .any, _ => True

def FitsAll (B : UInt8 → Option NodeId) : List PatternNode → List NodeId → Prop
  | [], _ => True
  | _ :: _, [] => True
  | p :: ps, id :: ids => Fits B false p id ∧ FitsAll B ps ids

end

mutual

/-- The same, reversing operands only where their written order matches under no assignment
that keeps the binds to the left. -/
def Settled (B : UInt8 → Option NodeId) (isRoot : Bool) (left : List UInt8) :
    PatternNode → NodeId → Prop
  | .bind i, id => B i = some id
  | .op tag operands attrs, id => ∃ n,
      acceptNode conv g consumers isRoot tag attrs operands.length id = some n ∧
      (SettledAll B left operands n.inputs ∨
        (tag.isCommutative = true ∧ operands.length = 2) ∧
        (∀ B' : UInt8 → Option NodeId, (∀ i ∈ left, B' i = B i) →
          ¬ FitsAll conv g consumers B' operands n.inputs) ∧
        SettledAll B left operands n.inputs.reverse)
  | .seeThrough inner, id => Settled B isRoot left inner id
  | .any, _ => True

def SettledAll (B : UInt8 → Option NodeId) (left : List UInt8) :
    List PatternNode → List NodeId → Prop
  | [], _ => True
  | _ :: _, [] => True
  | p :: ps, id :: ids => Settled B false left p id ∧ SettledAll B (left ++ p.collectBinds) ps ids

end

end Orders

section Walk

variable {conv : ScalarConv} {g : Graph} {consumers : NodeId → Nat}

/-! ## What the matcher finds fits -/

variable {isRoot : Bool} {id : NodeId} {s t : MatchState} {ps : List PatternNode}
  {ids : List NodeId} {B : UInt8 → Option NodeId} {left : List UInt8} {tag : OpTag}
  {attrs : OpAttrs} {i : UInt8} {p : PatternNode}

theorem acceptNode_length {arity : Nat} {n : Node}
    (h : acceptNode conv g consumers isRoot tag attrs arity id = some n) :
    n.inputs.length = arity :=
  (acceptNode_eq_some h).2.2.2

/-- Every assignment that has the binds of `t`. -/
def Extends (B : UInt8 → Option NodeId) (t : MatchState) : Prop :=
  ∀ i id, t.binds i = some id → B i = some id

theorem matchAll_keeps (h : matchAll conv g consumers ids s ps = some t) (hi : s.binds i = some id) :
    t.binds i = some id :=
  (matchAll_walked (fun _ _ _ _ _ h => matchNode_walked h) h (Subset.refl _)).keeps i id hi

theorem matchAll_fits (hone : ∀ p ∈ ps, ∀ (id : NodeId) (s t : MatchState),
      matchNode conv g consumers false id s p = some t →
      ∀ B, Extends B t → Fits conv g consumers B false p id)
    (h : matchAll conv g consumers ids s ps = some t) (hB : Extends B t) :
    FitsAll conv g consumers B ps ids := by
  induction ps generalizing ids s with
  | nil =>
    trivial
  | cons p ps ih =>
    cases ids with
    | nil =>
      trivial
    | cons id ids =>
      obtain ⟨u, hp, hps⟩ := bind_eq_some_iff.mp h
      have hu : Extends B u := fun i j hi => hB i j (matchAll_keeps hps hi)
      exact ⟨hone p mem_cons_self id s u hp B hu,
        ih (fun q hq => hone q (mem_cons_of_mem _ hq)) hps⟩

theorem matchNode_fits (h : matchNode conv g consumers isRoot id s p = some t) (hB : Extends B t) :
    Fits conv g consumers B isRoot p id := by
  induction p using induct generalizing isRoot id s t B with
  | op tag operands attrs ih =>
    obtain ⟨n, u, hn, -, hall | ⟨hcomm, -, hall⟩⟩ := matchNode_op_eq_some h
    · unfold Fits
      exact ⟨n, hn, .inl (matchAll_fits (fun q hq id s t h B hB => ih q hq h hB) hall hB)⟩
    · unfold Fits
      exact ⟨n, hn, .inr ⟨hcomm,
        matchAll_fits (fun q hq id s t h B hB => ih q hq h hB) hall hB⟩⟩
  | bind i =>
    have hwalk : Walked s t [i] fun B ss => Matched conv g [] B (.bind i) id ss := bindNode_walked h
    obtain ⟨ss, -, hmatched⟩ := hwalk.scalars
    exact (hmatched B hB).1
  | seeThrough inner ih =>
    exact ih h hB
  | any =>
    trivial

/-! ## The matcher finds a settled choice -/

/-- The state has bound the indices of `left`, to the nodes of `B`. -/
structure Bound (B : UInt8 → Option NodeId) (left : List UInt8) (s : MatchState) : Prop where
  inside : ∀ i ∈ left, s.binds i = B i ∧ (B i).isSome
  outside : ∀ i, i ∉ left → s.binds i = none

theorem bindNode_bound (h : Bound B left s) (hi : B i = some id) :
    ∃ t, bindNode i id s = some t ∧ Bound B (left ++ [i]) t := by
  unfold bindNode
  by_cases hmem : i ∈ left
  · rw [(h.inside i hmem).1, hi]
    refine ⟨s, if_pos rfl, ?_, ?_⟩
    · intro j hj
      rcases mem_append.mp hj with hj | hj
      · exact h.inside j hj
      · rw [mem_singleton.mp hj]
        exact h.inside i hmem
    · intro j hj
      exact h.outside j fun hleft => hj (mem_append_left _ hleft)
  · rw [h.outside i hmem]
    refine ⟨_, rfl, ?_, ?_⟩
    · intro j hj
      show update s.binds i (some id) j = B j ∧ (B j).isSome
      by_cases hji : j = i
      · subst hji
        rw [update_self, hi]
        exact ⟨rfl, rfl⟩
      · rw [update_of_ne hji]
        rcases mem_append.mp hj with hj | hj
        · exact h.inside j hj
        · exact absurd (mem_singleton.mp hj) hji
    · intro j hj
      have hji : j ≠ i := fun heq => hj (mem_append_right _ (mem_singleton.mpr heq))
      show update s.binds i (some id) j = none
      rw [update_of_ne hji]
      exact h.outside j fun hleft => hj (mem_append_left _ hleft)

theorem SettledAll.matchAll (hone : ∀ p ∈ ps, ∀ (id : NodeId) (left : List UInt8) (s : MatchState),
      Settled conv g consumers B false left p id → Bound B left s →
      ∃ t, matchNode conv g consumers false id s p = some t ∧
        Bound B (left ++ p.collectBinds) t) (hlen : ids.length = ps.length)
    (h : SettledAll conv g consumers B left ps ids) (hs : Bound B left s) :
    ∃ t, matchAll conv g consumers ids s ps = some t ∧
      Bound B (left ++ collectBindsAll ps) t := by
  induction ps generalizing ids left s with
  | nil =>
    refine ⟨s, by unfold Jit.matchAll; rfl, ?_⟩
    rw [show collectBindsAll [] = [] from rfl, append_nil]
    exact hs
  | cons p ps ih =>
    cases ids with
    | nil => cases hlen
    | cons id ids =>
      obtain ⟨u, hu, hbound⟩ := hone p mem_cons_self id left s h.1 hs
      obtain ⟨t, ht, hrest⟩ := ih (fun q hq => hone q (mem_cons_of_mem _ hq))
        (Nat.succ.inj hlen) h.2 hbound
      refine ⟨t, ?_, ?_⟩
      · unfold Jit.matchAll
        exact bind_eq_some_iff.mpr ⟨u, hu, ht⟩
      · rwa [List.append_assoc] at hrest

/-- **A settled choice is the one the matcher makes.** -/
theorem Settled.matchNode (h : Settled conv g consumers B isRoot left p id) (hs : Bound B left s) :
    ∃ t, matchNode conv g consumers isRoot id s p = some t ∧
      Bound B (left ++ p.collectBinds) t := by
  induction p using PatternNode.induct generalizing isRoot id left s with
  | op tag operands attrs ih =>
    obtain ⟨n, hn, h⟩ := h
    have hlen := acceptNode_length hn
    unfold Jit.matchNode
    simp only [hn, bind_some]
    generalize hu : ({ s with
      scalars := s.scalars ++ slotScalars attrs (opToAttrs conv n.op) } : MatchState) = u
    have hbound : Bound B left u := by
      subst hu
      exact ⟨hs.inside, hs.outside⟩
    have hone : ∀ p ∈ operands, ∀ (id : NodeId) (left : List UInt8) (s : MatchState),
        Settled conv g consumers B false left p id → Bound B left s →
        ∃ t, Jit.matchNode conv g consumers false id s p = some t ∧
          Bound B (left ++ p.collectBinds) t := fun q hq id left s h hs => ih q hq h hs
    rcases h with hwritten | ⟨hcomm, hnot, hreversed⟩
    · obtain ⟨t, ht, htb⟩ := hwritten.matchAll hone hlen hbound
      refine ⟨t, ?_, htb⟩
      split
      · rw [ht]
        rfl
      · exact ht
    -- the written order fails: it would match under the binds it leaves
    have hnone : Jit.matchAll conv g consumers n.inputs u operands = none := by
      cases hfirst : Jit.matchAll conv g consumers n.inputs u operands with
      | none => rfl
      | some t' =>
        refine absurd ?_ (hnot t'.binds ?_)
        · exact matchAll_fits (fun q _ id s t h B hB => matchNode_fits h hB) hfirst
            fun _ _ hi => hi
        · intro i hi
          obtain ⟨heq, hsome⟩ := hbound.inside i hi
          obtain ⟨j, hj⟩ := isSome_iff_exists.mp hsome
          rw [hj] at heq ⊢
          exact matchAll_keeps hfirst heq
    obtain ⟨t, ht, htb⟩ := hreversed.matchAll hone (by rw [length_reverse, hlen]) hbound
    refine ⟨t, ?_, htb⟩
    rw [if_pos hcomm, hnone]
    exact ht
  | bind i =>
    exact bindNode_bound hs h
  | seeThrough inner ih =>
    exact ih h hs
  | any =>
    refine ⟨s, rfl, ?_⟩
    rw [show any.collectBinds = [] from rfl, append_nil]
    exact hs

end Walk

/-! ## When a settled choice is the only one -/

namespace PatternNode

mutual

/-- Some commutative op with two operands stands in the pattern. -/
def hasCommutative : PatternNode → Bool
  | .op tag operands _ => decide (tag.isCommutative = true ∧ operands.length = 2) ||
      hasCommutativeAll operands
  | .seeThrough inner => hasCommutative inner
  | .bind _ => false
  | .any => false

def hasCommutativeAll : List PatternNode → Bool
  | [] => false
  | p :: ps => hasCommutative p || hasCommutativeAll ps

end

mutual

/-- Some commutative op stands below another. -/
def nestsCommutative : PatternNode → Bool
  | .op tag operands _ =>
      (decide (tag.isCommutative = true ∧ operands.length = 2) && hasCommutativeAll operands) ||
        nestsCommutativeAll operands
  | .seeThrough inner => nestsCommutative inner
  | .bind _ => false
  | .any => false

def nestsCommutativeAll : List PatternNode → Bool
  | [] => false
  | p :: ps => nestsCommutative p || nestsCommutativeAll ps

end

variable {ps : List PatternNode}

theorem hasCommutativeAll_eq_false :
    hasCommutativeAll ps = false ↔ ∀ p ∈ ps, p.hasCommutative = false := by
  induction ps with
  | nil => simp [hasCommutativeAll]
  | cons p ps ih => simp [hasCommutativeAll, ih]

theorem nestsCommutativeAll_eq_false :
    nestsCommutativeAll ps = false ↔ ∀ p ∈ ps, p.nestsCommutative = false := by
  induction ps with
  | nil => simp [nestsCommutativeAll]
  | cons p ps ih => simp [nestsCommutativeAll, ih]

end PatternNode

section Walk

variable {conv : ScalarConv} {g : Graph} {consumers : NodeId → Nat} {B : UInt8 → Option NodeId}
  {left : List UInt8} {p : PatternNode} {isRoot : Bool} {id : NodeId} {s t : MatchState}
  {ps : List PatternNode} {ids : List NodeId} {B' : UInt8 → Option NodeId}

theorem FitsAll.settledAll
    (hone : ∀ p ∈ ps, ∀ (id : NodeId) (left : List UInt8), Fits conv g consumers B false p id →
      Settled conv g consumers B false left p id) (h : FitsAll conv g consumers B ps ids) :
    SettledAll conv g consumers B left ps ids := by
  induction ps generalizing ids left with
  | nil =>
    trivial
  | cons p ps ih =>
    cases ids with
    | nil =>
      trivial
    | cons id ids =>
      exact ⟨hone p mem_cons_self id left h.1,
        ih (fun q hq => hone q (mem_cons_of_mem _ hq)) h.2⟩

/-- Without a commutative op there is nothing to settle. -/
theorem Fits.settled (hp : p.hasCommutative = false) (h : Fits conv g consumers B isRoot p id) :
    Settled conv g consumers B isRoot left p id := by
  induction p using PatternNode.induct generalizing isRoot id left with
  | op tag operands attrs ih =>
    simp only [hasCommutative, Bool.or_eq_false_iff, decide_eq_false_iff_not,
      hasCommutativeAll_eq_false] at hp
    obtain ⟨n, hn, hall | ⟨hcomm, -⟩⟩ := h
    · exact ⟨n, hn, .inl (hall.settledAll fun q hq id left h => ih q hq (hp.2 q hq) h)⟩
    · exact absurd hcomm hp.1
  | bind i =>
    exact h
  | seeThrough inner ih =>
    exact ih hp h
  | any =>
    trivial

/-- The indices the state has bound. -/
def Covers (left : List UInt8) (s : MatchState) : Prop :=
  ∀ i, (s.binds i).isSome ↔ i ∈ left

/-- An assignment that agrees with one the state is part of. -/
theorem Covers.bound (h : Covers left s) (hB : Extends B s) (heq : ∀ i ∈ left, B' i = B i) :
    Bound B' left s := by
  refine ⟨?_, ?_⟩
  · intro i hi
    obtain ⟨j, hj⟩ := isSome_iff_exists.mp ((h i).mpr hi)
    rw [heq i hi, hB i j hj, hj]
    exact ⟨rfl, rfl⟩
  · intro i hi
    cases hs : s.binds i with
    | none => rfl
    | some j => exact absurd ((h i).mp (by rw [hs]; rfl)) hi

theorem covers_of_matchNode (hs : Covers left s)
    (h : matchNode conv g consumers isRoot id s p = some t) :
    Covers (left ++ p.collectBinds) t := by
  have hwalk := matchNode_walked h (Subset.refl _)
  intro i
  rw [mem_append]
  constructor
  · intro hi
    obtain ⟨j, hj⟩ := isSome_iff_exists.mp hi
    exact (hwalk.only i j hj).imp_left fun hj => (hs i).mp (by rw [hj]; rfl)
  · intro hi
    rcases hi with hi | hi
    · obtain ⟨j, hj⟩ := isSome_iff_exists.mp ((hs i).mpr hi)
      rw [hwalk.keeps i j hj]
      rfl
    · obtain ⟨ss, -, hmatched⟩ := hwalk.scalars
      exact (hmatched t.binds fun _ _ h => h).bound i hi

theorem matchAll_settled (hone : ∀ p ∈ ps, ∀ (id : NodeId) (left : List UInt8) (s t : MatchState),
      Covers left s → matchNode conv g consumers false id s p = some t →
      ∀ B, Extends B t → Settled conv g consumers B false left p id) (hs : Covers left s)
    (h : matchAll conv g consumers ids s ps = some t) (hB : Extends B t) :
    SettledAll conv g consumers B left ps ids := by
  induction ps generalizing ids left s with
  | nil =>
    trivial
  | cons p ps ih =>
    cases ids with
    | nil =>
      trivial
    | cons id ids =>
      obtain ⟨u, hp, hps⟩ := bind_eq_some_iff.mp h
      have hu : Extends B u := fun i j hi => hB i j (matchAll_keeps hps hi)
      exact ⟨hone p mem_cons_self id left s u hs hp B hu,
        ih (fun q hq => hone q (mem_cons_of_mem _ hq)) (covers_of_matchNode hs hp) hps⟩

/-- **What the matcher finds is settled**, where no commutative op stands below another. -/
theorem matchNode_settled (hp : p.nestsCommutative = false) (hs : Covers left s)
    (h : matchNode conv g consumers isRoot id s p = some t) (hB : Extends B t) :
    Settled conv g consumers B isRoot left p id := by
  induction p using induct generalizing isRoot id left s t B with
  | op tag operands attrs ih =>
    simp only [nestsCommutative, Bool.or_eq_false_iff, Bool.and_eq_false_iff,
      decide_eq_false_iff_not, nestsCommutativeAll_eq_false] at hp
    obtain ⟨n, u, hn, hu, hall⟩ := matchNode_op_eq_some h
    have hcovers : Covers left u := by
      rw [hu]
      exact hs
    rcases hall with hall | ⟨hcomm, hnone, hall⟩
    · exact ⟨n, hn, .inl (matchAll_settled
        (fun q hq id left s t hs h B hB => ih q hq (hp.2 q hq) hs h hB) hcovers hall hB)⟩
    refine ⟨n, hn, .inr ⟨hcomm, ?_, matchAll_settled
      (fun q hq id left s t hs h B hB => ih q hq (hp.2 q hq) hs h hB) hcovers hall hB⟩⟩
    -- the operands hold no choice of their own, so the matcher misses no match of them
    intro B' heq hfits
    have hplain : ∀ q ∈ operands, q.hasCommutative = false :=
      hasCommutativeAll_eq_false.mp (hp.1.resolve_left fun hnot => hnot hcomm)
    have hu' : Extends B u := fun i j hi => hB i j (matchAll_keeps hall hi)
    obtain ⟨t', ht', -⟩ := (hfits.settledAll fun q hq id left h => h.settled (hplain q hq)).matchAll
      (fun _ _ _ _ _ h hs => h.matchNode hs) (acceptNode_length hn) (hcovers.bound hu' heq)
    rw [hnone] at ht'
    cases ht'
  | bind i =>
    have hfits := matchNode_fits h hB
    exact hfits
  | seeThrough inner ih =>
    exact ih hp hs h hB
  | any =>
    trivial

/-! ## The indices -/

/-- The final test of `match_region_extract`, on the indices of the pattern. -/
def indicesContiguous (pattern : PatternNode) : Bool :=
  (contiguousBinds fun i => if i ∈ pattern.collectBinds then some 0 else none).isSome

theorem mapM_isSome {α β : Type} (f : α → Option β) (l : List α) :
    (l.mapM f).isSome = l.all fun a => (f a).isSome := by
  induction l with
  | nil => rfl
  | cons a l ih =>
    rw [mapM_cons, all_cons, ← ih]
    cases f a with
    | none => rfl
    | some b =>
      cases l.mapM f with
      | none => rfl
      | some bs => rfl

/-- The test only asks which indices are bound. -/
theorem contiguousBinds_isSome_congr (h : ∀ i, (B i).isSome = (B' i).isSome) :
    (contiguousBinds B).isSome = (contiguousBinds B').isSome := by
  unfold contiguousBinds
  simp only [mapM_isSome, h]

/-- A region is found when its pattern is, and its indices are contiguous. -/
theorem matchRegion_isSome {root : NodeId} {pattern : PatternNode} :
    (matchRegion conv g root pattern consumers).isSome = true ↔
      (∃ t, matchNode conv g consumers true root {} pattern = some t) ∧
        indicesContiguous pattern = true := by
  unfold matchRegion matchRegionExtract
  cases hmatch : matchNode conv g consumers true root {} pattern with
  | none => simp
  | some t =>
    have hcovers : Covers ([] ++ pattern.collectBinds) t :=
      covers_of_matchNode (fun i => by simp) hmatch
    have hcongr : (contiguousBinds t.binds).isSome = indicesContiguous pattern := by
      apply contiguousBinds_isSome_congr
      intro i
      rw [Bool.eq_iff_iff, hcovers i, nil_append]
      split
      · simpa
      · simpa
    rw [← hcongr]
    cases hbinds : contiguousBinds t.binds with
    | none => simp [hbinds]
    | some ids => simp [hbinds]

end Walk

/-! ## Swapping the inputs of commutative nodes -/

/-- The node, or an addition or product with its two inputs exchanged. -/
def SwapsInputs (n n' : Node) : Prop :=
  n' = n ∨ (n.op = .add ∨ n.op = .mul) ∧ n.inputs.length = 2 ∧
    n' = { n with inputs := n.inputs.reverse }

/-- `g'` is `g` with the inputs of some additions and products exchanged. -/
def Swapped (g g' : Graph) : Prop := List.Forall₂ SwapsInputs g.nodes g'.nodes

theorem SwapsInputs.symm {n n' : Node} (h : SwapsInputs n n') : SwapsInputs n' n := by
  rcases h with rfl | ⟨hop, hlen, rfl⟩
  · exact .inl rfl
  · exact .inr ⟨hop, by simpa using hlen, by simp⟩

theorem Swapped.symm {g g' : Graph} (h : Swapped g g') : Swapped g' g :=
  (List.Forall₂.flip h).imp fun _ _ h => SwapsInputs.symm h

section Swaps

variable {conv : ScalarConv} {g g' : Graph} {consumers : NodeId → Nat} {isRoot : Bool} {id : NodeId}
  {B : UInt8 → Option NodeId}

theorem acceptNode_swapped (hg : Swapped g g') {tag : OpTag} {attrs : OpAttrs} {arity : Nat}
    {n : Node} (h : acceptNode conv g consumers isRoot tag attrs arity id = some n) :
    ∃ n', acceptNode conv g' consumers isRoot tag attrs arity id = some n' ∧
      (n'.inputs = n.inputs ∨ (tag.isCommutative = true ∧ arity = 2) ∧
        n'.inputs = n.inputs.reverse) := by
  unfold acceptNode at h ⊢
  obtain ⟨m, hm, h⟩ := bind_eq_some_iff.mp h
  split at h
  · rename_i hc
    cases h
    obtain ⟨hlt, hget⟩ := List.getElem?_eq_some_iff.mp hm
    have hlt' : id < g'.nodes.length := by
      rw [← List.Forall₂.length_eq hg]
      exact hlt
    have hswap : SwapsInputs n g'.nodes[id] := by
      rw [← hget]
      exact List.Forall₂.get hg hlt hlt'
    rw [getElem?_eq_getElem hlt', bind_some]
    rcases hswap with heq | ⟨hop, hlen, heq⟩
    · rw [heq, if_pos hc]
      exact ⟨n, rfl, .inl rfl⟩
    have hcomm : tag.isCommutative = true := by
      rcases hop with hop | hop
      · rw [hop] at hc
        cases hc.1
        rfl
      · rw [hop] at hc
        cases hc.1
        rfl
    have harity : n.inputs.reverse.length = arity := by
      rw [length_reverse]
      exact hc.2.2.2
    rw [heq]
    exact ⟨_, if_pos ⟨hc.1, hc.2.1, hc.2.2.1, harity⟩,
      .inr ⟨⟨hcomm, hc.2.2.2.symm.trans hlen⟩, rfl⟩⟩
  · cases h

theorem FitsAll.swapped {ps : List PatternNode}
    (hone : ∀ p ∈ ps, ∀ id, Fits conv g consumers B false p id →
      Fits conv g' consumers B false p id) {ids : List NodeId}
    (h : FitsAll conv g consumers B ps ids) : FitsAll conv g' consumers B ps ids := by
  induction ps generalizing ids with
  | nil =>
    trivial
  | cons p ps ih =>
    cases ids with
    | nil =>
      trivial
    | cons id ids =>
      exact ⟨hone p mem_cons_self id h.1,
        ih (fun q hq => hone q (mem_cons_of_mem _ hq)) h.2⟩

/-- Exchanging inputs changes the orders, not whether there is one. -/
theorem Fits.swapped (hg : Swapped g g') {p : PatternNode} (h : Fits conv g consumers B isRoot p id) :
    Fits conv g' consumers B isRoot p id := by
  induction p using PatternNode.induct generalizing isRoot id with
  | op tag operands attrs ih =>
    obtain ⟨n, hn, hall⟩ := h
    obtain ⟨n', hn', hinputs⟩ := acceptNode_swapped hg hn
    have hswap : ∀ ids, FitsAll conv g consumers B operands ids →
        FitsAll conv g' consumers B operands ids :=
      fun ids h => h.swapped fun q hq id h => ih q hq h
    refine ⟨n', hn', ?_⟩
    rcases hinputs with heq | ⟨hcomm, heq⟩
    · rw [heq]
      exact hall.imp (hswap _) (And.imp_right (hswap _))
    · rw [heq, reverse_reverse]
      rcases hall with hall | ⟨-, hall⟩
      · exact .inr ⟨hcomm, hswap _ hall⟩
      · exact .inl (hswap _ hall)
  | bind i =>
    exact h
  | seeThrough inner ih =>
    exact ih h
  | any =>
    trivial

end Swaps

/-! ## Completeness -/

section Completeness

variable (conv : ScalarConv) (g : Graph) (root : NodeId) (pattern : PatternNode)
  (consumers : NodeId → Nat)

/-- Some choice of operand orders makes the whole pattern match, with consistent binds. -/
def MatchesInSomeOrder : Prop :=
  (∃ B, Fits conv g consumers B true pattern root) ∧ indicesContiguous pattern = true

/-- If the pattern matches in some order, it does in one that reverses the operands of a
commutative op only where their written order does not match. -/
def NeedsNoLookahead : Prop :=
  MatchesInSomeOrder conv g root pattern consumers →
    ∃ B, Settled conv g consumers B true [] pattern root

/-- A match is a match in some order. -/
theorem matchesInSomeOrder_of_matchRegion
    (h : (matchRegion conv g root pattern consumers).isSome = true) :
    MatchesInSomeOrder conv g root pattern consumers := by
  obtain ⟨⟨t, ht⟩, hindices⟩ := matchRegion_isSome.mp h
  exact ⟨⟨t.binds, matchNode_fits ht fun _ _ hi => hi⟩, hindices⟩

theorem matchRegion_of_settled {B : UInt8 → Option NodeId}
    (h : Settled conv g consumers B true [] pattern root)
    (hindices : indicesContiguous pattern = true) :
    (matchRegion conv g root pattern consumers).isSome = true := by
  have hstart : Bound B [] {} := by
    refine ⟨?_, ?_⟩
    · intro i hi
      cases hi
    · intro i _
      rfl
  obtain ⟨t, ht, -⟩ := h.matchNode hstart
  exact matchRegion_isSome.mpr ⟨⟨t, ht⟩, hindices⟩

/-- The matcher finds what matches in some order, where no look ahead is needed. -/
theorem matchRegion_iff (h : NeedsNoLookahead conv g root pattern consumers) :
    (matchRegion conv g root pattern consumers).isSome = true ↔
      MatchesInSomeOrder conv g root pattern consumers := by
  constructor
  · exact matchesInSomeOrder_of_matchRegion conv g root pattern consumers
  · intro hmatches
    obtain ⟨B, hB⟩ := h hmatches
    exact matchRegion_of_settled conv g root pattern consumers hB hmatches.2

/-- What the matcher finds, it finds without looking ahead. -/
theorem needsNoLookahead_of_complete (hp : pattern.nestsCommutative = false)
    (h : MatchesInSomeOrder conv g root pattern consumers →
      (matchRegion conv g root pattern consumers).isSome = true) :
    NeedsNoLookahead conv g root pattern consumers := by
  intro hmatches
  obtain ⟨⟨t, ht⟩, -⟩ := matchRegion_isSome.mp (h hmatches)
  exact ⟨t.binds, matchNode_settled hp (fun i => by simp) ht fun _ _ hi => hi⟩

/-- **The matcher is independent of operand order exactly where it need not look ahead.** -/
theorem matchRegion_order_independent :
    (NeedsNoLookahead conv g root pattern consumers →
      ((matchRegion conv g root pattern consumers).isSome = true ↔
        MatchesInSomeOrder conv g root pattern consumers)) ∧
    (∀ g', Swapped g g' → NeedsNoLookahead conv g root pattern consumers →
      NeedsNoLookahead conv g' root pattern consumers →
      ((matchRegion conv g root pattern consumers).isSome = true ↔
        (matchRegion conv g' root pattern consumers).isSome = true)) ∧
    (pattern.nestsCommutative = false →
      ((matchRegion conv g root pattern consumers).isSome = true ↔
        MatchesInSomeOrder conv g root pattern consumers) →
      NeedsNoLookahead conv g root pattern consumers) := by
  refine ⟨matchRegion_iff conv g root pattern consumers, ?_, ?_⟩
  · intro g' hg h h'
    rw [matchRegion_iff conv g root pattern consumers h,
      matchRegion_iff conv g' root pattern consumers h']
    constructor
    · rintro ⟨⟨B, hB⟩, hindices⟩
      exact ⟨⟨B, hB.swapped hg⟩, hindices⟩
    · rintro ⟨⟨B, hB⟩, hindices⟩
      exact ⟨⟨B, hB.swapped hg.symm⟩, hindices⟩
  · intro hp hiff
    exact needsNoLookahead_of_complete conv g root pattern consumers hp hiff.mpr

end Completeness

namespace Samples

def noScalars : ScalarConv := ⟨fun _ _ => none, fun _ => 0⟩

/-- The readers of a node, each as often as it reads it. -/
def consumerCounts (g : Graph) (id : NodeId) : Nat := (g.nodes.map fun n => n.inputs.count id).sum

/-- A sum less its first operand. -/
def sumLessFirst : PatternNode := .plain .sub [.plain .add [.bind 0, .bind 1], .bind 0]

/-- A sum less the node it reads second. -/
def readsSecond : Graph :=
  { nodes := [plainNode .const [], plainNode .const [], plainNode .add [0, 1],
      plainNode .sub [2, 1]] }

/-- The same, with the inputs of the sum exchanged. -/
def readsFirst : Graph :=
  { nodes := [plainNode .const [], plainNode .const [], plainNode .add [1, 0],
      plainNode .sub [2, 1]] }

theorem swapped_readsSecond : Swapped readsSecond readsFirst :=
  .cons (.inl rfl) (.cons (.inl rfl) (.cons (.inr ⟨.inl rfl, rfl, rfl⟩) (.cons (.inl rfl) .nil)))

/-- A product with a rectified tensor, rectified first. -/
def scaledRelu : PatternNode := .plain .mul [.plain .relu [.bind 0], .bind 1]

def reluSecond : Graph :=
  { nodes := [plainNode .const [], plainNode .const [], plainNode .relu [1],
      plainNode .mul [0, 2]] }

def reluFirst : Graph :=
  { nodes := [plainNode .const [], plainNode .const [], plainNode .relu [1],
      plainNode .mul [2, 0]] }

theorem swapped_reluSecond : Swapped reluSecond reluFirst :=
  .cons (.inl rfl) (.cons (.inl rfl) (.cons (.inl rfl) (.cons (.inr ⟨.inr rfl, rfl, rfl⟩) .nil)))

end Samples

open Samples

/-- A rectified operand is found on either side. -/
theorem matchRegion_relu_either_side :
    (matchRegion noScalars reluSecond 3 scaledRelu (consumerCounts reluSecond)).isSome = true ↔
      (matchRegion noScalars reluFirst 3 scaledRelu (consumerCounts reluSecond)).isSome = true :=
  (matchRegion_order_independent noScalars reluSecond 3 scaledRelu
      (consumerCounts reluSecond)).2.1 reluFirst swapped_reluSecond
    (needsNoLookahead_of_complete _ _ _ _ _ rfl fun _ => rfl)
    (needsNoLookahead_of_complete _ _ _ _ _ rfl fun _ => rfl)

/-- The sum's written order matches on its own, and is kept; the bind to its right then
asks for the other node. With the sum's inputs exchanged the pattern is found. -/
theorem matchRegion_depends_on_order :
    Swapped readsSecond readsFirst ∧
      MatchesInSomeOrder noScalars readsSecond 3 sumLessFirst (consumerCounts readsSecond) ∧
      matchRegion noScalars readsSecond 3 sumLessFirst (consumerCounts readsSecond) = none ∧
      matchRegion noScalars readsFirst 3 sumLessFirst (consumerCounts readsSecond)
        = some [1, 0] := by
  have hfound : matchRegion noScalars readsFirst 3 sumLessFirst (consumerCounts readsSecond)
      = some [1, 0] := rfl
  refine ⟨swapped_readsSecond, ?_, rfl, hfound⟩
  obtain ⟨⟨B, hB⟩, hindices⟩ := matchesInSomeOrder_of_matchRegion _ _ _ _ _ (by rw [hfound]; rfl)
  exact ⟨⟨B, hB.swapped swapped_readsSecond.symm⟩, hindices⟩

end Fuel.Jit
