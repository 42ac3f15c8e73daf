import Fuel.IR.Arena
import Fuel.IR.Semantics
import Fuel.Lib.Renumber
import Fuel.Lib.Search

/-!
# Compaction of the arena

`compact` keeps what the roots need together with the branches that take part in
it, renumbers the kept nodes in their old order and rewrites every id the arena
holds. An id that is needed but was not kept makes the source panic.

Branches are found by a fixpoint over the arena; the merges of the live branches
and what these need are added once, after the fixpoint.
-/

namespace Fuel.IR

open Fuel.DepGraph Fuel.Renumber Relation List Fuel.IR.Graph

/-! ## The live set -/

namespace Graph

/-- `input_closure`: what any of `start` needs. -/
def inputClosure (g : Graph) (start : List NodeId) : List NodeId :=
  coneFrom g.inputs (fun id => decide (id < g.len)) (range g.len) start

/-- A seed is an id of the arena, listed once. -/
def pushSeed (g : Graph) (seeds : List NodeId) (id : NodeId) : List NodeId :=
  if id < g.len ∧ id ∉ seeds then seeds ++ [id] else seeds

/-- The branch `id` has its merge or one of its arms in `reachable`. -/
def participates (g : Graph) (reachable : List NodeId) (id : NodeId) : Bool :=
  match g.branchAt id with
  | some m => decide (m ∈ reachable) || (g.inputs id).any fun arm => decide (arm ∈ reachable)
  | none => false

/-- One turn of the fixpoint: the participating branches that are not seeds yet. -/
def growSeeds (g : Graph) (seeds : List NodeId) : Option (List NodeId) :=
  let reachable := g.inputClosure seeds
  let new := (range g.len).filter fun id => decide (id ∉ seeds) && g.participates reachable id
  if new = [] then none else some (seeds ++ new)

end Graph

/-- The seeds: the roots and side-effect roots, and the branches that take part. -/
def Arena.liveSeeds {S : Type} (a : Arena S) (roots : List NodeId) : List NodeId :=
  iter a.growSeeds a.len ((roots ++ a.sideEffectRoots).foldl a.pushSeed [])

/-- `live_set`. -/
def Arena.liveSet {S : Type} (a : Arena S) (roots : List NodeId) : List NodeId :=
  let live := a.inputClosure (a.liveSeeds roots)
  let reconSeeds := live.filterMap a.branchAt
  if reconSeeds = [] then live else live ++ a.inputClosure reconSeeds

/-! ## The renumbering -/

/-- The new id of each old one that survived. -/
structure NodeRemap where
  oldToNew : List (Option NodeId)

namespace NodeRemap

def get (r : NodeRemap) (old : NodeId) : Option NodeId := (r.oldToNew[old]?).bind fun new => new

def survived (r : NodeRemap) (old : NodeId) : Bool := (r.get old).isSome

/-- Consecutive new ids for the ids below `n` that are live. -/
def build (live : List NodeId) (n : Nat) : NodeRemap :=
  let step := fun (acc : List (Option NodeId) × Nat) (idx : NodeId) =>
    if idx ∈ live then (acc.1 ++ [some acc.2], acc.2 + 1) else (acc.1 ++ [none], acc.2)
  ⟨((range n).foldl step ([], 0)).1⟩

/-- The side table under the new ids. -/
def rekey {V : Type} (r : NodeRemap) (table : NodeId → Option V) : NodeId → Option V :=
  fun new => ((range r.oldToNew.length).find? fun old => decide (r.get old = some new)).bind table

/-- The id an op carries, renumbered; `none` where the source panics. -/
def mapOp (r : NodeRemap) : Op → Option Op
  | .branch reconvergeAt => (r.get reconvergeAt).map .branch
  | op => some op

def mapNode (r : NodeRemap) (n : Node) : Option Node := do
  let inputs ← n.inputs.mapM r.get
  let op ← r.mapOp n.op
  some { n with inputs := inputs, op := op }

end NodeRemap

/-- `compact`. -/
def Arena.compact {S : Type} (a : Arena S) (roots : List NodeId) : Option (Arena S × NodeRemap) := do
  let remap := NodeRemap.build (a.liveSet roots) a.len
  let survivors := (range a.len).filter remap.survived
  let nodes ← survivors.mapM fun idx => (a.nodes[idx]?).bind remap.mapNode
  let sideEffectRoots ← a.sideEffectRoots.mapM remap.get
  some ({ nodes := nodes
          placements := remap.rekey a.placements
          targetBackends := remap.rekey a.targetBackends
          sideEffectRoots := sideEffectRoots
          layouts := remap.rekey a.layouts
          storageMap := remap.rekey a.storageMap
          nodeOutputViews := remap.rekey a.nodeOutputViews
          storageClasses := remap.rekey a.storageClasses
          nodeMatmulRowCount := remap.rekey a.nodeMatmulRowCount }, remap)

/-! ## What is live -/

/-- What the seeds need: starting from `start`, inputs of what is needed, and
branches with a needed merge or arm. -/
inductive Core (g : Graph) (start : List NodeId) : NodeId → Prop
  | start {r : NodeId} (h : r ∈ start) : Core g start r
  | input {b i : NodeId} (hb : Core g start b) (h : i ∈ g.inputs b) : Core g start i
  | merge {b m : NodeId} (h : g.branchAt b = some m) (hm : Core g start m) : Core g start b
  | arm {b m i : NodeId} (h : g.branchAt b = some m) (hi : i ∈ g.inputs b) (hc : Core g start i) :
    Core g start b

/-- The core, and what the merges of its branches need. -/
def Retained (g : Graph) (start : List NodeId) (id : NodeId) : Prop :=
  Core g start id ∨ ∃ b m, Core g start b ∧ g.branchAt b = some m ∧
    ReflTransGen (Precedes g.inputs) id m

/-- Every id the arena's nodes hold is in the arena. -/
structure WellFormed (g : Graph) : Prop where
  inputs : ∀ id, ∀ i ∈ g.inputs id, i < g.len
  merges : ∀ id m, g.branchAt id = some m → m < g.len

section Retained

variable {g : Graph} {start : List NodeId}

theorem mem_inputClosure (hg : WellFormed g) (hstart : ∀ r ∈ start, r < g.len) (id : NodeId) :
    id ∈ g.inputClosure start ↔ Needed g.inputs start id := by
  refine mem_coneFrom (fun _ _ h => inputs_support g _ h) ?_ ?_ id
  · intro b _ i hi
    exact decide_eq_true (hg.inputs b i hi)
  · intro r hr
    exact decide_eq_true (hstart r hr)

variable {id : NodeId} {seeds seeds' : List NodeId}

theorem participates_iff {reachable : List NodeId} : g.participates reachable id = true ↔
      ∃ m, g.branchAt id = some m ∧ (m ∈ reachable ∨ ∃ arm ∈ g.inputs id, arm ∈ reachable) := by
  unfold participates
  cases g.branchAt id with
  | none => simp
  | some m => simp

theorem growSeeds_some (h : g.growSeeds seeds = some seeds') :
    ∃ new, new ≠ [] ∧ seeds' = seeds ++ new ∧ ∀ id ∈ new, id < g.len ∧ id ∉ seeds ∧
      g.participates (g.inputClosure seeds) id = true := by
  unfold growSeeds at h
  simp only at h
  split at h
  · cases h
  · rename_i hne
    refine ⟨_, hne, (Option.some.inj h).symm, ?_⟩
    intro id hid
    simpa using hid

/-- When nothing is added, every participating branch is a seed. -/
theorem growSeeds_none (h : g.growSeeds seeds = none) (hid : id < g.len)
    (hp : g.participates (g.inputClosure seeds) id = true) : id ∈ seeds := by
  unfold growSeeds at h
  simp only at h
  split at h
  · rename_i hnil
    by_contra hnot
    have hmem : id ∈ (range g.len).filter fun id =>
        decide (id ∉ seeds) && g.participates (g.inputClosure seeds) id := by
      rw [mem_filter]
      exact ⟨mem_range.mpr hid, by simp [hnot, hp]⟩
    rw [hnil] at hmem
    cases hmem
  · cases h

/-- Everything in the seeds' cone is in the core if the seeds are. -/
theorem core_of_needed (h : ∀ s ∈ seeds, Core g start s) (hid : Needed g.inputs seeds id) :
    Core g start id :=
  hid.closed h fun _ hb _ hi => hb.input hi

/-- What the fixpoint keeps: seeds are ids of the arena, in the core, and hold the start. -/
structure SeedInv (g : Graph) (start seeds : List NodeId) : Prop where
  lt_len : ∀ s ∈ seeds, s < g.len
  core : ∀ s ∈ seeds, Core g start s
  start : ∀ r ∈ start, r ∈ seeds

theorem SeedInv.grow (hg : WellFormed g) (hs : SeedInv g start seeds)
    (h : g.growSeeds seeds = some seeds') : SeedInv g start seeds' := by
  obtain ⟨new, -, rfl, hnew⟩ := growSeeds_some h
  constructor
  · intro s hmem
    rcases mem_append.mp hmem with hmem | hmem
    · exact hs.lt_len s hmem
    · exact (hnew s hmem).1
  · intro s hmem
    rcases mem_append.mp hmem with hmem | hmem
    · exact hs.core s hmem
    · obtain ⟨m, hm, hin⟩ := participates_iff.mp (hnew s hmem).2.2
      simp only [mem_inputClosure hg hs.lt_len] at hin
      rcases hin with hin | ⟨arm, harm, hin⟩
      · exact .merge hm (core_of_needed hs.core hin)
      · exact .arm hm harm (core_of_needed hs.core hin)
  · intro r hr
    exact mem_append_left _ (hs.start r hr)

/-- Each turn leaves fewer ids that are no seeds. -/
theorem growSeeds_lt (h : g.growSeeds seeds = some seeds') :
    ((range g.len).filter fun id => decide (id ∉ seeds')).length <
      ((range g.len).filter fun id => decide (id ∉ seeds)).length := by
  obtain ⟨new, hne, rfl, hnew⟩ := growSeeds_some h
  obtain ⟨b, hb⟩ := exists_mem_of_ne_nil new hne
  obtain ⟨hlt, hnot, -⟩ := hnew b hb
  have hsub : (range g.len).filter (fun id => decide (id ∉ seeds ++ new)) =
      ((range g.len).filter fun id => decide (id ∉ seeds)).filter fun id =>
        decide (id ∉ new) := by
    rw [filter_filter]
    apply filter_congr
    intro id _
    simp [Bool.and_comm]
  rw [hsub]
  apply length_filter_lt_length_iff_exists.mpr
  exact ⟨b, by simp [hlt, hnot], by simp [hb]⟩

variable {S : Type} {a : Arena S} {roots : List NodeId}

theorem mem_foldl_pushSeed (g : Graph) (ids seeds : List NodeId) :
    id ∈ ids.foldl g.pushSeed seeds ↔ id ∈ seeds ∨ id ∈ ids ∧ id < g.len := by
  induction ids generalizing seeds with
  | nil => simp
  | cons r ids ih =>
    rw [foldl_cons, ih, pushSeed]
    split
    · rename_i h
      simp only [mem_append, mem_cons, not_mem_nil, or_false]
      constructor
      · rintro ((h' | rfl) | h')
        · exact .inl h'
        · exact .inr ⟨.inl rfl, h.1⟩
        · exact .inr ⟨.inr h'.1, h'.2⟩
      · rintro (h' | ⟨rfl | h', hlt⟩)
        · exact .inl (.inl h')
        · exact .inl (.inr rfl)
        · exact .inr ⟨h', hlt⟩
    · rename_i h
      simp only [mem_cons]
      constructor
      · rintro (h' | h')
        · exact .inl h'
        · exact .inr ⟨.inr h'.1, h'.2⟩
      · rintro (h' | ⟨rfl | h', hlt⟩)
        · exact .inl h'
        · exact .inl (by_contra fun hnot => h ⟨hlt, hnot⟩)
        · exact .inr ⟨h', hlt⟩

/-- **The fixpoint finds the core.** -/
theorem mem_closure_liveSeeds (hg : WellFormed a.toGraph)
    (hstart : ∀ r ∈ roots ++ a.sideEffectRoots, r < a.len) (id : NodeId) :
    id ∈ a.inputClosure (a.liveSeeds roots) ↔ Core a.toGraph (roots ++ a.sideEffectRoots) id := by
  have hinit : SeedInv a.toGraph (roots ++ a.sideEffectRoots)
      ((roots ++ a.sideEffectRoots).foldl a.pushSeed []) := by
    constructor
    · intro s hs
      rw [mem_foldl_pushSeed] at hs
      exact (hs.resolve_left not_mem_nil).2
    · intro s hs
      rw [mem_foldl_pushSeed] at hs
      exact .start (hs.resolve_left not_mem_nil).1
    · intro r hr
      rw [mem_foldl_pushSeed]
      exact .inr ⟨hr, hstart r hr⟩
  have hinv : SeedInv a.toGraph (roots ++ a.sideEffectRoots) (a.liveSeeds roots) :=
    iter_invariant (fun _ _ hs h => hs.grow hg h) _ _ hinit
  have hend : a.growSeeds (a.liveSeeds roots) = none := by
    refine iter_halts (I := fun _ => True)
      (fun seeds => ((range a.len).filter fun id => decide (id ∉ seeds)).length)
      (fun _ _ _ _ => trivial) (fun _ _ _ h => growSeeds_lt h) _ _ trivial ?_
    exact (length_filter_le _ _).trans (by simp)
  rw [mem_inputClosure hg hinv.lt_len]
  constructor
  · exact core_of_needed hinv.core
  intro hcore
  have hseed : ∀ b m, a.branchAt b = some m →
      (Needed a.inputs (a.liveSeeds roots) m ∨
        ∃ arm ∈ a.inputs b, Needed a.inputs (a.liveSeeds roots) arm) →
      Needed a.inputs (a.liveSeeds roots) b := by
    intro b m hb hin
    apply Needed.of_mem
    apply growSeeds_none hend (lt_len_of_branchAt hb)
    simp only [← mem_inputClosure hg hinv.lt_len] at hin
    exact participates_iff.mpr ⟨m, hb, hin⟩
  induction hcore with
  | start h => exact Needed.of_mem (hinv.start _ h)
  | input _ h ih => exact ih.dep h
  | merge h _ ih => exact hseed _ _ h (.inl ih)
  | arm h hi _ ih => exact hseed _ _ h (.inr ⟨_, hi, ih⟩)

/-- **The live set.** -/
theorem mem_liveSet (hg : WellFormed a.toGraph)
    (hstart : ∀ r ∈ roots ++ a.sideEffectRoots, r < a.len) (id : NodeId) :
    id ∈ a.liveSet roots ↔ Retained a.toGraph (roots ++ a.sideEffectRoots) id := by
  have hcore := mem_closure_liveSeeds hg hstart
  have hrecon : ∀ m, m ∈ (a.inputClosure (a.liveSeeds roots)).filterMap a.branchAt ↔
      ∃ b, Core a.toGraph (roots ++ a.sideEffectRoots) b ∧ a.branchAt b = some m := by
    intro m
    simp only [mem_filterMap, hcore]
  have hmerges : id ∈ a.inputClosure ((a.inputClosure (a.liveSeeds roots)).filterMap a.branchAt) ↔
      ∃ b m, Core a.toGraph (roots ++ a.sideEffectRoots) b ∧ a.branchAt b = some m ∧
        ReflTransGen (Precedes a.inputs) id m := by
    rw [mem_inputClosure hg]
    · constructor
      · rintro ⟨m, hm, hpath⟩
        obtain ⟨b, hb, hbm⟩ := (hrecon m).mp hm
        exact ⟨b, m, hb, hbm, hpath⟩
      · rintro ⟨b, m, hb, hbm, hpath⟩
        exact ⟨m, (hrecon m).mpr ⟨b, hb, hbm⟩, hpath⟩
    · intro m hm
      obtain ⟨b, -, hbm⟩ := (hrecon m).mp hm
      exact hg.merges b m hbm
  unfold Arena.liveSet
  simp only
  split
  · rename_i hnil
    rw [hcore]
    constructor
    · exact .inl
    · rintro (h | ⟨b, m, hb, hbm, -⟩)
      · exact h
      · have hm := (hrecon m).mpr ⟨b, hb, hbm⟩
        rw [hnil] at hm
        cases hm
  · rw [mem_append, hcore, hmerges]
    rfl

theorem Retained.input {i : NodeId} (h : Retained g start id) (hi : i ∈ g.inputs id) :
    Retained g start i := by
  rcases h with h | ⟨b, m, hb, hbm, hpath⟩
  · exact .inl (h.input hi)
  · exact .inr ⟨b, m, hb, hbm, .head hi hpath⟩

end Retained

/-! ## What the renumbering does -/

namespace NodeRemap

variable {live : List NodeId} {n : Nat}

/-- The pass over the ids: what it has written, and the next new id. -/
theorem foldl_build (live : List NodeId) (n : Nat) :
    (range n).foldl (fun (acc : List (Option NodeId) × Nat) (idx : NodeId) =>
        if idx ∈ live then (acc.1 ++ [some acc.2], acc.2 + 1) else (acc.1 ++ [none], acc.2))
        ([], 0) =
      ((range n).map fun i => if i ∈ live then some (rank (fun i => decide (i ∈ live)) i)
        else none, rank (fun i => decide (i ∈ live)) n) := by
  induction n with
  | zero => rfl
  | succ n ih =>
    rw [range_succ, foldl_append, ih, map_append, foldl_cons, foldl_nil]
    by_cases h : n ∈ live
    · have hnext : rank (fun i => decide (i ∈ live)) (n + 1) =
          rank (fun i => decide (i ∈ live)) n + 1 := by
        rw [rank, kept_succ_of_true (decide_eq_true h), length_append]
        rfl
      simp [h, hnext]
    · have hnext : rank (fun i => decide (i ∈ live)) (n + 1) =
          rank (fun i => decide (i ∈ live)) n := by
        rw [rank, kept_succ_of_false (decide_eq_false h)]
        rfl
      simp [h, hnext]

theorem length_build (live : List NodeId) (n : Nat) : (build live n).oldToNew.length = n := by
  simp only [build, foldl_build, length_map, length_range]

variable {old : NodeId} {r : NodeRemap}

theorem get_build_iff {new : NodeId} : (build live n).get old = some new ↔
      old < n ∧ old ∈ live ∧ rank (fun i => decide (i ∈ live)) old = new := by
  unfold get build
  simp only [foldl_build, getElem?_map]
  by_cases h : old < n
  · rw [getElem?_range h]
    by_cases hl : old ∈ live <;> simp [h, hl]
  · rw [getElem?_eq_none (by simpa using h)]
    simp [h]

theorem survived_iff : r.survived old = true ↔ ∃ new, r.get old = some new := by
  rw [survived, Option.isSome_iff_exists]

theorem survived_build_iff : (build live n).survived old = true ↔ old < n ∧ old ∈ live := by
  rw [survived_iff]
  simp only [get_build_iff]
  constructor
  · rintro ⟨_, h, hl, -⟩
    exact ⟨h, hl⟩
  · rintro ⟨h, hl⟩
    exact ⟨_, h, hl, rfl⟩

theorem get_build_lt {i j x y : NodeId} (hi : (build live n).get i = some x)
    (hj : (build live n).get j = some y) (hij : i < j) : x < y := by
  obtain ⟨-, hl, rfl⟩ := get_build_iff.mp hi
  obtain ⟨-, -, rfl⟩ := get_build_iff.mp hj
  exact rank_lt_rank hij (decide_eq_true hl)

theorem get_build_injective {i j x : NodeId} (hi : (build live n).get i = some x)
    (hj : (build live n).get j = some x) : i = j := by
  rcases Nat.lt_trichotomy i j with h | h | h
  · exact absurd (get_build_lt hi hj h) (Nat.lt_irrefl x)
  · exact h
  · exact absurd (get_build_lt hj hi h) (Nat.lt_irrefl x)

/-- The ids that survive, in order. -/
theorem survivors_build (live : List NodeId) (n : Nat) :
    (range n).filter (build live n).survived = kept (fun i => decide (i ∈ live)) n := by
  apply filter_congr
  intro i hi
  rw [Bool.eq_iff_iff, survived_build_iff, decide_eq_true_iff]
  exact and_iff_right (mem_range.mp hi)

/-- A renumbered table holds the survivors' entries and nothing else. -/
def Carried {V : Type} (r : NodeRemap) (table table' : NodeId → Option V) : Prop :=
  ∀ new v, table' new = some v ↔ ∃ old, r.get old = some new ∧ table old = some v

theorem carried_rekey {V : Type} (live : List NodeId) (n : Nat) (table : NodeId → Option V) :
    (build live n).Carried table ((build live n).rekey table) := by
  intro new v
  unfold rekey
  rw [length_build, Option.bind_eq_some_iff]
  constructor
  · rintro ⟨old, hfind, hv⟩
    have hmatch := find?_some hfind
    exact ⟨old, of_decide_eq_true hmatch, hv⟩
  rintro ⟨old, hget, hv⟩
  refine ⟨old, ?_, hv⟩
  have hsome : ((range n).find? fun i => decide ((build live n).get i = some new)).isSome := by
    rw [find?_isSome]
    exact ⟨old, mem_range.mpr (get_build_iff.mp hget).1, decide_eq_true hget⟩
  obtain ⟨i, hi⟩ := Option.isSome_iff_exists.mp hsome
  have hmatch := find?_some hi
  rw [hi, get_build_injective (of_decide_eq_true hmatch) hget]

theorem mapOp_eq (r : NodeRemap) (op : Op) :
    r.mapOp op = match op.reconvergeAt? with
      | some m => (r.get m).map .branch
      | none => some op := by
  cases op <;> rfl

theorem exists_mapOp_iff {op : Op} :
    (∃ op', r.mapOp op = some op') ↔ ∀ m, op.reconvergeAt? = some m → r.survived m = true := by
  rw [mapOp_eq]
  cases op.reconvergeAt? with
  | none => simp
  | some m => simp [survived_iff, Option.map_eq_some_iff]

theorem mapNode_eq_some_iff {n n' : Node} :
    r.mapNode n = some n' ↔ n'.shape = n.shape ∧ n'.dtype = n.dtype ∧
      n.inputs.mapM r.get = some n'.inputs ∧ r.mapOp n.op = some n'.op := by
  obtain ⟨op', inputs', shape', dtype'⟩ := n'
  unfold mapNode
  simp only [Option.bind_eq_bind, Option.bind_eq_some_iff, Option.some.injEq, Node.mk.injEq]
  constructor
  · rintro ⟨inputs, hin, op, hop, rfl, rfl, rfl, rfl⟩
    exact ⟨rfl, rfl, hin, hop⟩
  · rintro ⟨rfl, rfl, hin, hop⟩
    exact ⟨_, hin, _, hop, rfl, rfl, rfl, rfl⟩

/-- A node is renumbered when its inputs and its merge survive. -/
theorem exists_mapNode_iff {n : Node} : (∃ n', r.mapNode n = some n') ↔
      (∀ i ∈ n.inputs, r.survived i = true) ∧
        ∀ m, n.op.reconvergeAt? = some m → r.survived m = true := by
  rw [← exists_mapOp_iff]
  simp only [survived_iff, ← exists_mapM_iff]
  constructor
  · rintro ⟨n', h⟩
    obtain ⟨-, -, hin, hop⟩ := mapNode_eq_some_iff.mp h
    exact ⟨⟨_, hin⟩, _, hop⟩
  · rintro ⟨⟨inputs, hin⟩, op, hop⟩
    exact ⟨⟨op, inputs, n.shape, n.dtype⟩, mapNode_eq_some_iff.mpr ⟨rfl, rfl, hin, hop⟩⟩

end NodeRemap

/-! ## What compaction must do -/

/-- **`a'` is the part of `a` that survives, renumbered by `r`.** -/
structure IsCompaction {S : Type} (a : Arena S) (roots : List NodeId) (a' : Arena S)
    (r : NodeRemap) : Prop where
  injective : ∀ i j x, r.get i = some x → r.get j = some x → i = j
  order : ∀ i j x y, r.get i = some x → r.get j = some y → i < j → x < y
  onto : ∀ x, x < a'.len ↔ ∃ i, r.get i = some x
  roots : ∀ i ∈ roots, r.survived i = true
  sideEffectRoots : List.Forall₂ (fun i x => r.get i = some x) a.sideEffectRoots a'.sideEffectRoots
  inputs : ∀ id, r.survived id = true → ∀ i ∈ a.inputs id, r.survived i = true
  merges : ∀ b m, r.survived b = true → a.branchAt b = some m → r.survived m = true
  nodes : ∀ i x, r.get i = some x → ∃ n n', a.nodes[i]? = some n ∧ a'.nodes[x]? = some n' ∧
    n'.shape = n.shape ∧ n'.dtype = n.dtype ∧ r.mapOp n.op = some n'.op ∧
    List.Forall₂ (fun i x => r.get i = some x) n.inputs n'.inputs
  placements : r.Carried a.placements a'.placements
  targetBackends : r.Carried a.targetBackends a'.targetBackends
  layouts : r.Carried a.layouts a'.layouts
  storageMap : r.Carried a.storageMap a'.storageMap
  nodeOutputViews : r.Carried a.nodeOutputViews a'.nodeOutputViews
  storageClasses : r.Carried a.storageClasses a'.storageClasses
  nodeMatmulRowCount : r.Carried a.nodeMatmulRowCount a'.nodeMatmulRowCount

/-- A branch below the merge of a branch the fixpoint found has its own merge kept. -/
def MergesNested (g : Graph) (start : List NodeId) : Prop :=
  ∀ c m b m', Core g start c → g.branchAt c = some m → ReflTransGen (Precedes g.inputs) b m →
    g.branchAt b = some m' → Retained g start m'

theorem Retained.merge {g : Graph} {start : List NodeId} (h : MergesNested g start) {b m : NodeId}
    (hb : Retained g start b) (hm : g.branchAt b = some m) : Retained g start m := by
  rcases hb with hb | ⟨c, m', hc, hcm, hpath⟩
  · exact .inr ⟨b, m, hb, hm, .refl⟩
  · exact h c m' b m hc hcm hpath hm

section Compact

variable {S : Type} {a a' : Arena S} {roots : List NodeId} {r : NodeRemap}

/-- What a compaction that does not panic returns. -/
theorem compact_eq_some_iff :
    a.compact roots = some (a', r) ↔
      r = NodeRemap.build (a.liveSet roots) a.len ∧
      (kept (fun i => decide (i ∈ a.liveSet roots)) a.len).mapM
        (fun idx => (a.nodes[idx]?).bind r.mapNode) = some a'.nodes ∧
      a.sideEffectRoots.mapM r.get = some a'.sideEffectRoots ∧
      a'.placements = r.rekey a.placements ∧
      a'.targetBackends = r.rekey a.targetBackends ∧
      a'.layouts = r.rekey a.layouts ∧
      a'.storageMap = r.rekey a.storageMap ∧
      a'.nodeOutputViews = r.rekey a.nodeOutputViews ∧
      a'.storageClasses = r.rekey a.storageClasses ∧
      a'.nodeMatmulRowCount = r.rekey a.nodeMatmulRowCount := by
  obtain ⟨⟨nodes, placements, backends⟩, side, layouts, storage, views, classes, rows⟩ := a'
  unfold Arena.compact
  simp only [Option.bind_eq_bind, Option.bind_eq_some_iff, Option.some.injEq, Prod.mk.injEq,
    NodeRemap.survivors_build, Arena.mk.injEq, mk.injEq]
  constructor
  · rintro ⟨nodes, hnodes, side, hside, ⟨⟨rfl, rfl, rfl⟩, rfl, rfl, rfl, rfl, rfl, rfl⟩, rfl⟩
    exact ⟨rfl, hnodes, hside, rfl, rfl, rfl, rfl, rfl, rfl, rfl⟩
  · rintro ⟨rfl, hnodes, hside, rfl, rfl, rfl, rfl, rfl, rfl, rfl⟩
    exact ⟨_, hnodes, _, hside, ⟨⟨rfl, rfl, rfl⟩, rfl, rfl, rfl, rfl, rfl, rfl⟩, rfl⟩

/-- **Whatever compaction returns is the renumbered live part.** -/
theorem isCompaction_of_compact (hroots : ∀ i ∈ roots, i < a.len ∧ i ∈ a.liveSet roots)
    (h : a.compact roots = some (a', r)) : IsCompaction a roots a' r := by
  obtain ⟨rfl, hnodes, hside, hp, hb, hl, hst, hv, hc, hm⟩ := compact_eq_some_iff.mp h
  have hall := mapM_eq_some_iff.mp hnodes
  have hnode : ∀ i x, (NodeRemap.build (a.liveSet roots) a.len).get i = some x →
      ∃ n n', a.nodes[i]? = some n ∧ a'.nodes[x]? = some n' ∧
        (NodeRemap.build (a.liveSet roots) a.len).mapNode n = some n' := by
    intro i x hget
    obtain ⟨hi, hlive, rfl⟩ := NodeRemap.get_build_iff.mp hget
    obtain ⟨n', hn', hmap⟩ := forall₂_getElem? hall (getElem?_rank hi (decide_eq_true hlive))
    obtain ⟨n, hn, hmap⟩ := Option.bind_eq_some_iff.mp hmap
    exact ⟨n, n', hn, hn', hmap⟩
  have hrefs : ∀ i, (NodeRemap.build (a.liveSet roots) a.len).survived i = true →
      (∀ j ∈ a.inputs i, (NodeRemap.build (a.liveSet roots) a.len).survived j = true) ∧
        ∀ m, a.branchAt i = some m →
          (NodeRemap.build (a.liveSet roots) a.len).survived m = true := by
    intro i hi
    obtain ⟨x, hget⟩ := NodeRemap.survived_iff.mp hi
    obtain ⟨n, n', hn, -, hmap⟩ := hnode i x hget
    simpa [inputs, branchAt, op?, hn] using
      NodeRemap.exists_mapNode_iff.mp ⟨n', hmap⟩
  constructor
  case injective => exact fun i j x => NodeRemap.get_build_injective
  case order => exact fun i j x y => NodeRemap.get_build_lt
  case onto =>
    intro x
    have hlen : a'.len = (kept (fun i => decide (i ∈ a.liveSet roots)) a.len).length :=
      hall.length_eq.symm
    rw [hlen]
    constructor
    · intro hx
      obtain ⟨i, hi, hk, hr⟩ := exists_rank_eq hx
      exact ⟨i, NodeRemap.get_build_iff.mpr ⟨hi, of_decide_eq_true hk, hr⟩⟩
    · rintro ⟨i, hget⟩
      obtain ⟨hi, hk, rfl⟩ := NodeRemap.get_build_iff.mp hget
      exact rank_lt hi (decide_eq_true hk)
  case roots => exact fun i hi => NodeRemap.survived_build_iff.mpr (hroots i hi)
  case sideEffectRoots => exact mapM_eq_some_iff.mp hside
  case inputs => exact fun i hi => (hrefs i hi).1
  case merges => exact fun b m hb => (hrefs b hb).2 m
  case nodes =>
    intro i x hget
    obtain ⟨n, n', hn, hn', hmap⟩ := hnode i x hget
    obtain ⟨hs, hd, hin, hop⟩ := NodeRemap.mapNode_eq_some_iff.mp hmap
    exact ⟨n, n', hn, hn', hs, hd, hop, mapM_eq_some_iff.mp hin⟩
  case placements => exact hp ▸ NodeRemap.carried_rekey _ _ _
  case targetBackends => exact hb ▸ NodeRemap.carried_rekey _ _ _
  case layouts => exact hl ▸ NodeRemap.carried_rekey _ _ _
  case storageMap => exact hst ▸ NodeRemap.carried_rekey _ _ _
  case nodeOutputViews => exact hv ▸ NodeRemap.carried_rekey _ _ _
  case storageClasses => exact hc ▸ NodeRemap.carried_rekey _ _ _
  case nodeMatmulRowCount => exact hm ▸ NodeRemap.carried_rekey _ _ _

/-- Compaction does not panic when what live nodes and side effects name is live. -/
theorem exists_compact (hinputs : ∀ id ∈ a.liveSet roots, ∀ i ∈ a.inputs id,
      i < a.len ∧ i ∈ a.liveSet roots)
    (hmerges : ∀ b ∈ a.liveSet roots, ∀ m, a.branchAt b = some m →
      m < a.len ∧ m ∈ a.liveSet roots)
    (hside : ∀ i ∈ a.sideEffectRoots, i < a.len ∧ i ∈ a.liveSet roots) :
    ∃ a' r, a.compact roots = some (a', r) := by
  have hnodes : ∃ nodes, (kept (fun i => decide (i ∈ a.liveSet roots)) a.len).mapM
      (fun idx => (a.nodes[idx]?).bind
        (NodeRemap.build (a.liveSet roots) a.len).mapNode) = some nodes := by
    apply exists_mapM_iff.mpr
    intro id hid
    obtain ⟨hlt, hlive⟩ := mem_kept.mp hid
    have hn : a.nodes[id]? = some a.nodes[id] := getElem?_eq_getElem hlt
    rw [hn, Option.bind_some, NodeRemap.exists_mapNode_iff]
    have hin := hinputs id (of_decide_eq_true hlive)
    have hm := hmerges id (of_decide_eq_true hlive)
    simp only [inputs, branchAt, op?, hn] at hin hm
    exact ⟨fun i hi => NodeRemap.survived_build_iff.mpr (hin i hi),
      fun m hbm => NodeRemap.survived_build_iff.mpr (hm m hbm)⟩
  have hroots : ∃ side, a.sideEffectRoots.mapM
      (NodeRemap.build (a.liveSet roots) a.len).get = some side := by
    apply exists_mapM_iff.mpr
    intro i hi
    exact NodeRemap.survived_iff.mp (NodeRemap.survived_build_iff.mpr (hside i hi))
  obtain ⟨nodes, hnodes⟩ := hnodes
  obtain ⟨side, hroots⟩ := hroots
  exact ⟨⟨⟨nodes, _, _⟩, side, _, _, _, _, _⟩, _, compact_eq_some_iff.mpr
    ⟨rfl, hnodes, hroots, rfl, rfl, rfl, rfl, rfl, rfl, rfl⟩⟩

/-- **Compaction succeeds, and renumbers the live part, exactly when the branches
below the merges of the kept branches have their merges kept.** -/
theorem compact_isCompaction_iff {S : Type} (a : Arena S) (roots : List NodeId)
    (hg : WellFormed a.toGraph) (hroots : ∀ i ∈ roots, i < a.len)
    (hside : ∀ i ∈ a.sideEffectRoots, i < a.len) :
    (∃ a' r, a.compact roots = some (a', r) ∧ IsCompaction a roots a' r) ↔
      MergesNested a.toGraph (roots ++ a.sideEffectRoots) := by
  have hstart : ∀ i ∈ roots ++ a.sideEffectRoots, i < a.len := by
    intro i hi
    rcases mem_append.mp hi with hi | hi
    · exact hroots i hi
    · exact hside i hi
  have hlive := mem_liveSet hg hstart
  have hseed : ∀ i ∈ roots ++ a.sideEffectRoots, i < a.len ∧ i ∈ a.liveSet roots := fun i hi =>
    ⟨hstart i hi, (hlive i).mpr (.inl (.start hi))⟩
  constructor
  · rintro ⟨a', r, hcompact, h⟩ c m b m' hc hm hpath hb
    obtain ⟨rfl, -⟩ := compact_eq_some_iff.mp hcompact
    have hbl : b ∈ a.liveSet roots := (hlive b).mpr (.inr ⟨c, m, hc, hm, hpath⟩)
    have hm' := h.merges b m'
      (NodeRemap.survived_build_iff.mpr ⟨lt_len_of_branchAt hb, hbl⟩) hb
    exact (hlive m').mp (NodeRemap.survived_build_iff.mp hm').2
  intro hnested
  obtain ⟨a', r, hcompact⟩ : ∃ a' r, a.compact roots = some (a', r) := by
    apply exists_compact
    · intro id hid i hi
      exact ⟨hg.inputs id i hi, (hlive i).mpr (((hlive id).mp hid).input hi)⟩
    · intro b hb m hm
      exact ⟨hg.merges b m hm, (hlive m).mpr (((hlive b).mp hb).merge hnested hm)⟩
    · exact fun i hi => hseed i (mem_append_right _ hi)
  refine ⟨a', r, hcompact, isCompaction_of_compact ?_ hcompact⟩
  exact fun i hi => hseed i (mem_append_left _ hi)

theorem wellFormed_of_nodes {g : Graph} (h : ∀ n ∈ g.nodes, (∀ i ∈ n.inputs, i < g.len) ∧
    n.op.reconvergeAt?.all (· < g.len) = true) : WellFormed g := by
  constructor
  · intro id i hi
    unfold inputs at hi
    split at hi
    · rename_i n hn
      exact (h n (mem_of_getElem? hn)).1 i hi
    · cases hi
  · intro id m hm
    obtain ⟨op, hop, hm⟩ := Option.bind_eq_some_iff.mp hm
    obtain ⟨n, hn, rfl⟩ := Option.map_eq_some_iff.mp hop
    simpa [hm] using (h n (mem_of_getElem? hn)).2

/-- Two ways to compute node 1, merged in node 4, and node 5 that nobody needs. -/
def twoWays : Arena Unit :=
  { nodes := [plainNode .const [], plainNode .neg [0], plainNode .sqr [0],
      plainNode (.branch 4) [1, 2], plainNode .relu [1], plainNode .neg [4]] }

theorem compact_twoWays :
    ∃ a' r, twoWays.compact [4] = some (a', r) ∧ IsCompaction twoWays [4] a' r := by
  refine (compact_isCompaction_iff twoWays [4] (wellFormed_of_nodes (by decide +kernel))
    (by decide) (by decide)).mpr ?_
  intro c m b m' _ _ _ hb
  have hmerge : ∀ b < twoWays.len, ∀ m', twoWays.branchAt b = some m' → m' ∈ [4] := by
    decide +kernel
  exact .inl (.start (mem_append_left _ (hmerge b (lt_len_of_branchAt hb) m' hb)))

/-- Node 5 offers node 0 for the merge 3, which reads the branch 2; nothing keeps
the merge of that branch. -/
def mergeOverBranch : Arena Unit :=
  { nodes := [plainNode .const [], plainNode .const [], plainNode (.branch 4) [1],
      plainNode .add [0, 2], plainNode .neg [1], plainNode (.branch 3) [0]] }

theorem compact_mergeOverBranch_panics :
    WellFormed mergeOverBranch.toGraph ∧ mergeOverBranch.sideEffectRoots = [] ∧
      0 < mergeOverBranch.len ∧ (mergeOverBranch.compact [0]).isNone = true := by
  refine ⟨wellFormed_of_nodes (by decide +kernel), rfl, by decide, by decide +kernel⟩

end Compact

end Fuel.IR
