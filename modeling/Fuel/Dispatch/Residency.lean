import Fuel.IR.Plan
import Fuel.Lib.Liveness

/-!
# The residency analysis

`ResidencyPlanner` walks a graph's order, records where each node is produced
and last read, and runs a byte counter along the walk: a node's bytes are added
at its position and subtracted after its last reader. The report has the peak of
that counter and the nodes ranked as eviction candidates.

Byte counts are `usize`: additions and products are taken modulo `2 ^ 64`, the
subtraction saturates. The counter is compared with the total size of the live
nodes, which counts each node once.
-/

namespace Fuel.Dispatch

open Fuel.IR Fuel.DepGraph Fuel.Liveness List

/-! ## The analysis -/

/-- One node's residency span, in positions of the walk. -/
structure LiveRange where
  node : NodeId
  bytes : Nat
  firstUse : Nat
  lastUse : Nat
  inactiveGap : Nat
  deriving DecidableEq, Repr

structure ResidencyReport where
  totalBytes : Nat
  peakBytes : Nat
  peakOpIndex : Nat
  evictionCandidates : List LiveRange
  deriving DecidableEq, Repr

def ResidencyReport.fitsIn (r : ResidencyReport) (budget : Nat) : Bool :=
  decide (r.peakBytes ≤ budget)

/-- The bytes of a node's output. -/
def outputBytes (g : Graph) (id : NodeId) : Nat :=
  match g.nodes[id]? with
  | some n => n.shape.elemCount * n.dtype.sizeInBytes
  | none => 0

/-- What the analysis takes for them. -/
def nodeBytes (g : Graph) (id : NodeId) : Nat := outputBytes g id % 2 ^ 64

/-- What the first pass over the order records; the tables are keyed by node id. -/
structure Uses where
  byteOf : NodeId → Option Nat
  firstUse : NodeId → Option Nat
  lastUse : NodeId → Option Nat
  readsAt : List (List NodeId)

namespace Uses

def empty : Uses := ⟨fun _ => none, fun _ => none, fun _ => none, []⟩

/-- `entry(id).or_insert(pos)`. -/
def orInsert (m : NodeId → Option Nat) (id : NodeId) (pos : Nat) : NodeId → Option Nat :=
  match m id with
  | some _ => m
  | none => Function.update m id (some pos)

/-- Each of `inputs` was last read at `opIdx`. -/
def markReads (m : NodeId → Option Nat) (inputs : List NodeId) (opIdx : Nat) :
    NodeId → Option Nat :=
  inputs.foldl (fun m input => Function.update m input (some opIdx)) m

/-- One node of the pass, with its position. -/
def visit (g : Graph) (resident : NodeId → Bool) (u : Uses) (entry : NodeId × Nat) : Uses :=
  { byteOf := Function.update u.byteOf entry.1
      (some (if resident entry.1 then nodeBytes g entry.1 else 0))
    firstUse := orInsert u.firstUse entry.1 entry.2
    lastUse := markReads u.lastUse (g.inputs entry.1) entry.2
    readsAt := u.readsAt ++ [g.inputs entry.1] }

/-- A root that nothing reads is last used where it is produced. -/
def keepRoot (order : List NodeId) (m : NodeId → Option Nat) (r : NodeId) : NodeId → Option Nat :=
  match order.findIdx? (· == r) with
  | some pos => orInsert m r pos
  | none => m

/-- The tables for an order and its roots. -/
def collect (g : Graph) (roots order : List NodeId) (resident : NodeId → Bool) : Uses :=
  let u := order.zipIdx.foldl (visit g resident) empty
  { u with lastUse := roots.foldl (keepRoot order) u.lastUse }

end Uses

/-- The counters of the scan. -/
structure Scan where
  liveBytes : Nat := 0
  peakBytes : Nat := 0
  peakOpIndex : Nat := 0
  totalBytes : Nat := 0

namespace Scan

/-- The bytes recorded for a node. -/
def bytesOf (u : Uses) (id : NodeId) : Nat := (u.byteOf id).getD 0

/-- The inputs read at a position whose last read it is, one entry for every operand slot. -/
def freedAt (u : Uses) (opIdx : Nat) : List NodeId :=
  ((u.readsAt[opIdx]?).getD []).filter fun input => u.lastUse input = some opIdx

/-- One position of the scan. -/
def step (u : Uses) (s : Scan) (entry : NodeId × Nat) : Scan :=
  let live := (s.liveBytes + bytesOf u entry.1) % 2 ^ 64
  { liveBytes := (freedAt u entry.2).foldl (fun live input => live - bytesOf u input) live
    peakBytes := if live > s.peakBytes then live else s.peakBytes
    peakOpIndex := if live > s.peakBytes then entry.2 else s.peakOpIndex
    totalBytes := (s.totalBytes + bytesOf u entry.1) % 2 ^ 64 }

end Scan

/-- Bytes live along the order: peak, position of the peak, and total. -/
def scanPeak (order : List NodeId) (u : Uses) : Scan := order.zipIdx.foldl (Scan.step u) {}

/-- The longest stretch between consecutive uses of a node. -/
def inactiveGap (u : Uses) (id : NodeId) (first : Nat) : Nat :=
  let reads := (u.readsAt.zipIdx.filter fun entry => entry.1.contains id).map (·.2)
  let points := (first :: reads ++ [(u.lastUse id).getD first]).insertionSort (· ≤ ·)
  (List.zipWith (fun a b => b - a) points points.tail).foldl max 0

/-- `inactive_gaps`: an entry for every node that has a first use. -/
def inactiveGaps (u : Uses) (id : NodeId) : Option Nat :=
  (u.firstUse id).map (inactiveGap u id)

namespace LiveRange

def score (r : LiveRange) : Nat := r.bytes * r.inactiveGap

/-- Ranked no later: higher score first, more bytes first on a tie. -/
def before (a b : LiveRange) : Bool :=
  decide (b.score < a.score ∨ b.score = a.score ∧ b.bytes ≤ a.bytes)

end LiveRange

/-- The 32 best candidates with bytes and a gap; the sort is stable. -/
def rankCandidates (order : List NodeId) (u : Uses) : List LiveRange :=
  let cands := order.map fun id =>
    { node := id, bytes := (u.byteOf id).getD 0, firstUse := (u.firstUse id).getD 0
      lastUse := (u.lastUse id).getD 0, inactiveGap := (inactiveGaps u id).getD 0 : LiveRange }
  ((cands.insertionSort fun a b => a.before b).filter fun c => 0 < c.bytes ∧ 0 < c.inactiveGap).take 32

namespace ResidencyPlanner

def analyzeOrdered (g : Graph) (roots order : List NodeId) (resident : NodeId → Bool) :
    ResidencyReport :=
  let u := Uses.collect g roots order resident
  let scan := scanPeak order u
  { totalBytes := scan.totalBytes
    peakBytes := scan.peakBytes
    peakOpIndex := scan.peakOpIndex
    evictionCandidates := rankCandidates order u }

/-- Every node counts, in plain topological order. -/
def analyze (g : Graph) (roots : List NodeId) : Option ResidencyReport :=
  (topoOrderMulti g roots).map fun order => analyzeOrdered g roots order fun _ => true

/-- A node's bytes are on `device`: a transfer's or an allocation's target
decides, otherwise the placement, and an unplaced node counts. -/
def residentOn (g : Graph) (device : DeviceLocation) (id : NodeId) : Bool :=
  match g.op? id with
  | some (.move target) | some (.copy target) | some (.alloc target) => decide (target = device)
  | _ => ((g.placements id).map fun p => decide (p = device)).getD true

/-- The bytes on one device, in the order the executor runs. -/
def analyzeOn (g : Graph) (roots : List NodeId) (device : DeviceLocation) :
    Option ResidencyReport :=
  (executionPlan g roots).map fun order => analyzeOrdered g roots order (residentOn g device)

end ResidencyPlanner

open ResidencyPlanner

/-! ## What the tables hold -/

namespace Uses

variable {x : NodeId}

theorem markReads_apply (m : NodeId → Option Nat) (inputs : List NodeId) (opIdx : Nat) :
    markReads m inputs opIdx x = if x ∈ inputs then some opIdx else m x := by
  unfold markReads
  induction inputs generalizing m with
  | nil => rfl
  | cons input inputs ih =>
    rw [foldl_cons, ih]
    by_cases hx : x = input
    · subst hx
      simp
    · simp [hx]

theorem orInsert_of_some {m : NodeId → Option Nat} {pos : Nat} (h : m x = some pos) (r : NodeId)
    (p : Nat) : orInsert m r p x = some pos := by
  unfold orInsert
  cases hr : m r with
  | some _ => exact h
  | none =>
    have hne : x ≠ r := fun hx => by
      rw [← hx, h] at hr
      cases hr
    exact (Function.update_of_ne hne _ _).trans h

theorem keepRoot_of_some {order roots : List NodeId} {m : NodeId → Option Nat} {pos : Nat}
    (h : m x = some pos) : roots.foldl (keepRoot order) m x = some pos := by
  induction roots generalizing m with
  | nil => exact h
  | cons r roots ih =>
    apply ih
    unfold keepRoot
    cases order.findIdx? (· == r) with
    | some p => exact orInsert_of_some h r p
    | none => exact h

section Visits

variable (g : Graph) (resident : NodeId → Bool) (l : List NodeId)

theorem readsAt_visits (k : Nat) (u : Uses) :
    ((l.zipIdx k).foldl (visit g resident) u).readsAt = u.readsAt ++ l.map g.inputs := by
  induction l generalizing k u with
  | nil => simp
  | cons a l ih =>
    rw [zipIdx_cons, foldl_cons, ih]
    simp [visit]

theorem byteOf_visits (k : Nat) (u : Uses) :
    ((l.zipIdx k).foldl (visit g resident) u).byteOf x =
      if x ∈ l then some (if resident x then nodeBytes g x else 0) else u.byteOf x := by
  induction l generalizing k u with
  | nil => rfl
  | cons a l ih =>
    rw [zipIdx_cons, foldl_cons, ih]
    by_cases hx : x ∈ l
    · rw [if_pos hx, if_pos (mem_cons_of_mem a hx)]
    · rw [if_neg hx]
      by_cases ha : x = a
      · subst ha
        simp [visit]
      · simp [visit, ha, hx]

/-- A node that none of the visited ones reads keeps its last use; one that is
read gets the position of a reader. -/
theorem lastUse_visits (k : Nat) (u : Uses) :
    ((∀ r ∈ l, x ∉ g.inputs r) →
      ((l.zipIdx k).foldl (visit g resident) u).lastUse x = u.lastUse x) ∧
    ((∃ r ∈ l, x ∈ g.inputs r) →
      ∃ j ≥ k, ((l.zipIdx k).foldl (visit g resident) u).lastUse x = some j) := by
  induction l generalizing k u with
  | nil => simp
  | cons a l ih =>
    rw [zipIdx_cons, foldl_cons]
    obtain ⟨hunread, hread⟩ := ih (k + 1) (visit g resident u (a, k))
    have ha : (visit g resident u (a, k)).lastUse x = if x ∈ g.inputs a then some k else u.lastUse x :=
      markReads_apply _ _ _
    constructor
    · intro h
      rw [hunread fun r hr => h r (mem_cons_of_mem a hr), ha, if_neg (h a mem_cons_self)]
    intro h
    by_cases hl : ∃ r ∈ l, x ∈ g.inputs r
    · obtain ⟨j, hj, heq⟩ := hread hl
      exact ⟨j, by omega, heq⟩
    · have hxa : x ∈ g.inputs a := by
        obtain ⟨r, hr, hxr⟩ := h
        rcases mem_cons.mp hr with rfl | hr
        · exact hxr
        · exact absurd ⟨r, hr, hxr⟩ hl
      refine ⟨k, Nat.le_refl k, ?_⟩
      rw [hunread fun r hr hxr => hl ⟨r, hr, hxr⟩, ha, if_pos hxa]

end Visits

variable {g : Graph} {resident : NodeId → Bool} {roots done rest : List NodeId} {b : NodeId}

/-- The bytes a node of the order counts for. -/
def size (g : Graph) (resident : NodeId → Bool) (id : NodeId) : Nat :=
  if resident id then nodeBytes g id else 0

theorem bytesOf_collect {order : List NodeId} (hx : x ∈ order) :
    Scan.bytesOf (collect g roots order resident) x = size g resident x := by
  have h := byteOf_visits g resident (x := x) order 0 empty
  rw [if_pos hx] at h
  show (((order.zipIdx 0).foldl (visit g resident) empty).byteOf x).getD 0 = _
  rw [h]
  rfl

/-- At its position a node frees an input once for every slot that reads it, if nothing reads
the input later. -/
theorem freedAt_collect :
    Scan.freedAt (collect g roots (done ++ b :: rest) resident) done.length =
      (g.inputs b).filter fun x => ∀ r ∈ rest, x ∉ g.inputs r := by
  have hreads : (collect g roots (done ++ b :: rest) resident).readsAt[done.length]? =
      some (g.inputs b) := by
    show (((done ++ b :: rest).zipIdx 0).foldl (visit g resident) empty).readsAt[_]? = _
    rw [readsAt_visits]
    simp [empty]
  unfold Scan.freedAt
  rw [hreads, Option.getD_some]
  apply filter_congr
  intro x hx
  -- the tables after `b`, and what the rest of the order does to them
  have hsplit : (done ++ b :: rest).zipIdx 0 =
      done.zipIdx 0 ++ (b, done.length) :: rest.zipIdx (done.length + 1) := by
    simp [zipIdx_append, zipIdx_cons]
  set u := visit g resident ((done.zipIdx 0).foldl (visit g resident) empty) (b, done.length) with hu
  have hb : u.lastUse x = some done.length := by
    rw [hu]
    exact (markReads_apply _ _ _).trans (if_pos hx)
  have hlast : (collect g roots (done ++ b :: rest) resident).lastUse x =
      ((rest.zipIdx (done.length + 1)).foldl (visit g resident) u).lastUse x := by
    show roots.foldl (keepRoot _) (((done ++ b :: rest).zipIdx 0).foldl _ empty).lastUse x = _
    rw [hsplit, foldl_append, foldl_cons, ← hu]
    by_cases hr : ∃ r ∈ rest, x ∈ g.inputs r
    · obtain ⟨j, -, hj⟩ := (lastUse_visits g resident rest (done.length + 1) u).2 hr
      rw [hj]
      exact keepRoot_of_some hj
    · have hun := (lastUse_visits g resident rest (done.length + 1) u).1
        fun r hrest hxr => hr ⟨r, hrest, hxr⟩
      rw [hun, hb]
      exact keepRoot_of_some (hun.trans hb)
  rw [hlast, decide_eq_decide]
  obtain ⟨hunread, hread⟩ :=
    lastUse_visits g resident (x := x) rest (done.length + 1) u
  constructor
  · intro h r hr hxr
    obtain ⟨j, hj, heq⟩ := hread ⟨r, hr, hxr⟩
    rw [heq, Option.some_inj] at h
    omega
  · intro h
    rw [hunread h, hb]

end Uses

/-! ## The counter and the live nodes -/

/-- A node other than the walk's last frees what it is the last to read only
once: a tensor of some size that it is the last to read is not a root, and fills
one of its operand slots. -/
def FreedOnce (g : Graph) (roots order : List NodeId) (size : NodeId → Nat) : Prop :=
  ∀ i < order.length - 1, ∀ b ∈ order[i]?, ∀ x ∈ g.inputs b, size x ≠ 0 →
    (∀ r ∈ order.drop (i + 1), x ∉ g.inputs r) → x ∉ roots ∧ (g.inputs b).count x = 1

instance (g : Graph) (roots order : List NodeId) (size : NodeId → Nat) :
    Decidable (FreedOnce g roots order size) :=
  inferInstanceAs (Decidable (∀ i < order.length - 1, _))

theorem FreedOnce.at_split {g : Graph} {roots done rest : List NodeId} {b : NodeId}
    {size : NodeId → Nat} (h : FreedOnce g roots (done ++ b :: rest) size) (hrest : rest ≠ []) :
    ∀ x ∈ g.inputs b, size x ≠ 0 → (∀ r ∈ rest, x ∉ g.inputs r) →
      x ∉ roots ∧ (g.inputs b).count x = 1 := by
  have hpos := length_pos_of_ne_nil hrest
  have hdrop : (done ++ b :: rest).drop (done.length + 1) = rest := by
    rw [append_cons, drop_left' (by simp)]
  have hat := h done.length (by simp; omega) b (by simp)
  rwa [hdrop] at hat

/-- The bytes of the nodes live at position `i`, each counted once. -/
def liveBytesAt (g : Graph) (roots order : List NodeId) (size : NodeId → Nat) (i : Nat) : Nat :=
  weight size (liveAt g.inputs roots order i)

namespace Scan

variable {g : Graph} {roots order : List NodeId} {size : NodeId → Nat} {u : Uses}

theorem foldl_sub (f : NodeId → Nat) (l : List NodeId) (n : Nat) :
    l.foldl (fun live x => live - f x) n = n - weight f l := by
  induction l generalizing n with
  | nil => rfl
  | cons x l ih =>
    rw [foldl_cons, ih, weight_cons]
    omega

/-- Up to `done` the peak is the largest of the live sizes, and the counter holds
what is carried on, unless nothing is left to run. -/
structure Exact (g : Graph) (roots : List NodeId) (size : NodeId → Nat) (done rest : List NodeId)
    (s : Scan) : Prop where
  live : rest ≠ [] → s.liveBytes = weight size (carried g.inputs roots done rest)
  peak : s.peakBytes =
    (Finset.range done.length).sup (liveBytesAt g roots (done ++ rest) size)

/-- What the scan needs to know of the walk and its tables. -/
structure Walk (g : Graph) (roots order : List NodeId) (size : NodeId → Nat) (u : Uses) : Prop where
  nodup : order.Nodup
  schedules : Schedules g.inputs order
  wanted : ∀ done b rest, order = done ++ b :: rest → Wanted g.inputs roots rest b
  bytes : ∀ x ∈ order, bytesOf u x = size x
  freed : ∀ done b rest, order = done ++ b :: rest →
    freedAt u done.length = (g.inputs b).filter fun x => ∀ r ∈ rest, x ∉ g.inputs r
  fits : weight size order < 2 ^ 64

variable (hwalk : Walk g roots order size u)

include hwalk

variable (honce : FreedOnce g roots order size)

include honce

theorem Exact.step {done rest : List NodeId} {b : NodeId} {s : Scan}
    (hsplit : order = done ++ b :: rest) (hs : Exact g roots size done (b :: rest) s) :
    Exact g roots size (done ++ [b]) rest (step u s (b, done.length)) := by
  have hnodup := hwalk.nodup
  rw [hsplit] at hnodup
  have hb : b ∉ done := fun h =>
    disjoint_of_nodup_append hnodup h mem_cons_self
  have hmem : ∀ x ∈ done ++ [b], x ∈ order := by
    intro x hx
    rw [hsplit, append_cons]
    exact mem_append_left _ hx
  have hbytes : bytesOf u b = size b := hwalk.bytes b (hmem b (by simp))
  -- the counter after the addition is the size of the live nodes
  have hlive : s.liveBytes + bytesOf u b = liveBytesAt g roots order size done.length := by
    rw [liveBytesAt, hsplit, weight_liveAt _ _ _ _ hb, hs.live (cons_ne_nil _ _), hbytes]
  have hmod : (s.liveBytes + bytesOf u b) % 2 ^ 64 =
      liveBytesAt g roots order size done.length := by
    rw [hlive]
    exact Nat.mod_eq_of_lt (Nat.lt_of_le_of_lt (weight_liveAt_le _ _) hwalk.fits)
  constructor
  · intro hrest
    show (freedAt u done.length).foldl _ ((s.liveBytes + bytesOf u b) % 2 ^ 64) = _
    have hin : ∀ x ∈ g.inputs b, x ∈ done := hwalk.schedules done b rest hsplit
    have hfreed : weight (bytesOf u) (freedAt u done.length) =
        weight size (done.filter fun x => x ∈ g.inputs b ∧ ¬ Wanted g.inputs roots rest x) := by
      rw [hwalk.freed done b rest hsplit, ← weight_freed (List.Nodup.of_append_left hnodup) hin
        (FreedOnce.at_split (hsplit ▸ honce) hrest)]
      unfold weight
      congr 1
      apply map_congr_left
      intro x hx
      exact hwalk.bytes x (hmem x (mem_append_left _ (hin x (mem_filter.mp hx).1)))
    have hdrop := weight_carried size done (hwalk.wanted done b rest hsplit)
    have hnow := weight_liveAt g.inputs roots rest size hb
    rw [foldl_sub, hmod, hfreed, liveBytesAt, hsplit]
    omega
  · have happ : done ++ [b] ++ rest = order := by simp [hsplit]
    have hpeak := hs.peak
    rw [← hsplit] at hpeak
    rw [happ, length_append, length_singleton, Finset.range_add_one, Finset.sup_insert]
    show (if (s.liveBytes + bytesOf u b) % 2 ^ 64 > s.peakBytes then
      (s.liveBytes + bytesOf u b) % 2 ^ 64 else s.peakBytes) = _
    rw [hmod, ← hpeak]
    split <;> omega

theorem Exact.run {done rest : List NodeId} {s : Scan} (hsplit : order = done ++ rest)
    (hs : Exact g roots size done rest s) :
    Exact g roots size order [] ((rest.zipIdx done.length).foldl (Scan.step u) s) := by
  induction rest generalizing done s with
  | nil =>
    rw [append_nil] at hsplit
    exact hsplit ▸ hs
  | cons b rest ih =>
    have hstep := hs.step hwalk honce hsplit
    have hnext := ih (by rw [hsplit, append_cons]) hstep
    rwa [length_append, length_singleton] at hnext

theorem peakBytes_scanPeak : (scanPeak order u).peakBytes =
      (Finset.range order.length).sup (liveBytesAt g roots order size) := by
  have hstart : Exact g roots size [] order {} :=
    ⟨fun _ => rfl, rfl⟩
  have hend := (hstart.run hwalk honce rfl).peak
  rwa [append_nil] at hend

end Scan

/-- The walk of an acyclic graph and the tables made from it. -/
theorem walk_collect {g : Graph} {roots order : List NodeId}
    (htopo : IsTopoOrder g roots order) (hsched : Schedules g.inputs order)
    (hfits : weight (outputBytes g) order < 2 ^ 64) :
    Scan.Walk g roots order (outputBytes g) (Uses.collect g roots order fun _ => true) where
  nodup := htopo.nodup
  schedules := hsched
  wanted := by
    intro done b rest hsplit
    have hb : b ∈ order := by rw [hsplit]; simp
    -- a needed node is a root or has a reader, and the reader comes later
    obtain ⟨r, hr, hpath⟩ := (htopo.mem b).mp hb
    rcases hpath.cases_head with rfl | ⟨c, hbc, hpath⟩
    · exact .inl hr
    refine .inr ⟨c, ?_, hbc⟩
    have hc : c ∈ order := (htopo.mem c).mpr ⟨r, hr, hpath⟩
    have hlater : Before order b c := hsched.before hc hbc
    rw [hsplit, mem_append, mem_cons] at hc
    rcases hc with hc | rfl | hc
    · exact absurd (before_of_split hsplit hc) (hlater.asymm htopo.nodup)
    · exact absurd hlater (Before.irrefl htopo.nodup)
    · exact hc
  bytes := by
    intro x hx
    have hle : weight (outputBytes g) [x] ≤ weight (outputBytes g) order :=
      weight_le_of_sublist (singleton_sublist.mpr hx)
    rw [weight_singleton] at hle
    rw [Uses.bytesOf_collect hx]
    exact Nat.mod_eq_of_lt (Nat.lt_of_le_of_lt hle hfits)
  freed := by
    intro done b rest hsplit
    rw [hsplit]
    exact Uses.freedAt_collect
  fits := hfits

/-- **The reported peak is exact**: on an acyclic graph whose walk frees
everything once, and whose sizes sum up below the word limit, the peak is the
largest total size of the nodes live at a position, and the graph fits a budget
if and only if no position needs more. -/
theorem peak_bytes_exact {g : Graph} {roots order : List NodeId} (hacyc : g.AcyclicFrom roots)
    (horder : topoOrderMulti g roots = some order)
    (honce : FreedOnce g roots order (outputBytes g))
    (hfits : weight (outputBytes g) order < 2 ^ 64) :
    ∃ report, analyze g roots = some report ∧
      report.peakBytes =
        (Finset.range order.length).sup (liveBytesAt g roots order (outputBytes g)) ∧
      ∀ budget, report.fitsIn budget = true ↔
        ∀ i < order.length, liveBytesAt g roots order (outputBytes g) i ≤ budget := by
  have hwalk := walk_collect (topoOrderMulti_spec horder)
    (topoOrderMulti_schedules hacyc horder) hfits
  have hpeak := Scan.peakBytes_scanPeak hwalk honce
  refine ⟨_, by rw [analyze, horder, Option.map_some], hpeak, ?_⟩
  intro budget
  rw [ResidencyReport.fitsIn, decide_eq_true_eq]
  show (scanPeak order _).peakBytes ≤ budget ↔ _
  rw [hpeak, Finset.sup_le_iff]
  simp only [Finset.mem_range]

/-- A node with a one-dimensional output. -/
def vectorNode (op : Op) (inputs : List NodeId) (len : Nat) : Node := ⟨op, inputs, ⟨[len], none⟩, .f32⟩

/-- A shared constant read by two nodes that meet again. -/
def sharedConst : Graph :=
  { nodes := [vectorNode .const [] 256, vectorNode .const [] 256, vectorNode .add [0, 1] 256,
      vectorNode .neg [0] 256, vectorNode .add [2, 3] 256] }

theorem peak_bytes_exact_shared :
    ∃ report, analyze sharedConst [4] = some report ∧
      report.peakBytes =
        (Finset.range 5).sup (liveBytesAt sharedConst [4] [0, 3, 1, 2, 4] (outputBytes sharedConst)) ∧
      ∀ budget, report.fitsIn budget = true ↔ ∀ i < 5,
        liveBytesAt sharedConst [4] [0, 3, 1, 2, 4] (outputBytes sharedConst) i ≤ budget := by
  have hacyc : sharedConst.Acyclic := Graph.acyclic_of_inputs_lt (by decide)
  exact peak_bytes_exact (hacyc.acyclicFrom [4]) (by decide +kernel) (by decide +kernel)
    (by decide +kernel)

/-- A product of a node with itself, then a broadcast. -/
def squared : Graph :=
  { nodes := [vectorNode .const [] 1, vectorNode .mul [0, 0] 1,
      vectorNode (.broadcastTo ⟨[8], none⟩) [1] 8] }

/-- The root `1` is read by the broadcast, and one more node follows. -/
def readRoot : Graph :=
  { nodes := [vectorNode .const [] 1, vectorNode .neg [0] 1,
      vectorNode (.broadcastTo ⟨[8], none⟩) [1] 8, vectorNode .neg [2] 8] }

def halfWord : Graph :=
  { nodes := [vectorNode .const [] (2 ^ 61), vectorNode .neg [0] (2 ^ 61)] }

/-- The counter misses bytes after a node that reads an operand twice, after the
last reader of a root, and when the sum wraps. -/
theorem peak_bytes_too_low :
    ((analyze squared [2]).map (·.peakBytes) = some 32 ∧
      topoOrderMulti squared [2] = some [0, 1, 2] ∧
      liveBytesAt squared [2] [0, 1, 2] (outputBytes squared) 2 = 36) ∧
    ((analyze readRoot [1, 3]).map (·.peakBytes) = some 64 ∧
      topoOrderMulti readRoot [1, 3] = some [0, 1, 2, 3] ∧
      liveBytesAt readRoot [1, 3] [0, 1, 2, 3] (outputBytes readRoot) 3 = 68) ∧
    ((analyze halfWord [1]).map (·.peakBytes) = some (2 ^ 63) ∧
      topoOrderMulti halfWord [1] = some [0, 1] ∧
      liveBytesAt halfWord [1] [0, 1] (outputBytes halfWord) 1 = 2 ^ 64) := by
  decide +kernel

end Fuel.Dispatch
