import Fuel.IR.Run

/-!
# What lowering a list of runs does

The runs of a walk are its nodes, branches apart, cut into consecutive pieces
on one device each (`flatten_runsOf`, `runsOf_straight`, `runsOf_device`). Whatever runs are kept,
the device order is a rearrangement of them that still computes inputs first
(`lowerRuns_perm`, `lowerRuns_schedules`); on one device, and when each run
reads the run before it, it is the order they came in (`lowerRuns_single`,
`lowerRuns_chained`).
-/

namespace Fuel.IR

open Fuel.DepGraph Relation List

/-! ## The cuts -/

section Cuts

variable {g : Graph} {order points entries : List NodeId} {c : Cut} {id : NodeId}

/-- `b` continues a run from `a`: it reads `a` alone, on the same device, and is
neither a merge node, an arm entry nor a transfer. -/
structure Continues (g : Graph) (order points entries : List NodeId) (a b : NodeId) : Prop where
  reads : ((g.inputs b).filter fun p => decide (p ∈ order)) = [a]
  device : g.targetBackends b = g.targetBackends a
  not_reconverge : b ∉ points
  not_arm : b ∉ entries
  not_transfer : g.isTransfer b = false

theorem Cut.startsNew_of_current_nil (h : c.current = []) :
    c.startsNew g order points entries id = true := by
  simp [Cut.startsNew, h]

/-- What it takes not to begin a new run. -/
theorem Cut.continues_of_not_startsNew
    (h : c.startsNew g order points entries id = false) :
    ∃ last, c.current.getLast? = some last ∧ Continues g order points entries last id ∧
      g.targetBackends id = c.currentDevice := by
  cases hlast : c.current.getLast? with
  | none =>
    rw [Cut.startsNew_of_current_nil (getLast?_eq_none_iff.mp hlast)] at h
    cases h
  | some last =>
    have hcur : c.current ≠ [] := by
      intro hnil
      rw [hnil] at hlast
      cases hlast
    simp only [Cut.startsNew, hlast, Bool.or_eq_false_iff, decide_eq_false_iff_not, not_not,
      Bool.not_eq_false', decide_eq_true_eq, Bool.and_eq_false_iff] at h
    obtain ⟨⟨⟨⟨⟨⟨⟨-, hpoint⟩, harm⟩, -⟩, htrans⟩, hseam⟩, hchain⟩, hdev⟩ := h
    rw [hchain] at hseam
    refine ⟨last, rfl, ⟨hchain, ?_, hpoint, harm, htrans⟩, ?_⟩
    · exact (not_not.mp (of_decide_eq_false hseam)).symm
    · simpa [hcur] using hdev

/-- A node opens a new run or continues the open one. -/
theorem Cut.add_cases (hbranch : g.branchAt id = none) :
    Cut.add g order points entries c id = ⟨c.finish, [id], g.targetBackends id⟩ ∨
      ∃ last, c.current.getLast? = some last ∧ Continues g order points entries last id ∧
        g.targetBackends id = c.currentDevice ∧
        Cut.add g order points entries c id = { c with current := c.current ++ [id] } := by
  cases hnew : c.startsNew g order points entries id with
  | true =>
    left
    by_cases hcur : c.current = []
    · simp [Cut.add, hbranch, hnew, hcur, Cut.finish]
    · simp [Cut.add, hbranch, hnew, hcur]
  | false =>
    right
    obtain ⟨last, hlast, hcont, hdev⟩ := Cut.continues_of_not_startsNew hnew
    have hcur : c.current ≠ [] := by
      intro hnil
      rw [hnil] at hlast
      cases hlast
    exact ⟨last, hlast, hcont, hdev, by simp [Cut.add, hbranch, hnew, hcur]⟩

/-- The nodes so far are in runs, in order; each run is a straight line on its device. -/
structure CutInv (g : Graph) (order points entries done : List NodeId) (c : Cut) : Prop where
  nodes : (membersOf c.runs).flatten ++ c.current =
    done.filter fun id => (g.branchAt id).isNone
  straight : ∀ r ∈ c.runs, r.members.IsChain (Continues g order points entries)
  device : ∀ r ∈ c.runs, ∀ m ∈ r.members, g.targetBackends m = r.device
  current_straight : c.current.IsChain (Continues g order points entries)
  current_device : ∀ m ∈ c.current, g.targetBackends m = c.currentDevice

theorem CutInv.init : CutInv g order points entries [] Cut.init := by
  constructor <;> simp [Cut.init, membersOf]

/-- Finishing the open run. -/
theorem CutInv.mem_finish (h : CutInv g order points entries done c) {r : Run}
    (hr : r ∈ c.finish) : r.members.IsChain (Continues g order points entries) ∧
      ∀ m ∈ r.members, g.targetBackends m = r.device := by
  unfold Cut.finish at hr
  split at hr
  · exact ⟨h.straight r hr, h.device r hr⟩
  · rcases mem_append.mp hr with hr | hr
    · exact ⟨h.straight r hr, h.device r hr⟩
    · rw [mem_singleton.mp hr]
      exact ⟨h.current_straight, h.current_device⟩

theorem Cut.flatten_finish (c : Cut) :
    (membersOf c.finish).flatten = (membersOf c.runs).flatten ++ c.current := by
  unfold Cut.finish
  split
  · rename_i h
    simp [h]
  · simp [membersOf]

theorem CutInv.add {done : List NodeId} (h : CutInv g order points entries done c) :
    CutInv g order points entries (done ++ [id]) (Cut.add g order points entries c id) := by
  cases hbranch : g.branchAt id with
  | some m =>
    have hadd : Cut.add g order points entries c id = c := by simp [Cut.add, hbranch]
    rw [hadd]
    exact { h with nodes := by rw [h.nodes, filter_append]; simp [hbranch] }
  | none =>
    have hdone : (done ++ [id]).filter (fun id => (g.branchAt id).isNone) =
        done.filter (fun id => (g.branchAt id).isNone) ++ [id] := by
      rw [filter_append]
      simp [hbranch]
    rcases Cut.add_cases hbranch with hadd | ⟨last, hlast, hcont, hdev, hadd⟩
    · rw [hadd]
      constructor
      case nodes => rw [hdone, ← h.nodes, ← c.flatten_finish]
      case straight => exact fun r hr => (h.mem_finish hr).1
      case device => exact fun r hr => (h.mem_finish hr).2
      case current_straight => exact isChain_singleton id
      case current_device => intro m hm; rw [mem_singleton.mp hm]
    rw [hadd]
    constructor
    case nodes => rw [hdone, ← h.nodes, List.append_assoc]
    case straight => exact h.straight
    case device => exact h.device
    case current_straight =>
      refine isChain_append.mpr ⟨h.current_straight, isChain_singleton id, ?_⟩
      intro a ha b hb
      rw [hlast] at ha
      cases ha
      cases hb
      exact hcont
    case current_device =>
      intro m hm
      rcases mem_append.mp hm with hm | hm
      · exact h.current_device m hm
      · rw [mem_singleton.mp hm, hdev]

end Cuts

variable (g : Graph) (order : List NodeId)

theorem runsOf_inv :
    CutInv g order (reconvergePoints g order) (computeArmEntries g order) order
      (order.foldl (Cut.add g order (reconvergePoints g order) (computeArmEntries g order))
        Cut.init) :=
  foldl_invariant (I := fun done c => CutInv g order (reconvergePoints g order)
    (computeArmEntries g order) done c) order CutInv.init fun _ _ _ _ _ h => h.add

/-- **The runs of a walk are its nodes without the branches, in order.** -/
theorem flatten_runsOf :
    (membersOf (runsOf g order)).flatten = order.filter fun id => (g.branchAt id).isNone := by
  show (membersOf (Cut.finish _)).flatten = _
  rw [Cut.flatten_finish]
  exact (runsOf_inv g order).nodes

/-- **A run is a straight line.** -/
theorem runsOf_straight {r : Run} (hr : r ∈ runsOf g order) :
    r.members.IsChain
      (Continues g order (reconvergePoints g order) (computeArmEntries g order)) :=
  ((runsOf_inv g order).mem_finish hr).1

/-- **A run's members are all on its device.** -/
theorem runsOf_device {r : Run} (hr : r ∈ runsOf g order)
    {m : NodeId} (hm : m ∈ r.members) : g.targetBackends m = r.device :=
  ((runsOf_inv g order).mem_finish hr).2 m hm

/-! ## The order of runs -/

theorem pickRun_chooses (key : List Nat → Nat → Nat × Bool × Nat) : Chooses (pickRun key) := by
  constructor
  case mem =>
    intro emitted ready r h
    cases ready with
    | nil => cases h
    | cons x rest =>
      have hbest : ∀ (l : List Nat) (best : Nat), best ∈ x :: rest → (∀ y ∈ l, y ∈ x :: rest) →
          l.foldl (fun best ri =>
            if keyLt (key emitted ri) (key emitted best) then ri else best) best ∈ x :: rest := by
        intro l
        induction l with
        | nil => exact fun best hb _ => hb
        | cons y l ih =>
          intro best hb hl
          rw [foldl_cons]
          refine ih _ ?_ fun z hz => hl z (mem_cons_of_mem _ hz)
          split
          · exact hl y mem_cons_self
          · exact hb
      cases h
      exact hbest rest x mem_cons_self fun y hy => mem_cons_of_mem _ hy
  case none =>
    intro emitted ready h
    cases ready with
    | nil => rfl
    | cons x rest => cases h

/-- Some runs of a walk, in order: no node twice, and a node comes after those
of its inputs that lie in one of the runs. -/
structure RunList (g : Graph) (runs : List Run) : Prop where
  nodup : (membersOf runs).flatten.Nodup
  schedules : Schedules
    (fun b => (g.inputs b).filter fun a => decide (a ∈ (membersOf runs).flatten))
    (membersOf runs).flatten

section RunOrder

variable {g : Graph} {runs : List Run}

theorem length_membersOf (runs : List Run) : (membersOf runs).length = runs.length :=
  length_map ..

/-- **The order of runs is a permutation that respects what runs read.** -/
theorem deviceAlternatingOrder_spec (h : RunList g runs) :
    (deviceAlternatingOrder g runs).Perm (List.range (membersOf runs).length) ∧
      Schedules (blockDeps g.inputs (membersOf runs)) (deviceAlternatingOrder g runs) := by
  have hrange := blockDeps_schedules_range h.nodup h.schedules
  rw [length_membersOf] at hrange ⊢
  unfold deviceAlternatingOrder
  simp only
  split
  · exact ⟨.refl _, hrange⟩
  split
  · exact ⟨.refl _, hrange⟩
  -- the runs read earlier runs only, so the pump emits every one of them
  have hchoose := pickRun_chooses (runKey runs (downWeight g runs))
  have hlt : ∀ i ∈ List.range runs.length, ∀ j ∈ blockDeps g.inputs (membersOf runs) i,
      j ∈ List.range runs.length := by
    intro i hi j hj
    have := blockDeps_lt h.nodup h.schedules hj
    exact mem_range.mpr (Nat.lt_trans this (mem_range.mp hi))
  have hperm := kahn_complete nodup_range hchoose hlt fun i _ =>
    blockDeps_acyclic h.nodup h.schedules i
  have hrest : (List.range runs.length).filter (fun i => decide (i ∉
      kahn (List.range runs.length) (blockDeps g.inputs (membersOf runs))
        (pickRun (runKey runs (downWeight g runs))))) = [] := by
    rw [filter_eq_nil_iff]
    intro i hi
    simpa using hperm.mem_iff.mpr hi
  rw [hrest, append_nil]
  exact ⟨hperm, kahn_schedules nodup_range hchoose⟩

theorem lowerRuns_perm (h : RunList g runs) :
    (lowerRuns g runs).Perm (membersOf runs).flatten :=
  arrange_perm (deviceAlternatingOrder_spec h).1

/-- **Lowering keeps inputs first.** -/
theorem lowerRuns_schedules (h : RunList g runs) : Schedules
    (fun b => (g.inputs b).filter fun a => decide (a ∈ (membersOf runs).flatten))
    (lowerRuns g runs) :=
  arrange_schedules h.nodup h.schedules (deviceAlternatingOrder_spec h).1
    (deviceAlternatingOrder_spec h).2

/-- **On one device the runs are taken as they come.** -/
theorem deviceAlternatingOrder_single (hdev : ∀ r ∈ runs, ∀ r' ∈ runs, r.device = r'.device) :
    deviceAlternatingOrder g runs = List.range runs.length := by
  unfold deviceAlternatingOrder
  simp only
  split
  · rfl
  rw [if_pos]
  cases runs with
  | nil => simp
  | cons r rest =>
    have hall : ∀ d ∈ (r :: rest).map Run.device, d = r.device := by
      intro d hd
      obtain ⟨r', hr', rfl⟩ := mem_map.mp hd
      exact hdev r' hr' r mem_cons_self
    have hsub : ((r :: rest).map Run.device).dedup.Subperm [r.device] :=
      (nodup_dedup _).subperm fun d hd => by
        rw [hall d (mem_dedup.mp hd)]
        exact mem_singleton_self _
    exact hsub.length_le

/-- **On one device lowering keeps the order of the runs.** -/
theorem lowerRuns_single (hdev : ∀ r ∈ runs, ∀ r' ∈ runs, r.device = r'.device) :
    lowerRuns g runs = (membersOf runs).flatten := by
  rw [lowerRuns, deviceAlternatingOrder_single hdev, ← length_membersOf, arrange_range]

/-- The second run reads a node of the first. -/
def Run.Feeds (g : Graph) (r r' : Run) : Prop :=
  ∃ b ∈ r'.members, ∃ a ∈ g.inputs b, a ∈ r.members

/-- **Runs that each read the run before are taken as they come**, on any devices. -/
theorem lowerRuns_chained (h : RunList g runs) (hchain : runs.IsChain (Run.Feeds g)) :
    lowerRuns g runs = (membersOf runs).flatten := by
  obtain ⟨hperm, hsched⟩ := deviceAlternatingOrder_spec h
  rw [lowerRuns, eq_range_of_schedules hperm hsched fun i hi => ?_, arrange_range]
  rw [length_membersOf] at hi
  obtain ⟨b, hb, a, hab, ha⟩ := isChain_iff_getElem.mp hchain i hi
  have hblock : ∀ {j} (hj : j < runs.length), ((membersOf runs)[j]?).getD [] = runs[j].members :=
    fun hj => by simp [membersOf, hj]
  rw [← hblock] at hb ha
  exact mem_blockDeps.mpr ⟨by omega, b, hb, a, hab, blockOf_of_mem h.nodup ha⟩

end RunOrder

/-! ## Some of the runs of a walk -/

/-- All the nodes were resolved to one backend, or none was. -/
def SingleDevice (g : Graph) (nodes : List NodeId) : Prop :=
  ∀ a ∈ nodes, ∀ b ∈ nodes, g.targetBackends a = g.targetBackends b

section SomeRuns

variable {g : Graph} {seeds order : List NodeId} {runs : List Run}

theorem flatten_sublist_order (hruns : runs.Sublist (runsOf g order)) :
    (membersOf runs).flatten.Sublist order := by
  have hflat : (membersOf runs).flatten.Sublist (membersOf (runsOf g order)).flatten :=
    (hruns.map Run.members).flatten
  rw [flatten_runsOf] at hflat
  exact hflat.trans filter_sublist

/-- Whichever runs of a walk are kept, they are a run list. -/
theorem runList_of_sublist (htopo : IsTopoOrder g seeds order) (hsched : Schedules g.inputs order)
    (hruns : runs.Sublist (runsOf g order)) : RunList g runs := by
  have hsub := flatten_sublist_order hruns
  have hnd := htopo.nodup.sublist hsub
  refine ⟨hnd, Schedules.of_before hnd fun b hb a ha => ?_⟩
  obtain ⟨hab, hmem⟩ := mem_filter.mp ha
  have hbefore := hsched.before (hsub.subset hb) hab
  exact hbefore.of_sublist_of_mem htopo.nodup hsub (of_decide_eq_true hmem) hb

/-- Runs of a walk on one device are lowered as they come. -/
theorem lowerRuns_singleDevice (hruns : runs.Sublist (runsOf g order))
    (hdev : SingleDevice g (membersOf runs).flatten) :
    lowerRuns g runs = (membersOf runs).flatten := by
  have hentry : ∀ r ∈ runs, r.entry ∈ (membersOf runs).flatten ∧
      g.targetBackends r.entry = r.device := by
    intro r hr
    have hmem : r.entry ∈ r.members := head_mem r.nonempty
    exact ⟨mem_flatten.mpr ⟨r.members, mem_map_of_mem hr, hmem⟩,
      runsOf_device g order (hruns.subset hr) hmem⟩
  refine lowerRuns_single fun r hr r' hr' => ?_
  rw [← (hentry r hr).2, ← (hentry r' hr').2]
  exact hdev _ (hentry r hr).1 _ (hentry r' hr').1

end SomeRuns

end Fuel.IR
