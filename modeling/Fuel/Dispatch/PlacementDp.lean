import Fuel.IR.Op
import Fuel.Lib.Saturating

/-!
# The placement table

`PlacementDp` carries accumulated costs along a topological walk: a row per node,
with one arrival per candidate device that holds the lowest cost of getting there
and the device chosen for each producer. Devices are committed when a row's
consumer is decided, or at the end, by following the choices back.

An arrival groups the entries that the source keeps at one position of `devices`,
`best` and `back`. `none` stands for an index out of bounds. The aliases of view
nodes are left out: the callers resolve them before they name a row.
-/

namespace Fuel.Dispatch

open Fuel.IR

structure TransferEstimator where
  estimateTransferNs : DeviceLocation → DeviceLocation → UInt64 → UInt64

/-- A price with the transfer of some edges' bytes added. -/
def TransferEstimator.charge (est : TransferEstimator) (src dst : DeviceLocation) (t : UInt64)
    (edgeBytes : List UInt64) : UInt64 :=
  edgeBytes.foldl (fun t b => saturatingAdd t (est.estimateTransferNs src dst b)) t

structure ChainInput where
  producer : NodeId
  edgeBytes : List UInt64
  deriving DecidableEq, Repr

inductive RowStatus where
  | opened | chained | committed
  deriving DecidableEq, Repr

/-- Nodes with the devices decided for them. -/
abbrev Commits := List (NodeId × DeviceLocation)

/-- The state of a row for one of its devices. -/
structure Arrival where
  device : DeviceLocation
  best : UInt64
  back : Commits
  deriving DecidableEq, Repr

structure DpRow where
  node : NodeId
  arrivals : List Arrival
  status : RowStatus
  committed : Option DeviceLocation
  deriving DecidableEq, Repr

/-- The cheapest arrival under a price; the first one wins a tie. -/
def DpRow.cheapest (row : DpRow) (price : Arrival → UInt64) : Option (Arrival × UInt64) :=
  firstMin price row.arrivals

structure PlacementDp where
  rows : List DpRow
  byNode : List (NodeId × Nat)
  deriving DecidableEq, Repr

namespace PlacementDp

def new : PlacementDp := ⟨[], []⟩

def isOpen (dp : PlacementDp) (id : NodeId) : Bool :=
  ((dp.byNode.lookup id).bind (dp.rows[·]?)).any fun r => r.status = .opened

def committedDevice (dp : PlacementDp) (id : NodeId) : Option DeviceLocation :=
  ((dp.byNode.lookup id).bind (dp.rows[·]?)).bind (·.committed)

/-! ## A new row -/

/-- One chain input of an arrival on `d`: the cheapest way from its producer. -/
def extend (dp : PlacementDp) (est : TransferEstimator) (d : DeviceLocation)
    (s : UInt64 × Commits) (ci : ChainInput) :
    Option (UInt64 × Commits) :=
  match dp.byNode.lookup ci.producer with
  | none => some s
  | some pIdx => do
    let p ← dp.rows[pIdx]?
    match p.cheapest fun a => est.charge a.device d a.best ci.edgeBytes with
    | none => some s
    | some (a, c) => some (saturatingAdd s.1 c, s.2 ++ [(ci.producer, a.device)])

/-- The arrival on one of the new row's devices. -/
def arrive (dp : PlacementDp) (est : TransferEstimator)
    (fixedInputs : List (DeviceLocation × UInt64)) (chainInputs : List ChainInput)
    (deviceCost : DeviceLocation × UInt64) : Option Arrival := do
  let acc := fixedInputs.foldl
    (fun acc f => saturatingAdd acc (est.estimateTransferNs f.1 deviceCost.1 f.2)) deviceCost.2
  let (best, back) ← chainInputs.foldlM (dp.extend est deviceCost.1) (acc, [])
  some ⟨deviceCost.1, best, back⟩

/-- A consumed producer leaves the frontier. -/
def markChained (byNode : List (NodeId × Nat)) (rows : List DpRow) (ci : ChainInput) :
    Option (List DpRow) :=
  match byNode.lookup ci.producer with
  | none => some rows
  | some pIdx => do
    let p ← rows[pIdx]?
    some (if p.status = .opened then rows.set pIdx { p with status := .chained } else rows)

def pushRow (dp : PlacementDp) (node : NodeId) (deviceCosts fixedInputs : List (DeviceLocation × UInt64))
    (chainInputs : List ChainInput) (est : TransferEstimator) : Option PlacementDp := do
  let arrivals ← deviceCosts.mapM (dp.arrive est fixedInputs chainInputs)
  let rows ← chainInputs.foldlM (markChained dp.byNode) dp.rows
  some {
    rows := rows ++ [⟨node, arrivals, .opened, none⟩]
    byNode := (node, rows.length) :: dp.byNode }

/-! ## Committing -/

/-- The rows without a device. -/
def undecided (rows : List DpRow) : Nat := rows.countP fun r => r.status ≠ .committed

theorem undecided_set {rows : List DpRow} {i : Nat} {row row' : DpRow} (hrow : rows[i]? = some row)
    (hne : row.status ≠ .committed) (hrow' : row'.status = .committed) :
    undecided (rows.set i row') < undecided rows := by
  obtain ⟨hi, rfl⟩ := List.getElem?_eq_some_iff.mp hrow
  have hpos : 0 < undecided rows :=
    List.countP_pos_iff.mpr ⟨rows[i], List.getElem_mem hi, by simpa using hne⟩
  unfold undecided at hpos ⊢
  rw [List.countP_set hi, if_pos (by simpa using hne), if_neg (by simp [hrow'])]
  omega

set_option linter.unusedVariables false in
/-- The loop of `commit_row`, with the top of the stack in front. -/
def commitLoop (byNode : List (NodeId × Nat)) (rows : List DpRow)
    (stack : List (Nat × DeviceLocation)) (out : Commits) :
    Option (List DpRow × Commits) :=
  match stack with
  | [] => some (rows, out)
  | (idx, dev) :: stack =>
    match hrow : rows[idx]? with
    | none => none
    | some row =>
      if hdone : row.status = .committed then commitLoop byNode rows stack out
      else
        match row.arrivals.find? fun a => a.device = dev with
        | none =>
          commitLoop byNode (rows.set idx { row with status := .committed, committed := some dev })
            stack (out ++ [(row.node, dev)])
        | some a =>
          commitLoop byNode (rows.set idx { row with status := .committed, committed := some dev })
            ((a.back.filterMap fun e => (byNode.lookup e.1).map fun i => (i, e.2)).reverse ++ stack)
            (out ++ [(row.node, dev)])
termination_by (undecided rows, stack.length)
decreasing_by
  · exact Prod.Lex.right _ (Nat.lt_succ_self _)
  · exact Prod.Lex.left _ _ (undecided_set hrow hdone rfl)
  · exact Prod.Lex.left _ _ (undecided_set hrow hdone rfl)

/-- A turn of the loop that commits a row and follows one of its arrivals. -/
theorem commitLoop_visit {byNode : List (NodeId × Nat)} {rows : List DpRow}
    {stack : List (Nat × DeviceLocation)} {out : Commits} {idx : Nat}
    {dev : DeviceLocation} {row : DpRow} {a : Arrival} (hrow : rows[idx]? = some row)
    (hdone : row.status ≠ .committed)
    (hfind : (row.arrivals.find? fun a => a.device = dev) = some a) :
    commitLoop byNode rows ((idx, dev) :: stack) out =
      commitLoop byNode (rows.set idx { row with status := .committed, committed := some dev })
        ((a.back.filterMap fun e => (byNode.lookup e.1).map fun i => (i, e.2)).reverse ++ stack)
        (out ++ [(row.node, dev)]) := by
  rw [commitLoop]
  split
  · rename_i hnone
    rw [hrow] at hnone
    cases hnone
  · rename_i row' hrow'
    obtain rfl : row = row' := Option.mem_unique hrow hrow'
    rw [dif_neg hdone]
    simp only [hfind]

def commitRow (dp : PlacementDp) (start : Nat) (device : DeviceLocation)
    (out : Commits) :
    Option (PlacementDp × Commits) := do
  let (rows, out) ← commitLoop dp.byNode dp.rows [(start, device)] out
  some ({ dp with rows := rows }, out)

/-- Commit a row at the cheapest of its arrivals under a price. -/
def settle (dp : PlacementDp) (idx : Nat) (row : DpRow) (price : Arrival → UInt64)
    (out : Commits) :
    Option (PlacementDp × Commits) :=
  match row.cheapest price with
  | none => some (dp, out)
  | some (a, _) => dp.commitRow idx a.device out

def closeToward (dp : PlacementDp) (rowNode : NodeId) (consumerDevice : DeviceLocation)
    (edgeBytes : List UInt64) (est : TransferEstimator) :
    Option (PlacementDp × Commits) :=
  match dp.byNode.lookup rowNode with
  | none => some (dp, [])
  | some idx => do
    let row ← dp.rows[idx]?
    if row.status ≠ .opened then some (dp, [])
    else dp.settle idx row (fun a => est.charge a.device consumerDevice a.best edgeBytes) []

/-- The price of an arrival with the crossing to the place where the result is wanted. -/
def exitPrice (exitLoc : Option DeviceLocation) (exitBytes : NodeId → UInt64)
    (est : TransferEstimator) (node : NodeId) (a : Arrival) : UInt64 :=
  match exitLoc with
  | none => a.best
  | some loc => saturatingAdd a.best (est.estimateTransferNs a.device loc (exitBytes node))

/-- One turn of the first loop of `finish`. -/
def finishOpen (exitLoc : Option DeviceLocation) (exitBytes : NodeId → UInt64)
    (est : TransferEstimator) (s : PlacementDp × Commits) (idx : Nat) :
    Option (PlacementDp × Commits) := do
  let row ← s.1.rows[idx]?
  if row.status ≠ .opened then some s
  else s.1.settle idx row (exitPrice exitLoc exitBytes est row.node) s.2

/-- One turn of the second loop of `finish`. -/
def finishMissed (s : PlacementDp × Commits) (idx : Nat) :
    Option (PlacementDp × Commits) := do
  let row ← s.1.rows[idx]?
  if row.status = .committed then some s
  else s.1.settle idx row (·.best) s.2

def finish (dp : PlacementDp) (exitLoc : Option DeviceLocation) (exitBytes : NodeId → UInt64)
    (est : TransferEstimator) : Option (PlacementDp × Commits) := do
  let s ← (List.range dp.rows.length).foldlM (finishOpen exitLoc exitBytes est) (dp, [])
  (List.range s.1.rows.length).foldlM finishMissed s

end PlacementDp

end Fuel.Dispatch
