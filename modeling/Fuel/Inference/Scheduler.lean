import Fuel.Lib.AssocMap
import Mathlib.Tactic

/-!
# The memory-aware scheduler

`fuel-inference/src/scheduler.rs`: requests compete for a byte budget. A
request is admitted into a slot or put into the wait queue, and `drainQueue`
tries the queued ones again.

Byte counts and the submission counter are 64-bit words with the wrapping
arithmetic of a release build. The pressure test compares two doubles; every
operation takes it as a function of the used bytes and the budget.
-/

namespace Fuel.Inference

open Fuel.AssocMap

inductive Priority where
  | low | normal | high | critical
  deriving DecidableEq, Repr

def Priority.rank : Priority → Nat
  | .low => 0
  | .normal => 1
  | .high => 2
  | .critical => 3

structure RequestInfo where
  id : String
  estimatedBytes : UInt64
  priority : Priority
  submissionOrder : UInt64 := 0
  deriving DecidableEq, Repr

/-- `RequestInfo::cmp` read as "the heap hands `a` out no later than `b`". -/
def RequestInfo.before (a b : RequestInfo) : Bool :=
  decide (b.priority.rank < a.priority.rank) ||
    decide (a.priority.rank = b.priority.rank) && decide (a.submissionOrder ≤ b.submissionOrder)

structure SlotHandle where
  id : String
  reservedBytes : UInt64
  deriving DecidableEq, Repr

/-- The scheduler. The heap is kept as the list of its requests. -/
structure MemoryScheduler where
  totalBudget : UInt64
  used : UInt64
  active : AList (fun _ : String => UInt64)
  waitQueue : List RequestInfo
  nextOrder : UInt64

/-- `usage_fraction() >= pressure_threshold`, by used bytes and budget. -/
abbrev Pressure := UInt64 → UInt64 → Bool

/-- `usize::saturating_sub`. -/
def saturatingSub (a b : UInt64) : UInt64 := if a < b then 0 else a - b

namespace MemoryScheduler

def new (totalBudget : UInt64) : MemoryScheduler := ⟨totalBudget, 0, ∅, [], 0⟩

/-- Whether a request passes the pressure gate and the budget test. -/
def admits (p : Pressure) (s : MemoryScheduler) (req : RequestInfo) : Bool :=
  !(p s.used s.totalBudget && decide (req.priority.rank < Priority.high.rank)) &&
    decide (s.used + req.estimatedBytes ≤ s.totalBudget)

/-- A slot is opened for the request; an active slot with its id is overwritten. -/
def openSlot (s : MemoryScheduler) (req : RequestInfo) : MemoryScheduler :=
  { s with used := s.used + req.estimatedBytes, active := s.active.insert req.id req.estimatedBytes }

def enqueue (s : MemoryScheduler) (req : RequestInfo) : MemoryScheduler :=
  { s with waitQueue := req :: s.waitQueue }

/-- `try_admit`. -/
def tryAdmit (p : Pressure) (s : MemoryScheduler) (req : RequestInfo) :
    MemoryScheduler × Option SlotHandle :=
  let req := { req with submissionOrder := s.nextOrder }
  let s := { s with nextOrder := s.nextOrder + 1 }
  if s.admits p req then (s.openSlot req, some ⟨req.id, req.estimatedBytes⟩)
  else (s.enqueue req, none)

/-- `release`. -/
def release (s : MemoryScheduler) (id : String) : MemoryScheduler × Bool :=
  match s.active.lookup id with
  | some bytes =>
    ({ s with active := s.active.erase id, used := saturatingSub s.used bytes }, true)
  | none => (s, false)

/-- One turn of the drain: the popped request is admitted or goes to the new queue. -/
def drainTurn (p : Pressure) (d : MemoryScheduler × List SlotHandle) (req : RequestInfo) :
    MemoryScheduler × List SlotHandle :=
  if d.1.admits p req then (d.1.openSlot req, d.2 ++ [⟨req.id, req.estimatedBytes⟩])
  else (d.1.enqueue req, d.2)

/-- `drain_queue`. The loop pops the old heap until it is empty, so the requests
come in the heap's order; what is not admitted makes up the new heap. -/
def drainQueue (p : Pressure) (s : MemoryScheduler) : MemoryScheduler × List SlotHandle :=
  (s.waitQueue.mergeSort RequestInfo.before).foldl (drainTurn p) ({ s with waitQueue := [] }, [])

/-- `update_usage`. -/
def updateUsage (s : MemoryScheduler) (id : String) (newBytes : UInt64) : MemoryScheduler × Bool :=
  match s.active.lookup id with
  | some old =>
    let newUsed := s.used - old + newBytes
    if newUsed > s.totalBudget then (s, false)
    else ({ s with used := newUsed, active := s.active.insert id newBytes }, true)
  | none => (s, false)

end MemoryScheduler

/-! ## Runs -/

/-- The four operations that change a scheduler. -/
inductive Call where
  | tryAdmit (req : RequestInfo)
  | drainQueue
  | release (id : String)
  | updateUsage (id : String) (newBytes : UInt64)

/-- The scheduler after a call. -/
def Call.exec (p : Pressure) (s : MemoryScheduler) : Call → MemoryScheduler
  | .tryAdmit req => (s.tryAdmit p req).1
  | .drainQueue => (s.drainQueue p).1
  | .release id => (s.release id).1
  | .updateUsage id newBytes => (s.updateUsage id newBytes).1

/-- `s'` is reached from `s` by calls that are `allowed` where they are made. -/
inductive Reaches (p : Pressure) (allowed : MemoryScheduler → Call → Prop) :
    MemoryScheduler → MemoryScheduler → Prop
  | refl {s : MemoryScheduler} : Reaches p allowed s s
  | step {s s' : MemoryScheduler} (c : Call) (hs : Reaches p allowed s s') (hc : allowed s' c) :
      Reaches p allowed s (c.exec p s')

/-- An invariant of allowed calls holds in every state they reach. -/
theorem Reaches.invariant {p : Pressure} {allowed : MemoryScheduler → Call → Prop}
    {I : MemoryScheduler → Prop} (hstep : ∀ s c, I s → allowed s c → I (c.exec p s))
    {s s' : MemoryScheduler} (h : Reaches p allowed s s') (hs : I s) : I s' := by
  induction h with
  | refl => exact hs
  | step c _ hc ih => exact hstep _ c ih hc

end Fuel.Inference
