import Fuel.Inference.Session
import Fuel.KvPool.BlockIndex

/-!
# The session scheduler

`SessionScheduler` of `fuel-inference/src/multi_session.rs`: sessions with a
KV cache of their own, admitted against a block pool in which each reserves
the blocks of its whole length, and advanced together by `step`.

A model is what its forwards return; the contents of a session's cache, its
context and its held plan are one value of type `K` that the forwards read and
write. A successful forward extends the cached length by its input.
-/

namespace Fuel.Inference

open Fuel Method KvPool

/-- `DecodeModel`, the allocation of a cache and the sampler. -/
structure DecodeModel (K L P : Type) where
  /-- `KvCache::with_capacity`, by the length. -/
  withCapacity : Nat → Except String K
  /-- `forward_with_kv_context_persistent`. -/
  forward : List UInt32 → K → Except String L × K
  supportsBatchedDecode : Bool
  /-- `build_batched_decode_logits`, and what it makes of the cache in each slot. -/
  batchedLogits : List (K × UInt32) → Except String (List L) × (Nat → K → K)
  sampleNext : Sampler L P

/-- `SessionState`. -/
structure SessionState (K L P : Type) extends SessionCore L P where
  cache : K
  cachedLen : Nat
  maxSeqLen : Nat

inductive SchedulePolicy where
  | roundRobin
  | batched (maxBatch : Nat)
  deriving DecidableEq, Repr

/-- The errors of `add_session`. -/
inductive AddError where
  | capacity (needed free : Nat)
  | emptyPrompt
  | zeroBudget
  | cacheAlloc (msg : String)
  | reserveFailed (e : KvAllocError)
  deriving DecidableEq, Repr

/-- `SessionScheduler`, without the model it borrows. -/
structure SessionScheduler (K L P : Type) where
  sessions : List (SessionState K L P)
  policy : SchedulePolicy
  nextId : SessionId
  kvPool : KvBlockPool
  kvHandles : AList (fun _ : SessionId => SessionHandle)

variable {K L P : Type} (model : DecodeModel K L P)

abbrev SchedM (K L P α : Type) : Type := Method AddError (SessionScheduler K L P) α

/-! ## Sessions -/

namespace SessionState

/-- `SessionState::new`. -/
def new (id : SessionId) (prompt : List UInt32)
    (strategy : SamplingStrategy) (eosIds : Option (List UInt32)) (maxNew : Nat) :
    Except AddError (SessionState K L P) :=
  if prompt = [] then .error .emptyPrompt
  else if maxNew = 0 then .error .zeroBudget
  else
    match model.withCapacity (prompt.length + maxNew) with
    | .error msg => .error (.cacheAlloc msg)
    | .ok cache =>
      .ok { SessionCore.admitted id prompt strategy eosIds maxNew with
        cache := cache, cachedLen := 0, maxSeqLen := prompt.length + maxNew }

/-- `forward_and_store`. -/
def forwardAndStore (s : SessionState K L P)
    (input : List UInt32) : Except String Unit × SessionState K L P :=
  match model.forward input s.cache with
  | (.ok logits, cache) =>
    (.ok (), { s with
      cache := cache, cachedLen := s.cachedLen + input.length, lastLogits := some logits })
  | (.error msg, cache) => (.error msg, { s with cache := cache })

/-- `finalize_advance` and `record_error_msg`, on the session. -/
def finalize (advance : Except String Unit)
    (s : SessionState K L P) : SessionState K L P × StepReport :=
  let r := s.toSessionCore.finalizeAdvance model.sampleNext advance
  ({ s with toSessionCore := r.1 }, r.2)

/-- The prefill pass of `step`, on one session: the full prompt, then the first token. -/
def prefill (model : DecodeModel K L P) (s : SessionState K L P) :
    SessionState K L P × StepReport :=
  if s.phase ≠ .prefill then (s, {})
  else
    match s.forwardAndStore model s.tokens with
    | (.ok (), s) => { s with phase := .decode }.finalize model (.ok ())
    | (.error msg, s) => s.finalize model (.error msg)

/-- `serial_advance_one`, on the session: its last token, then the next. -/
def serialAdvance (s : SessionState K L P) :
    SessionState K L P × StepReport :=
  match s.tokens.getLast? with
  | some t =>
    let r := s.forwardAndStore model [t]
    r.2.finalize model r.1
  | none =>
    s.finalize model (.error "SessionScheduler: decode advance on empty token history")

end SessionState

open SessionState

/-! ## A step -/

/-- The sessions and the report while a step is under way. -/
structure Quantum (K L P : Type) where
  sessions : List (SessionState K L P)
  report : StepReport

/-- Session `idx` is served by `f`. -/
def Quantum.visit (f : SessionState K L P → SessionState K L P × StepReport)
    (q : Quantum K L P) (idx : Nat) : Quantum K L P :=
  match q.sessions[idx]? with
  | none => q
  | some s => ⟨q.sessions.set idx (f s).1, q.report.append (f s).2⟩

/-- The sessions of a list are served one after the other. -/
def Quantum.visitAll (q : Quantum K L P)
    (visits : List (Nat × (SessionState K L P → SessionState K L P × StepReport))) :
    Quantum K L P :=
  visits.foldl (fun q v => q.visit v.2 v.1) q

/-- The gate of `batch_uniform`: at least two sessions, equally far. All share the layers
and the dtype of the scheduler. -/
def batchUniform (sessions : List (SessionState K L P)) : Bool :=
  match sessions with
  | [] => false
  | s :: rest => !rest.isEmpty &&
      rest.all fun t => t.cachedLen == s.cachedLen && t.maxSeqLen == s.maxSeqLen

/-- `BatchOutcome`, with what the attempt made of the caches. -/
inductive BatchOutcome (K L : Type) where
  | advanced (rows : List L) (write : Nat → K → K)
  | notBatchable
  | failed (msg : String) (write : Nat → K → K)

/-- `try_batched_step`. -/
def tryBatchedStep (sessions : List (SessionState K L P)) :
    BatchOutcome K L :=
  if batchUniform sessions then
    match sessions.mapM fun s => s.tokens.getLast? with
    | none =>
      .failed "BatchedDecode::try_batched_step: a session has no last token" fun _ cache => cache
    | some lastTokens =>
      match model.batchedLogits ((sessions.map cache).zip lastTokens) with
      | (.ok rows, write) => .advanced rows write
      | (.error msg, write) => .failed msg write
  else .notBatchable

namespace SessionState

/-- A member of a batch that ran: its cache is one token longer, its row is sampled. -/
def batchAdvance (write : K → K) (row : L)
    (s : SessionState K L P) : SessionState K L P × StepReport :=
  { s with
    cache := write s.cache
    cachedLen := s.cachedLen + 1
    lastLogits := some row }.finalize model (.ok ())

/-- A member of a batch that ran and returned the wrong number of rows. -/
def batchMalformed (write : K → K) (msg : String)
    (s : SessionState K L P) : SessionState K L P × StepReport :=
  { s with cache := write s.cache, cachedLen := s.cachedLen + 1 }.finalize model (.error msg)

/-- A member of a batch that failed. -/
def batchFailed (write : K → K) (msg : String)
    (s : SessionState K L P) : SessionState K L P × StepReport :=
  { s with cache := write s.cache }.finalize model (.error msg)

end SessionState

/-- What a scheduler does to a session when it is that session's turn. -/
abbrev Visit (K L P : Type) : Type :=
  Nat × (SessionState K L P → SessionState K L P × StepReport)

/-- The visits to a batch the batched arm has consumed, each member's logits stored and
sampled; none if it falls through to the serial arm. -/
def batchVisits (batch : List Nat) (outcome : BatchOutcome K L) :
    Option (List (Visit K L P)) :=
  match outcome with
  | .notBatchable => none
  | .failed msg write =>
    some <| batch.mapIdx fun slot idx => (idx, batchFailed model (write slot) msg)
  | .advanced rows write =>
    if rows.length = batch.length then
      some <| (batch.zip rows).mapIdx fun slot e =>
        (e.1, batchAdvance model (write slot) e.2)
    else
      some <| batch.mapIdx fun slot idx => (idx, batchMalformed model (write slot)
        s!"BatchedDecode: Advanced returned {rows.length} rows for {batch.length} sessions")

/-- The live arm advanced the batch. -/
def BatchOutcome.ran (outcome : BatchOutcome K L) (batch : List Nat) : Bool :=
  match outcome with
  | .advanced rows _ => rows.length == batch.length
  | _ => false

/-- `serial_advance_one` for each of `idxs`. -/
def serialVisits (idxs : List Nat) : List (Visit K L P) :=
  idxs.map fun idx => (idx, serialAdvance model)

/-- The attempt of `advance_batched`: only two sessions or more, and only if the model can. -/
def batchAttempt (batch : List Nat) (q : Quantum K L P) :
    BatchOutcome K L :=
  if 2 ≤ batch.length ∧ model.supportsBatchedDecode = true then
    tryBatchedStep model (batch.filterMap fun idx => q.sessions[idx]?)
  else .notBatchable

/-- `advance_batched`. -/
def advanceBatched (ready : List Nat) (maxBatch : Nat)
    (q : Quantum K L P) : Quantum K L P :=
  let batch := ready.take maxBatch
  let outcome := batchAttempt model batch q
  let first := (batchVisits model batch outcome).getD (serialVisits model batch)
  let report := q.report.append { usedBatchedArm := outcome.ran batch }
  { q with report := report }.visitAll (first ++ serialVisits model (ready.drop maxBatch))

/-- `step`, on the sessions. -/
def stepQuantum (policy : SchedulePolicy)
    (sessions : List (SessionState K L P)) : Quantum K L P :=
  let q := Quantum.visitAll ⟨sessions, {}⟩
    ((List.range sessions.length).map fun idx => (idx, prefill model))
  let ready := (List.range q.sessions.length).filter fun idx =>
    (q.sessions[idx]?).any fun s => s.phase = .decode
  match policy with
  | .roundRobin => q.visitAll (serialVisits model ready)
  | .batched maxBatch => advanceBatched model ready maxBatch q

/-! ## The scheduler -/

namespace SessionScheduler

/-- `new`; the head geometry of the model is in `geom`. -/
def new (policy : SchedulePolicy) (geom : KvGeometry) : SessionScheduler K L P where
  sessions := []
  policy := policy
  nextId := 0
  kvPool := .new geom
  kvHandles := ∅

/-- `kv_free_blocks`. -/
def kvFreeBlocks (s : SessionScheduler K L P) : Nat := s.kvPool.freeBlocks

/-- A call on the pool. -/
def onPool {α : Type} (m : PoolM α) : SchedM K L P α := fun s =>
  match m s.kvPool with
  | .ok a pool => .ok a { s with kvPool := pool }
  | .err e pool => .err (.reserveFailed e) { s with kvPool := pool }
  | .abort why => .abort why

/-- `kv_blocks_required`. -/
def kvBlocksRequired (promptLen maxNew : Nat) : SchedM K L P Nat := do
  let n ← addUsizeIn .debug promptLen maxNew
  onPool (blocksRequired .debug 0 n)

/-- `SessionState::new(..)?`. -/
def buildState (id : SessionId) (prompt : List UInt32)
    (strategy : SamplingStrategy) (eosIds : Option (List UInt32)) (maxNew : Nat) :
    SchedM K L P (SessionState K L P) :=
  match SessionState.new model id prompt strategy eosIds maxNew with
  | .ok state => pure state
  | .error e => fail e

/-- `add_session`. -/
def addSession (prompt : List UInt32) (strategy : SamplingStrategy)
    (eosIds : Option (List UInt32)) (maxNew : Nat) : SchedM K L P SessionId := do
  let needed ← kvBlocksRequired prompt.length maxNew
  let s ← get
  let free := s.kvPool.freeBlocks
  if needed > free then fail (.capacity needed free)
  else do
    let id := s.nextId
    let state ← buildState model id prompt strategy eosIds maxNew
    let handle ← onPool openSession
    onPool (append .debug handle (prompt.length + maxNew))
    let s ← get
    set { s with
      kvHandles := s.kvHandles.insert id handle
      nextId := s.nextId + 1
      sessions := s.sessions ++ [state] }
    pure id

/-- `step`. -/
def step (s : SessionScheduler K L P) :
    SessionScheduler K L P × StepReport :=
  let q := stepQuantum model s.policy s.sessions
  ({ s with sessions := q.sessions }, q.report)

/-- The loop body of `reap_finished` for a finished session. -/
def reapOne (id : SessionId) : SchedM K L P Unit := do
  let s ← get
  match s.kvHandles.lookup id with
  | some h => do
    set { s with kvHandles := s.kvHandles.erase id }
    onPool (discard .debug h)
  | none => pure ()

/-- `reap_finished`. -/
def reapFinished : SchedM K L P (List (SessionId × List UInt32)) := do
  let s ← get
  let done := s.sessions.filter fun s => s.phase = .finished
  forM done fun s => reapOne s.id
  let s ← get
  set { s with sessions := s.sessions.filter fun s => s.phase ≠ .finished }
  pure (done.map fun s => (s.id, s.tokens))

end SessionScheduler

end Fuel.Inference
