import Fuel.Inference.PagedForward
import Mathlib.Data.List.Dedup

/-!
# The paged session scheduler

`PagedSessionScheduler` of `fuel-inference/src/multi_session.rs`: sessions
whose K and V rows live in the blocks of one device pool, advanced a token at
a time, alone or in batches of equal position, suspended and resumed, and
admitted on top of a registered prefix.

The held plan of a session, the captured logits, the logprobs and the lifetime
counters are left out: what a forward computes does not depend on the first,
and nothing here reads the others.
-/

namespace Fuel.Inference

open Fuel Method KvPool DeviceKvPool

/-- `PagedSchedulePolicy`. -/
inductive PagedSchedulePolicy where
  | admissionOrder
  | priority
  deriving DecidableEq, Repr

/-- `PagedSession`. -/
structure PagedSession (V L P : Type) extends SessionCore L P where
  handle : SessionHandle
  suspended : Option (DeviceEvicted V)
  maxBlocksCap : Nat
  prefillStart : Nat
  priority : Int

/-- `PagedSessionScheduler`, without the model it borrows. -/
structure PagedSessionScheduler (V L P : Type) where
  pool : DeviceKvPool V
  sessions : List (PagedSession V L P)
  nextId : SessionId
  plan : PagedDecodePlan
  policy : PagedSchedulePolicy

/-- The errors of the scheduler's calls. -/
inductive PagedError where
  | emptyPrompt
  | zeroBudget
  | badParams (msg : String)
  | unknownSession (id : SessionId)
  | isFinished (id : SessionId)
  | notSuspended (id : SessionId)
  | needsBlocks (need free : Nat) (id : SessionId)
  | promptTooShort (promptLen sharedTokens : Nat)
  | pool (e : DeviceError)
  deriving DecidableEq, Repr

variable {V L P : Type} (m : PagedDecodeModel V L P)

abbrev PagedM (V L P α : Type) : Type := Method PagedError (PagedSessionScheduler V L P) α

namespace PagedSessionScheduler

/-- `PagedSessionScheduler::new`. -/
def new (geom : KvGeometry) (zero : V) : PagedSessionScheduler V L P where
  pool := .new geom zero
  sessions := []
  nextId := 0
  plan := .planOnce
  policy := .admissionOrder

/-- A call on the pool. -/
def onPool {α : Type} (call : DeviceM V α) : PagedM V L P α := fun sched =>
  match call sched.pool with
  | .ok a pool => .ok a { sched with pool := pool }
  | .err e pool => .err (.pool e) { sched with pool := pool }
  | .abort why => .abort why

/-- `self.sessions[idx] = s`. -/
def setSession (sched : PagedSessionScheduler V L P) (idx : Nat) (s : PagedSession V L P) :
    PagedSessionScheduler V L P :=
  { sched with sessions := sched.sessions.set idx s }

/-- The first session with the id, and its index. -/
def position (sched : PagedSessionScheduler V L P) (id : SessionId) :
    Option (Nat × PagedSession V L P) :=
  match sched.sessions.findIdx? fun s => s.id == id with
  | none => none
  | some idx => (sched.sessions[idx]?).map fun s => (idx, s)

/-- `let idx = self.sessions.iter().position(..)?`, with the session there. -/
def locate (id : SessionId) : PagedM V L P (Nat × PagedSession V L P) := do
  let sched ← get
  okOr (sched.position id) (.unknownSession id)

/-! ## Admission -/

/-- The end of both admissions: the session that is pushed. -/
def admitSession (handle : SessionHandle) (prompt : List UInt32) (strategy : SamplingStrategy)
    (eosIds : Option (List UInt32)) (maxNew prefillStart : Nat) : PagedM V L P SessionId := do
  let sched ← get
  let total ← addUsizeIn .debug prompt.length maxNew
  let blocks ← divCeil total sched.pool.core.geom.blockSize
  set { sched with
    sessions := sched.sessions ++
      [{ SessionCore.admitted sched.nextId prompt strategy eosIds maxNew with
        handle := handle, suspended := none, maxBlocksCap := max blocks 1,
        prefillStart := prefillStart, priority := 0 }]
    nextId := sched.nextId + 1 }
  pure sched.nextId

/-- `add_session`. -/
def addSession (prompt : List UInt32) (strategy : SamplingStrategy)
    (eosIds : Option (List UInt32)) (maxNew : Nat) : PagedM V L P SessionId :=
  if prompt = [] then fail .emptyPrompt
  else if maxNew = 0 then fail .zeroBudget
  else do
    let handle ← onPool (onCore openSession)
    admitSession handle prompt strategy eosIds maxNew 0

/-- `add_session_sharing_prefix`: a splice or a check that fails discards the new handle. -/
def addSessionSharingPrefix (id : PrefixId) (prompt : List UInt32) (strategy : SamplingStrategy)
    (eosIds : Option (List UInt32)) (maxNew : Nat) : PagedM V L P SessionId :=
  if prompt = [] then fail .emptyPrompt
  else if maxNew = 0 then fail .zeroBudget
  else do
    let handle ← onPool (onCore openSession)
    match (← attempt (onPool (onCore (splicePrefixFrom .debug id handle)))) with
    | .error e => do
      onPool (onCore (discard .debug handle))
      fail e
    | .ok sharedTokens =>
      if prompt.length ≤ sharedTokens then do
        onPool (onCore (discard .debug handle))
        fail (.promptTooShort prompt.length sharedTokens)
      else admitSession handle prompt strategy eosIds maxNew sharedTokens

/-- The last session gets the full sampling controls. -/
def setLastParams (params : P) (sched : PagedSessionScheduler V L P) :
    PagedSessionScheduler V L P :=
  match sched.sessions.getLast? with
  | none => sched
  | some s =>
    { sched with
      sessions := sched.sessions.dropLast ++
        [{ s with rngState := m.seed params, params := some params }] }

/-- `add_session_with_params` and `add_session_sharing_prefix_with_params`: the parameters are
checked first, and stored with the admitted session. -/
def withParams (params : P)
    (admission : SamplingStrategy → PagedM V L P SessionId) : PagedM V L P SessionId :=
  match m.admitParams params with
  | .error msg => fail (.badParams msg)
  | .ok strategy => do
    let id ← admission strategy
    let sched ← get
    set (sched.setLastParams m params)
    pure id

/-! ## Prefixes -/

/-- `register_prefix`. -/
def registerPrefix (donor : SessionId) (prefixBlocks : Nat) : PagedM V L P PrefixId := do
  let (_, s) ← locate donor
  onPool (onCore (KvPool.registerPrefix .debug s.handle prefixBlocks))

/-- `release_prefix`. -/
def releasePrefix (id : PrefixId) : PagedM V L P Unit :=
  onPool (onCore (KvPool.releasePrefix .debug id))

/-! ## Evict and restore -/

/-- `evict_session`. -/
def evictSession (id : SessionId) : PagedM V L P Unit := do
  let (idx, s) ← locate id
  if s.suspended.isSome then pure ()
  else if s.phase = .finished then fail (.isFinished id)
  else do
    let evicted ← onPool (evict s.handle)
    let sched ← get
    set (sched.setSession idx { s with suspended := some evicted })

/-- `restore_session`; `fault` says which of its writes the device refuses. -/
def restoreSession (fault : PhysBlockId → Option String) (id : SessionId) : PagedM V L P Unit := do
  let (idx, s) ← locate id
  match s.suspended with
  | none => fail (.notSuspended id)
  | some evicted => do
    let sched ← get
    let free := sched.pool.core.freeBlocks
    if evicted.saved.length > free then fail (.needsBlocks evicted.saved.length free id)
    else do
      set (sched.setSession idx { s with suspended := none })
      onPool (restore fault s.handle evicted)

/-! ## Settings -/

/-- `set_policy`. -/
def setPolicy (policy : PagedSchedulePolicy) : PagedM V L P Unit := do
  let sched ← get
  set { sched with policy := policy }

/-- `set_plan`. -/
def setPlan (plan : PagedDecodePlan) : PagedM V L P Unit := do
  let sched ← get
  set { sched with plan := plan }

/-- `set_priority`. -/
def setPriority (id : SessionId) (priority : Int) : PagedM V L P Unit := do
  let (idx, s) ← locate id
  let sched ← get
  set (sched.setSession idx { s with priority := priority })

/-! ## The order of a quantum -/

/-- `self.sessions[i].priority`. -/
def priorityAt (sched : PagedSessionScheduler V L P) (i : Nat) : Int :=
  (sched.sessions[i]?.map PagedSession.priority).getD 0

/-- `in_policy_order`: a stable sort. -/
def inPolicyOrder (sched : PagedSessionScheduler V L P) (idxs : List Nat) : List Nat :=
  match sched.policy with
  | .admissionOrder => idxs
  | .priority => idxs.mergeSort fun i j => sched.priorityAt j ≤ sched.priorityAt i

/-- The sessions in a phase that are not suspended, in policy order. -/
def readyIn (sched : PagedSessionScheduler V L P) (phase : SessionPhase) : List Nat :=
  sched.inPolicyOrder <| (List.range sched.sessions.length).filter fun i =>
    (sched.sessions[i]?).any fun s => s.phase = phase && s.suspended.isNone

/-- `collect_decode_ready`. -/
def collectDecodeReady (sched : PagedSessionScheduler V L P) : List Nat := sched.readyIn .decode

/-- The key a ready session is grouped by. -/
def positionKey (sched : PagedSessionScheduler V L P) (i : Nat) : Nat :=
  ((sched.sessions[i]?).bind fun s => sched.pool.core.filledTokens s.handle).getD (2 ^ 64 - 1)

/-- The groups of equal position, in the order `step_batched` serves them. -/
def groups (sched : PagedSessionScheduler V L P) (ready : List Nat) : List (List Nat) :=
  let keys := ((ready.map sched.positionKey).mergeSort fun a b => a ≤ b).dedup
  let byPos := keys.map fun k => ready.filter fun i => sched.positionKey i = k
  match sched.policy with
  | .admissionOrder => byPos
  | .priority => byPos.mergeSort fun g h =>
      sched.priorityAt (h.headD 0) ≤ sched.priorityAt (g.headD 0)

end PagedSessionScheduler

/-- `slice::chunks`: pieces of `n` elements, the last one maybe shorter. -/
def chunks {α : Type} (n : Nat) : Nat → List α → List (List α)
  | 0, _ => []
  | _ + 1, [] => []
  | fuel + 1, a :: l => (a :: l).take n :: chunks n fuel ((a :: l).drop n)

/-! ## A quantum -/

/-- The scheduler and the report while a step is under way. -/
structure PagedQuantum (V L P : Type) where
  sched : PagedSessionScheduler V L P
  report : StepReport

/-- The sampler of `sample`: its error has a label. -/
def PagedDecodeModel.labelled : Sampler L P :=
  fun strategy params logits tokens rng =>
    match m.sampleNext strategy params logits tokens rng with
    | (.ok next, rng) => (.ok next, rng)
    | (.error e, rng) => (.error ("sampling failed: " ++ e), rng)

namespace PagedQuantum

/-- Session `idx` is replaced, and what happened to it reported. -/
def replace (q : PagedQuantum V L P) (idx : Nat) (s : PagedSession V L P)
    (r : SessionCore L P × StepReport) : PagedQuantum V L P where
  sched := q.sched.setSession idx { s with toSessionCore := r.1 }
  report := q.report.append r.2

/-- What `sample` does to a session whose pending logits were just stored. -/
def sampled (logits : Option L) (s : SessionCore L P) :
    SessionCore L P × StepReport :=
  { s with lastLogits := logits }.finalizeAdvance m.labelled (.ok ())

/-- `sample`, with the session's pending logits stored first. -/
def sample (q : PagedQuantum V L P) (idx : Nat)
    (s : PagedSession V L P) (logits : Option L) : PagedQuantum V L P :=
  q.replace idx s (sampled m logits s.toSessionCore)

/-- `finish_error`. -/
def finishError (q : PagedQuantum V L P) (idx : Nat) (s : PagedSession V L P) (msg : String) :
    PagedQuantum V L P :=
  q.replace idx s (s.toSessionCore.finishError msg)

def withPool (q : PagedQuantum V L P) (pool : DeviceKvPool V) : PagedQuantum V L P :=
  { q with sched := { q.sched with pool := pool } }

/-- The prompt, one token at a time; the logits of the last one. -/
def feedPrompt (m : PagedDecodeModel V L P) (plan : PagedDecodePlan) (cap : Nat)
    (handle : SessionHandle) : List UInt32 → Option L → ForwardM V (Option L)
  | [], last => pure last
  | token :: rest, _ => do
    let logits ← forwardPagedStepPersistent m token handle cap plan
    feedPrompt m plan cap handle rest (some logits)

/-- The loop body of `prefill_pass`. -/
def prefill (q : PagedQuantum V L P) (idx : Nat) :
    Option (PagedQuantum V L P) :=
  match q.sched.sessions[idx]? with
  | none => none
  | some s =>
    match feedPrompt m q.sched.plan s.maxBlocksCap s.handle
        (s.tokens.drop (min s.prefillStart s.tokens.length)) none q.sched.pool with
    | .ok logits pool => some ((q.withPool pool).sample m idx { s with phase := .decode } logits)
    | .err e pool => some ((q.withPool pool).finishError idx s (m.describe e))
    | .abort _ => none

/-- `decode_one`. -/
def decodeOne (q : PagedQuantum V L P) (idx : Nat) :
    Option (PagedQuantum V L P) :=
  match q.sched.sessions[idx]? with
  | none => none
  | some s =>
    match s.tokens.getLast? with
    | none => some (q.finishError idx s "PagedSessionScheduler: decode on empty token history")
    | some token =>
      match forwardPagedStepPersistent m token s.handle s.maxBlocksCap q.sched.plan
          q.sched.pool with
      | .ok logits pool => some ((q.withPool pool).sample m idx s (some logits))
      | .err e pool => some ((q.withPool pool).finishError idx s (m.describe e))
      | .abort _ => none

/-- A loop over the sessions of a batch. -/
def serveAll {β : Type} (serve : β → SessionCore L P → SessionCore L P × StepReport) :
    List (Nat × β) → PagedQuantum V L P → Option (PagedQuantum V L P)
  | [], q => some q
  | (idx, b) :: rest, q =>
    match q.sched.sessions[idx]? with
    | none => none
    | some s => serveAll serve rest (q.replace idx s (serve b s.toSessionCore))

/-- Every session of a batch finishes with the same error. -/
def finishAll (msg : String) (idxs : List Nat) (q : PagedQuantum V L P) :
    Option (PagedQuantum V L P) :=
  serveAll (fun (_ : Unit) s => s.finishError msg) (idxs.map fun i => (i, ())) q

/-- Every session of a batch samples its row. -/
def sampleAll (rows : List (Nat × L)) (q : PagedQuantum V L P) :
    Option (PagedQuantum V L P) :=
  serveAll (fun row s => sampled m (some row) s) rows q

/-- The sessions of a batch; an index out of range is a panic. -/
def batchSessions (q : PagedQuantum V L P) : List Nat → Option (List (PagedSession V L P))
  | [] => some []
  | idx :: rest =>
    match q.sched.sessions[idx]?, q.batchSessions rest with
    | some s, some ss => some (s :: ss)
    | _, _ => none

/-- The last tokens of a batch, if every session has one. -/
def lastTokens : List (PagedSession V L P) → Option (List UInt32)
  | [] => some []
  | s :: rest =>
    match s.tokens.getLast?, lastTokens rest with
    | some t, some ts => some (t :: ts)
    | _, _ => none

/-- `decode_batch`. -/
def decodeBatch (q : PagedQuantum V L P) (idxs : List Nat) :
    Option (PagedQuantum V L P) :=
  match q.batchSessions idxs with
  | none => none
  | some ss =>
    match lastTokens ss with
    | none => finishAll "decode_batch: empty token history" idxs q
    | some tokens =>
      match forwardPagedStepBatched m tokens (ss.map PagedSession.handle) q.sched.pool with
      | .ok rows pool =>
        if rows.length = idxs.length then
          (sampleAll m (idxs.zip rows) (q.withPool pool)).map fun q =>
            { q with report := q.report.append { usedBatchedArm := true } }
        else
          finishAll ("decode_batch: " ++ toString rows.length ++ " rows for "
            ++ toString idxs.length ++ " sessions") idxs (q.withPool pool)
      | .err e pool => finishAll (m.describe e) idxs (q.withPool pool)
      | .abort _ => none

/-- `prefill_pass`. -/
def prefillPass (q : PagedQuantum V L P) :
    Option (PagedQuantum V L P) :=
  (q.sched.readyIn .prefill).foldlM (prefill m) q

/-- A chunk of a group: served alone, or as a batch. -/
def decodeChunk (q : PagedQuantum V L P) (chunk : List Nat) :
    Option (PagedQuantum V L P) :=
  if chunk.length < 2 then chunk.foldlM (decodeOne m) q else decodeBatch m q chunk

end PagedQuantum

namespace PagedSessionScheduler

/-- `step`; `none` if it panics. -/
def step (sched : PagedSessionScheduler V L P) :
    Option (PagedQuantum V L P) := do
  let q ← PagedQuantum.prefillPass m ⟨sched, {}⟩
  q.sched.collectDecodeReady.foldlM (PagedQuantum.decodeOne m) q

/-- `step_batched`. -/
def stepBatched (maxBatch : Nat)
    (sched : PagedSessionScheduler V L P) : Option (PagedQuantum V L P) := do
  let q ← PagedQuantum.prefillPass m ⟨sched, {}⟩
  let pieces := (q.sched.groups q.sched.collectDecodeReady).flatMap fun g =>
    chunks (max maxBatch 1) g.length g
  pieces.foldlM (PagedQuantum.decodeChunk m) q

/-- The loop of `reap_finished`: the reaped tokens, the kept sessions and the pool. -/
def reapLoop : List (PagedSession V L P) → DeviceKvPool V →
    Option (List (SessionId × List UInt32) × List (PagedSession V L P) × DeviceKvPool V)
  | [], pool => some ([], [], pool)
  | s :: rest, pool =>
    if s.phase = .finished then
      match onCore (KvPool.discard .debug s.handle) pool with
      | .ok _ pool => (reapLoop rest pool).map fun r => ((s.id, s.tokens) :: r.1, r.2.1, r.2.2)
      | _ => none
    else (reapLoop rest pool).map fun r => (r.1, s :: r.2.1, r.2.2)

/-- `reap_finished`. -/
def reapFinished (sched : PagedSessionScheduler V L P) :
    Option (List (SessionId × List UInt32) × PagedSessionScheduler V L P) :=
  (reapLoop sched.sessions sched.pool).map fun r =>
    (r.1, { sched with sessions := r.2.1, pool := r.2.2 })

end PagedSessionScheduler

end Fuel.Inference
