import Fuel.Inference.CoTenants

/-!
# Runs of the paged scheduler

Every call of `PagedSessionScheduler`, in any order: the admissions, the
prefixes, eviction and restoring, the settings, the two kinds of step, and
reaping. Beside the scheduler a run keeps what a session is compared with: the
request it was admitted with, the donor's tokens a prefix covers, and the reports
of all steps so far. Each call keeps `Tenants`, so a session that was never
reported in `errored` has generated what the single-session loop does.
-/

namespace Fuel.Inference

open Fuel Method KvPool PagedDecodeModel PagedSessionScheduler List Function DeviceKvPool Outcome

variable {V L P : Type}

/-! ## Calls -/

/-- A session samples with a strategy, or with the full controls. -/
inductive Sampling (P : Type) where
  | strategy (s : SamplingStrategy)
  | params (p : P)

/-- The arguments of an admission; `shared` is the prefix it starts on, if any. -/
structure Submission (P : Type) where
  shared : Option PrefixId
  prompt : List UInt32
  sampling : Sampling P
  eosIds : Option (List UInt32)
  maxNew : Nat

/-- The request of an admission. -/
def Submission.request (m : PagedDecodeModel V L P) (sub : Submission P) : Request P :=
  match sub.sampling with
  | .strategy s => ⟨sub.prompt, s, none, s.seed, sub.eosIds, sub.maxNew⟩
  | .params p =>
    let strategy := match m.admitParams p with
      | .ok s => s
      | .error _ => .greedy
    ⟨sub.prompt, strategy, some p, m.seed p, sub.eosIds, sub.maxNew⟩

/-- `add_session` or `add_session_sharing_prefix`. -/
def PagedSessionScheduler.submitWith (sub : Submission P) (strategy : SamplingStrategy) :
    PagedM V L P SessionId :=
  match sub.shared with
  | none => addSession sub.prompt strategy sub.eosIds sub.maxNew
  | some id => addSessionSharingPrefix id sub.prompt strategy sub.eosIds sub.maxNew

/-- The four admissions. -/
def PagedSessionScheduler.submit (m : PagedDecodeModel V L P) (sub : Submission P) :
    PagedM V L P SessionId :=
  match sub.sampling with
  | .strategy s => submitWith sub s
  | .params p => withParams m p (submitWith sub)

inductive PagedCall (P : Type) where
  | submit (sub : Submission P)
  | registerPrefix (donor : SessionId) (prefixBlocks : Nat)
  | releasePrefix (id : PrefixId)
  | evictSession (id : SessionId)
  | restoreSession (id : SessionId) (fault : PhysBlockId → Option String)
  | setPolicy (policy : PagedSchedulePolicy)
  | setPlan (plan : PagedDecodePlan)
  | setPriority (id : SessionId) (priority : Int)
  | step
  | stepBatched (maxBatch : Nat)
  | reapFinished

/-- The scheduler, what the run remembers, and the reports so far. -/
structure PagedWorld (V L P : Type) where
  sched : PagedSessionScheduler V L P
  roster : Roster P
  log : StepReport

namespace PagedWorld

def new (geom : KvGeometry) (zero : V) : PagedWorld V L P where
  sched := .new geom zero
  roster := ⟨fun _ => none, fun _ => []⟩
  log := {}

/-- What follows a call that returned. -/
def after {α : Type} (w : PagedWorld V L P)
    (o : Outcome PagedError (PagedSessionScheduler V L P) α) (ok : α → Roster P → Roster P) :
    Option (PagedWorld V L P) :=
  match o with
  | .ok a sched => some ⟨sched, ok a w.roster, w.log⟩
  | .err _ sched => some ⟨sched, w.roster, w.log⟩
  | .abort _ => none

/-- What follows a step. -/
def reported (w : PagedWorld V L P) (q : PagedQuantum V L P) : PagedWorld V L P :=
  ⟨q.sched, w.roster, w.log.append q.report⟩

/-- The tokens that the first blocks of a session are for. -/
def coveredTokens (w : PagedWorld V L P) (donor : SessionId) (blocks : Nat) : List UInt32 :=
  match w.sched.position donor with
  | some (_, s) => s.tokens.take (blocks * w.sched.pool.core.geom.blockSize)
  | none => []

/-- One call; `none` if it panics. -/
def step (m : PagedDecodeModel V L P) (w : PagedWorld V L P) : PagedCall P → Option (PagedWorld V L P)
  | .submit sub => w.after (PagedSessionScheduler.submit m sub w.sched) fun id g =>
      { g with requests := Function.update g.requests id (some (sub.request m)) }
  | .registerPrefix donor k => w.after (PagedSessionScheduler.registerPrefix donor k w.sched)
      fun id g =>
        { g with donorTokens := Function.update g.donorTokens id (w.coveredTokens donor k) }
  | .releasePrefix id => w.after (PagedSessionScheduler.releasePrefix id w.sched) fun _ g => g
  | .evictSession id => w.after (PagedSessionScheduler.evictSession id w.sched) fun _ g => g
  | .restoreSession id fault =>
    w.after (PagedSessionScheduler.restoreSession fault id w.sched) fun _ g => g
  | .setPolicy policy => w.after (PagedSessionScheduler.setPolicy policy w.sched) fun _ g => g
  | .setPlan plan => w.after (PagedSessionScheduler.setPlan plan w.sched) fun _ g => g
  | .setPriority id priority =>
    w.after (PagedSessionScheduler.setPriority id priority w.sched) fun _ g => g
  | .step => (w.sched.step m).map w.reported
  | .stepBatched maxBatch => (w.sched.stepBatched m maxBatch).map w.reported
  | .reapFinished => w.sched.reapFinished.map fun r => { w with sched := r.2 }

/-- A prompt that shares a prefix begins with the donor's tokens. -/
def Shares (w : PagedWorld V L P) : PagedCall P → Prop
  | .submit sub => ∀ id ∈ sub.shared, w.roster.donorTokens id <+: sub.prompt
  | _ => True

/-- A prefix is only taken from a donor that was not reported in `errored`. -/
def DonorIntact (w : PagedWorld V L P) : PagedCall P → Prop
  | .registerPrefix donor _ => donor ∉ w.log.failed
  | _ => True

instance (w : PagedWorld V L P) (c : PagedCall P) : Decidable (w.Shares c) := by
  cases c <;> unfold Shares <;> infer_instance

/-- The call failed in a device write. -/
def refusedWrite {σ α : Type} : Outcome PagedError σ α → Bool
  | .err (.pool (.write _)) _ => true
  | _ => false

/-- No restore fails in a device write. -/
def WritesBack (w : PagedWorld V L P) : PagedCall P → Prop
  | .restoreSession id fault =>
    refusedWrite (PagedSessionScheduler.restoreSession fault id w.sched) = false
  | _ => True

instance (w : PagedWorld V L P) (c : PagedCall P) : Decidable (w.DonorIntact c) := by
  cases c <;> unfold DonorIntact <;> infer_instance

instance (w : PagedWorld V L P) (c : PagedCall P) : Decidable (w.WritesBack c) := by
  cases c <;> unfold WritesBack <;> infer_instance

/-- The states that calls which meet a condition lead to. -/
inductive Reached (m : PagedDecodeModel V L P) (geom : KvGeometry) (zero : V)
    (Meets : PagedWorld V L P → PagedCall P → Prop) : PagedWorld V L P → Prop
  | new : Reached m geom zero Meets (.new geom zero)
  | call {w c w'} : Reached m geom zero Meets w → Meets w c → w.step m c = some w' →
      Reached m geom zero Meets w'

/-- A list of calls, if all of them meet the condition and return. -/
def run (m : PagedDecodeModel V L P) (Meets : PagedWorld V L P → PagedCall P → Prop)
    [∀ w c, Decidable (Meets w c)] (w : PagedWorld V L P) :
    List (PagedCall P) → Option (PagedWorld V L P)
  | [] => some w
  | c :: cs => if Meets w c then (w.step m c).bind fun w' => run m Meets w' cs else none

theorem Reached.run {m : PagedDecodeModel V L P} {geom : KvGeometry} {zero : V}
    {Meets : PagedWorld V L P → PagedCall P → Prop} [∀ w c, Decidable (Meets w c)]
    {w w' : PagedWorld V L P} {cs : List (PagedCall P)} (h : Reached m geom zero Meets w)
    (hrun : w.run m Meets cs = some w') : Reached m geom zero Meets w' := by
  induction cs generalizing w with
  | nil =>
    cases hrun
    exact h
  | cons c cs ih =>
    unfold PagedWorld.run at hrun
    split at hrun
    · rename_i hc
      obtain ⟨w₁, hstep, hrest⟩ := Option.bind_eq_some_iff.mp hrun
      exact ih (h.call hc hstep) hrest
    · cases hrun

end PagedWorld

/-! ## Admission -/

section Calls

variable {m : PagedDecodeModel V L P} {geom : KvGeometry} {g : Roster P} {log : StepReport}
  {sched : PagedSessionScheduler V L P} {w w' : Tenancy V}

/-- A handle that no session has yet, with the cache it reads. -/
structure Vacant (m : PagedDecodeModel V L P) (geom : KvGeometry) (g : Roster P)
    (log : StepReport) (sched : PagedSessionScheduler V L P) (w : Tenancy V)
    (handle : SessionHandle) : Prop where
  tenants : Tenants m geom g allSettled log { sched with pool := w.dev } w
  issued : handle ∈ w.issued
  usable : handle ∉ w.refused
  fresh : ∀ s ∈ sched.sessions, s.handle ≠ handle

theorem Tenants.opened (h : Tenants m geom g allSettled log sched w) (hbs : 0 < geom.blockSize) :
    ∃ w₁ handle, onPool (L := L) (P := P) (onCore openSession) sched
        = .ok handle { sched with pool := w₁.dev } ∧
      Vacant m geom g log sched w₁ handle ∧ w₁.model.caches handle = [] := by
  obtain ⟨vals, hsound⟩ := h.sound
  have hstep : w.step .openSession = some _ := rfl
  have hm := Moves.of_step hsound hbs (c := .openSession) trivial hstep (by simp)
  refine ⟨_, ⟨w.dev.core.nextSession⟩, ?_, ⟨h.move hm (fun _ _ _ => rfl) (by simp [Call.sessions]),
    mem_append_right _ mem_cons_self, ?_, ?_⟩, ?_⟩
  · simp only [onPool, onCore, ← h.dev]
    rfl
  · intro hr
    exact hsound.issued_ne (hsound.refused _ hr) rfl
  · intro s hs
    exact hsound.issued_ne (h.issued s hs)
  · simp [PrivateCaches.cleared]

namespace Vacant

variable {handle : SessionHandle} (h : Vacant m geom g log sched w handle)

include h

variable (hbs : 0 < geom.blockSize)

include hbs

/-- A call on the handle concerns no session. -/
theorem step {c : KvPool.Call V} (hc : w.Allows c) (hsessions : c.sessions = [handle])
    (hreg : ∀ s k, c ≠ .registerPrefix s k) (hstep : w.step c = some w') :
    Tenants m geom g allSettled log { sched with pool := w'.dev } w' := by
  obtain ⟨vals, hsound⟩ := h.tenants.sound
  refine h.tenants.move (Moves.of_step hsound hbs hc hstep hreg) (fun _ _ _ => rfl) ?_
  intro s hs hmem
  rw [hsessions, mem_singleton] at hmem
  exact absurd hmem (h.fresh s hs)

theorem discard : ∃ w', onPool (L := L) (P := P) (onCore (KvPool.discard .debug handle))
        { sched with pool := w.dev } = .ok () { sched with pool := w'.dev } ∧
      Tenants m geom g allSettled log { sched with pool := w'.dev } w' := by
  obtain ⟨vals, hsound⟩ := h.tenants.sound
  obtain ⟨core', hrun, -⟩ := discard_spec hsound.core.inv.wf handle
  have hdev : onCore (KvPool.discard .debug handle) w.dev = .ok () ⟨core', w.dev.cells⟩ := by
    simp only [onCore, hrun]
  have hstep : w.step (.discard handle) = some
      { Tenancy.use { w with dev := ⟨core', w.dev.cells⟩ } handle with
        model := w.model.cleared handle } := by
    simp only [Tenancy.step, hdev]
    rfl
  refine ⟨_, ?_, h.step hbs (c := .discard handle) h.issued rfl (by simp) hstep⟩
  simp only [onPool, hdev]
  rfl

omit hbs in
omit h in
/-- What `splice_prefix_from` does for the handle. -/
inductive Splices (m : PagedDecodeModel V L P) (geom : KvGeometry) (g : Roster P)
    (log : StepReport) (sched : PagedSessionScheduler V L P) (handle : SessionHandle)
    (id : PrefixId) : Outcome PagedError (PagedSessionScheduler V L P) Nat → Prop
  | ok {w' : Tenancy V} : Vacant m geom g log sched w' handle →
      m.Fed (g.donorTokens id) (w'.model.caches handle) →
      Splices m geom g log sched handle id
        (.ok (g.donorTokens id).length { sched with pool := w'.dev })
  | err {w' : Tenancy V} (e : PagedError) : Vacant m geom g log sched w' handle →
      Splices m geom g log sched handle id (.err e { sched with pool := w'.dev })
  | abort (why : Abort) : Splices m geom g log sched handle id (.abort why)

theorem splice (id : PrefixId) : Splices m geom g log sched handle id
      (onPool (onCore (splicePrefixFrom .debug id handle)) { sched with pool := w.dev }) := by
  obtain ⟨vals, hsound⟩ := h.tenants.sound
  have hallows : w.Allows (.splicePrefixFrom id handle) := ⟨h.issued, h.usable⟩
  have hspec := splicePrefixFrom_spec hsound.core.inv.wf id handle
  simp only [onPool, onCore]
  cases hrun : splicePrefixFrom .debug id handle w.dev.core with
  | abort why => exact .abort why
  | err e core' =>
    have hstep : w.step (.splicePrefixFrom id handle) = some
        (Tenancy.use { w with dev := ⟨core', w.dev.cells⟩ } handle) := by
      simp only [Tenancy.step, onCore, hrun]
      rfl
    exact .err _ ⟨h.step hbs hallows rfl (by simp) hstep, h.issued, h.usable, h.fresh⟩
  | ok n core' =>
    have hstep : w.step (.splicePrefixFrom id handle) = some
        { Tenancy.use { w with dev := ⟨core', w.dev.cells⟩ } handle with
          model := w.model.inherited handle id } := by
      simp only [Tenancy.step, onCore, hrun]
      rfl
    rw [hrun] at hspec
    obtain ⟨o, u, t, ps, ho, -, -, -, hn⟩ := hspec.of_ok
    obtain ⟨hinherited, hlen⟩ := hsound.prefixes id o ho
    have hfed := h.tenants.prefixes id
    obtain rfl : n = (g.donorTokens id).length := by
      rw [hn, hsound.core.geom_eq, ← hlen, hinherited, hfed.length]
    refine .ok ⟨h.step hbs hallows rfl (by simp) hstep, h.issued, h.usable, h.fresh⟩ ?_
    simpa [PrivateCaches.inherited] using hfed

end Vacant

/-- A session as `admit_session` makes it. -/
def admittedSession (id : SessionId) (handle : SessionHandle) (cap start : Nat)
    (prompt : List UInt32) (strategy : SamplingStrategy) (eosIds : Option (List UInt32))
    (maxNew : Nat) : PagedSession V L P :=
  { SessionCore.admitted id prompt strategy eosIds maxNew with
    handle := handle, suspended := none, maxBlocksCap := cap, prefillStart := start, priority := 0 }

/-- The scheduler with a new session, on the pool of `w`. -/
def pushed (sched : PagedSessionScheduler V L P) (w : Tenancy V) (s : PagedSession V L P) :
    PagedSessionScheduler V L P :=
  { sched with pool := w.dev, sessions := sched.sessions ++ [s], nextId := sched.nextId + 1 }

/-- The last session is the one that was just pushed. -/
theorem setLastParams_pushed (m : PagedDecodeModel V L P) (params : P)
    (sched : PagedSessionScheduler V L P) (w : Tenancy V) (s : PagedSession V L P) :
    setLastParams m params (pushed sched w s)
      = pushed sched w { s with rngState := m.seed params, params := some params } := by
  simp [setLastParams, pushed]

variable {handle : SessionHandle} {s : PagedSession V L P} {r : Request P} {u : PagedWorld V L P}
  {id : SessionId}

theorem Vacant.push (h : Vacant m geom g log sched w handle) (hid : s.id = sched.nextId)
    (hhandle : s.handle = handle) (hsusp : s.suspended = none) (hnew : s.newTokens = [])
    (hphase : s.phase = .prefill) (hfollows : Follows m r s (w.model.caches handle)) :
    Tenants m geom { g with requests := Function.update g.requests sched.nextId (some r) }
      allSettled log (pushed sched w s) w := by
  have hold : ∀ x ∈ sched.sessions, x.id ≠ s.id := by
    intro x hx
    have := h.tenants.minted x hx
    rw [hid]
    exact Nat.ne_of_lt this
  have hunlogged : ¬ log.Mentions s.id := by
    intro hment
    have := h.tenants.logged _ hment
    rw [hid] at this
    exact Nat.lt_irrefl _ this
  have hmem : ∀ x ∈ sched.sessions ++ [s], x ∈ sched.sessions ∨ x = s := by
    intro x hx
    rwa [mem_append, mem_singleton] at hx
  refine ⟨rfl, h.tenants.sound, h.tenants.prefixes, ?_, ?_, ?_, ?_, ?_, ?_⟩
  · show ((sched.sessions ++ [s]).map _).Nodup
    rw [map_append, nodup_append]
    refine ⟨h.tenants.ids, nodup_singleton _, ?_⟩
    simpa using hold
  · show ((sched.sessions ++ [s]).map _).Nodup
    rw [map_append, nodup_append]
    refine ⟨h.tenants.sessionHandles, nodup_singleton _, ?_⟩
    simpa [hhandle] using h.fresh
  · intro x hx
    rcases hmem x hx with hx | rfl
    · exact h.tenants.issued x hx
    · rw [hhandle]
      exact h.issued
  · intro x hx
    rcases hmem x hx with hx | rfl
    · exact Nat.lt_succ_of_lt (h.tenants.minted x hx)
    · rw [hid]
      exact Nat.lt_succ_self _
  · intro id hment
    exact Nat.lt_succ_of_lt (h.tenants.logged id hment)
  · intro x hx
    rcases hmem x hx with hx | rfl
    · have hreq : update g.requests sched.nextId (some r) x.id = g.requests x.id :=
        update_of_ne (hid ▸ hold x hx) _ _
      simpa only [StageOk, hreq] using h.tenants.stages x hx
    refine .inr ⟨⟨fun hf => hunlogged (.inr (.inr hf)), ?_, ?_, ?_⟩, ?_, r,
      hid ▸ update_self _ _ _, ?_⟩
    · rw [hhandle]
      exact h.usable
    · rw [hnew, count_eq_zero_of_not_mem fun hf => hunlogged (.inl hf)]
      rfl
    · rw [hphase, count_eq_zero_of_not_mem fun hf => hunlogged (.inr (.inl hf))]
      rfl
    · intro e he
      rw [hsusp] at he
      cases he
    · rw [hhandle]
      exact hfollows

/-- What an admission leaves. -/
inductive Admitted (m : PagedDecodeModel V L P) (geom : KvGeometry) (g : Roster P)
    (log : StepReport) (sched : PagedSessionScheduler V L P) (prompt : List UInt32)
    (strategy : SamplingStrategy) (eosIds : Option (List UInt32)) (maxNew : Nat) :
    Outcome PagedError (PagedSessionScheduler V L P) SessionId → Prop
  | ok {w : Tenancy V} {handle : SessionHandle} {cap start : Nat} :
      Vacant m geom g log sched w handle → m.Fed (prompt.take start) (w.model.caches handle) →
      start < prompt.length → 0 < maxNew →
      Admitted m geom g log sched prompt strategy eosIds maxNew (.ok sched.nextId (pushed sched w
        (admittedSession sched.nextId handle cap start prompt strategy eosIds maxNew)))
  | err {w : Tenancy V} (e : PagedError) :
      Tenants m geom g allSettled log { sched with pool := w.dev } w →
      Admitted m geom g log sched prompt strategy eosIds maxNew
        (.err e { sched with pool := w.dev })
  | abort (why : Abort) : Admitted m geom g log sched prompt strategy eosIds maxNew (.abort why)

/-- A refused admission that never reached the pool. -/
theorem Tenants.refused (h : Tenants m geom g allSettled log sched w) (prompt : List UInt32)
    (strategy : SamplingStrategy) (eosIds : Option (List UInt32)) (maxNew : Nat) (e : PagedError) :
    Admitted m geom g log sched prompt strategy eosIds maxNew (.err e sched) := by
  have hsched : sched = { sched with pool := w.dev } := by rw [h.dev]
  have hok : Admitted m geom g log sched prompt strategy eosIds maxNew
      (.err e { sched with pool := w.dev }) := .err e (hsched ▸ h)
  rwa [← hsched] at hok

theorem Vacant.admitSession (h : Vacant m geom g log sched w handle) {prompt : List UInt32}
    (strategy : SamplingStrategy) (eosIds : Option (List UInt32)) {maxNew start : Nat}
    (hfed : m.Fed (prompt.take start) (w.model.caches handle)) (hshort : start < prompt.length)
    (hbudget : 0 < maxNew) : Admitted m geom g log sched prompt strategy eosIds maxNew
      (PagedSessionScheduler.admitSession handle prompt strategy eosIds maxNew start
        { sched with pool := w.dev }) := by
  unfold PagedSessionScheduler.admitSession addUsizeIn usizeResult divCeil
  rw [bind_run, get_run, andThen_ok, bind_run]
  split_ifs
  · exact .abort _
  · exact .ok h hfed hshort hbudget
  · exact .abort _
  · exact .abort _

variable (h : Tenants m geom g allSettled log sched w)

include h

theorem Tenants.addSession (hbs : 0 < geom.blockSize) (prompt : List UInt32)
    (strategy : SamplingStrategy) (eosIds : Option (List UInt32)) (maxNew : Nat) :
    Admitted m geom g log sched prompt strategy eosIds maxNew
      (PagedSessionScheduler.addSession prompt strategy eosIds maxNew sched) := by
  unfold PagedSessionScheduler.addSession
  split_ifs with hempty hzero
  · exact h.refused _ _ _ _ _
  · exact h.refused _ _ _ _ _
  · obtain ⟨w₁, handle, hopen, hvacant, hcache⟩ := h.opened hbs
    rw [bind_run, hopen, andThen_ok]
    refine hvacant.admitSession strategy eosIds ?_ (length_pos_of_ne_nil hempty)
      (Nat.pos_of_ne_zero hzero)
    rw [hcache]
    exact Fed.nil m

omit h in
/-- The new handle is thrown away, and the error returned. -/
theorem Vacant.reject (h : Vacant m geom g log sched w handle) (hbs : 0 < geom.blockSize)
    (prompt : List UInt32) (strategy : SamplingStrategy) (eosIds : Option (List UInt32))
    (maxNew : Nat) (e : PagedError) : Admitted m geom g log sched prompt strategy eosIds maxNew
      ((do
        onPool (onCore (KvPool.discard .debug handle))
        fail e : PagedM V L P SessionId) { sched with pool := w.dev }) := by
  obtain ⟨w', hdiscard, ht⟩ := h.discard hbs
  rw [bind_run, hdiscard]
  exact .err e ht

theorem Tenants.addSessionSharingPrefix (hbs : 0 < geom.blockSize) {id : PrefixId}
    {prompt : List UInt32} (hshares : g.donorTokens id <+: prompt) (strategy : SamplingStrategy)
    (eosIds : Option (List UInt32)) (maxNew : Nat) :
    Admitted m geom g log sched prompt strategy eosIds maxNew
      (PagedSessionScheduler.addSessionSharingPrefix id prompt strategy eosIds maxNew sched) := by
  unfold PagedSessionScheduler.addSessionSharingPrefix
  split_ifs with hempty hzero
  · exact h.refused _ _ _ _ _
  · exact h.refused _ _ _ _ _
  obtain ⟨w₁, handle, hopen, hvacant, -⟩ := h.opened hbs
  rw [bind_run, hopen, andThen_ok, bind_run]
  have hsplice := hvacant.splice hbs id
  unfold attempt
  generalize onPool (onCore (splicePrefixFrom .debug id handle))
    { sched with pool := w₁.dev } = o at hsplice ⊢
  cases hsplice with
  | abort why => exact .abort why
  | err e hvacant => exact hvacant.reject hbs _ _ _ _ _
  | ok hvacant hfed =>
    rw [andThen_ok]
    dsimp only
    split_ifs with hlen
    · exact hvacant.reject hbs _ _ _ _ _
    · refine hvacant.admitSession strategy eosIds ?_ (by omega) (Nat.pos_of_ne_zero hzero)
      rwa [← prefix_iff_eq_take.mp hshares]

theorem Tenants.submitWith (hbs : 0 < geom.blockSize) {sub : Submission P}
    (hshares : ∀ id, sub.shared = some id → g.donorTokens id <+: sub.prompt)
    (strategy : SamplingStrategy) :
    Admitted m geom g log sched sub.prompt strategy sub.eosIds sub.maxNew
      (PagedSessionScheduler.submitWith sub strategy sched) := by
  unfold PagedSessionScheduler.submitWith
  cases hshared : sub.shared with
  | none => exact h.addSession hbs _ _ _ _
  | some id => exact h.addSessionSharingPrefix hbs (hshares id hshared) _ _ _

omit h

/-- A session that has just been admitted starts on the way of its request. -/
theorem Vacant.pushAdmitted (h : Vacant m geom g log sched w handle) {start : Nat}
    (hfed : m.Fed (r.prompt.take start) (w.model.caches handle)) (hshort : start < r.prompt.length)
    (hbudget : 0 < r.maxNew) (cap : Nat) :
    Tenants m geom { g with requests := Function.update g.requests sched.nextId (some r) }
      allSettled log (pushed sched w
        { (admittedSession sched.nextId handle cap start r.prompt r.strategy r.eosIds r.maxNew :
            PagedSession V L P) with rngState := r.seed, params := r.params }) w := by
  refine h.push rfl rfl rfl rfl rfl ?_
  refine .prefill ⟨rfl, rfl, rfl, ?_⟩ rfl rfl rfl rfl hbudget hfed hshort
  exact (append_nil _).symm

/-- What a call leaves. -/
def Kept (m : PagedDecodeModel V L P) (geom : KvGeometry) (w : PagedWorld V L P) : Prop :=
  ∃ t, Tenants m geom w.roster allSettled w.log w.sched t

variable (h : Tenants m geom g allSettled log sched w)

include h

theorem Tenants.submit (hbs : 0 < geom.blockSize) {sub : Submission P}
    (hshares : ∀ id, sub.shared = some id → g.donorTokens id <+: sub.prompt)
    (hstep : (PagedWorld.mk sched g log).step m (.submit sub) = some u) : Kept m geom u := by
  simp only [PagedWorld.step, PagedSessionScheduler.submit] at hstep
  cases hsampling : sub.sampling with
  | strategy s =>
    have hspec := h.submitWith hbs hshares s
    rw [hsampling] at hstep
    dsimp only at hstep
    generalize PagedSessionScheduler.submitWith sub s sched = o at hspec hstep
    cases hspec with
    | abort why => cases hstep
    | err e ht =>
      cases hstep
      exact ⟨_, ht⟩
    | ok hvacant hfed hshort hbudget =>
      have hreq : sub.request m = ⟨sub.prompt, s, none, s.seed, sub.eosIds, sub.maxNew⟩ := by
        simp only [Submission.request, hsampling]
      rw [hreq] at hstep
      cases hstep
      exact ⟨_, hvacant.pushAdmitted (r := ⟨sub.prompt, s, none, s.seed, sub.eosIds, sub.maxNew⟩)
        hfed hshort hbudget _⟩
  | params p =>
    rw [hsampling] at hstep
    dsimp only [withParams] at hstep
    cases hparams : m.admitParams p with
    | error msg =>
      rw [hparams] at hstep
      cases hstep
      exact ⟨_, h⟩
    | ok s =>
      rw [hparams] at hstep
      dsimp only at hstep
      rw [bind_run] at hstep
      have hspec := h.submitWith hbs hshares s
      generalize PagedSessionScheduler.submitWith sub s sched = o at hspec hstep
      cases hspec with
      | abort why => cases hstep
      | err e ht =>
        cases hstep
        exact ⟨_, ht⟩
      | @ok w₁ handle cap start hvacant hfed hshort hbudget =>
        have hreq : sub.request m = ⟨sub.prompt, s, some p, m.seed p, sub.eosIds, sub.maxNew⟩ := by
          simp only [Submission.request, hsampling, hparams]
        simp only [andThen_ok, bind_run, get_run, set_run, setLastParams_pushed, pure_run,
          hreq] at hstep
        cases hstep
        exact ⟨_, hvacant.pushAdmitted
          (r := ⟨sub.prompt, s, some p, m.seed p, sub.eosIds, sub.maxNew⟩) hfed hshort hbudget _⟩

/-! ## Prefixes -/

omit h in
theorem position_eq_some {idx : Nat} (h : sched.position id = some (idx, s)) :
    sched.sessions[idx]? = some s ∧ s.id = id := by
  unfold PagedSessionScheduler.position at h
  split at h
  · cases h
  rename_i i hfind
  obtain ⟨s', hs', heq⟩ := Option.map_eq_some_iff.mp h
  cases heq
  refine ⟨hs', ?_⟩
  obtain ⟨hlt, hp, -⟩ := findIdx?_eq_some_iff_getElem.mp hfind
  rw [getElem?_eq_getElem hlt, Option.some.injEq] at hs'
  rw [← hs']
  exact eq_of_beq hp

omit h in
/-- `locate` finds a session with the id, or returns an error. -/
theorem locate_cases (sched : PagedSessionScheduler V L P) (id : SessionId) :
    (∃ idx s, sched.position id = some (idx, s) ∧ sched.sessions[idx]? = some s ∧ s.id = id ∧
      locate id sched = .ok (idx, s) sched) ∨
    locate id sched = .err (.unknownSession id) sched := by
  have hlocate : locate id sched = okOr (sched.position id) (.unknownSession id) sched := rfl
  rw [hlocate]
  cases hpos : sched.position id with
  | none => exact .inr rfl
  | some found =>
    obtain ⟨hidx, hid⟩ := position_eq_some hpos
    exact .inl ⟨found.1, found.2, rfl, hidx, hid, rfl⟩

/-- A change of the pool that leaves what every session reads, and the books on it. -/
theorem Tenants.repool {dev : DeviceKvPool V} {prefixes : PrefixId → List V}
    {donorTokens : PrefixId → List UInt32} (hsound : ∃ vals, Sound geom { w with
      dev := dev, model := { w.model with prefixes := prefixes } } vals)
    (hfed : ∀ id, m.Fed (donorTokens id) (prefixes id)) :
    Tenants m geom { g with donorTokens := donorTokens } allSettled log { sched with pool := dev }
      { w with dev := dev, model := { w.model with prefixes := prefixes } } where
  dev := rfl
  sound := hsound
  prefixes := hfed
  ids := h.ids
  sessionHandles := h.sessionHandles
  issued := h.issued
  minted := h.minted
  logged := h.logged
  stages := by
    intro s hs
    rcases h.stages s hs with hf | ⟨hh, hhandle, hfollows⟩
    · exact .inl hf
    · exact .inr ⟨⟨hh.unreported, hh.usable, hh.counted⟩, hhandle, hfollows⟩

/-- A session that was not reported in `errored`. -/
theorem Tenants.healthy (hs : s ∈ sched.sessions) (hok : s.id ∉ log.failed) :
    Healthy log w s ∧ (∀ e, s.suspended = some e → w.handles s.handle = some e) ∧
      ∃ r, g.requests s.id = some r ∧ Follows m r s (w.model.caches s.handle) := by
  rcases h.stages s hs with ⟨hf, -⟩ | hh
  · exact absurd hf hok
  · exact hh

theorem Tenants.registerPrefix (hbs : 0 < geom.blockSize) {donor : SessionId}
    (hok : donor ∉ log.failed) {k : Nat}
    (hstep : (PagedWorld.mk sched g log).step m (.registerPrefix donor k) = some u) :
    Kept m geom u := by
  simp only [PagedWorld.step, PagedSessionScheduler.registerPrefix, bind_run] at hstep
  rcases locate_cases sched donor with ⟨idx, s, hpos, hidx, rfl, hlocate⟩ | herr
  · have hs := mem_of_getElem? hidx
    obtain ⟨hh, -, r, hr, hfollows⟩ := h.healthy hs hok
    obtain ⟨vals, hsound⟩ := h.sound
    rw [hlocate, andThen_ok] at hstep
    simp only [onPool, ← h.dev] at hstep
    cases hrun : onCore (KvPool.registerPrefix .debug s.handle k) w.dev with
    | abort why =>
      rw [hrun] at hstep
      cases hstep
    | err e dev =>
      -- only the session counter has moved
      have hdev : dev = ⟨w.dev.core.skipSession, w.dev.cells⟩ := by
        have hspec := registerPrefix_spec hsound.core.inv.wf s.handle k
        simp only [onCore] at hrun
        split at hrun
        · cases hrun
        · rename_i hcore
          rw [hcore] at hspec
          rw [hspec.of_err] at hrun
          cases hrun
          rfl
        · cases hrun
      rw [hrun, hdev] at hstep
      cases hstep
      exact ⟨_, h.repool ⟨vals, hsound.skipSession⟩ h.prefixes⟩
    | ok id dev =>
      obtain ⟨hsound', hlen⟩ := hsound.registered hbs (h.issued s hs) hh.usable hrun
      rw [hrun] at hstep
      cases hstep
      refine ⟨_, h.repool hsound' ?_⟩
      intro id'
      by_cases hid : id' = id
      · rw [hid, update_self, update_self]
        have hfed := hfollows.fed.take (k * geom.blockSize)
        rw [take_take, Nat.min_eq_left hlen] at hfed
        simpa only [PagedWorld.coveredTokens, hpos, ← h.dev, hsound.core.geom_eq] using hfed
      · rw [update_of_ne hid, update_of_ne hid]
        exact h.prefixes id'
  · rw [herr] at hstep
    cases hstep
    exact ⟨w, h⟩

theorem Tenants.releasePrefix (hbs : 0 < geom.blockSize) {id : PrefixId}
    (hstep : (PagedWorld.mk sched g log).step m (.releasePrefix id) = some u) : Kept m geom u := by
  obtain ⟨vals, hsound⟩ := h.sound
  have hkept : ∀ dev, w.step (.releasePrefix id) = some { w with dev := dev } →
      Kept m geom ⟨{ sched with pool := dev }, g, log⟩ := by
    intro dev hw
    have hm := Moves.of_step hsound hbs (c := .releasePrefix id) trivial hw (by simp)
    exact ⟨_, h.move hm (fun _ _ _ => rfl) (by simp [Call.sessions])⟩
  simp only [Tenancy.step] at hkept
  simp only [PagedWorld.step, PagedSessionScheduler.releasePrefix, onPool, ← h.dev] at hstep
  cases hrun : onCore (KvPool.releasePrefix .debug id) w.dev with
  | abort why =>
    rw [hrun] at hstep
    cases hstep
  | err e dev =>
    rw [hrun] at hstep hkept
    cases hstep
    exact hkept dev rfl
  | ok a dev =>
    rw [hrun] at hstep hkept
    cases hstep
    exact hkept dev rfl

/-! ## Evict and restore -/

omit h in
/-- What is not followed may change: whether the session is suspended, its priority. -/
theorem Follows.congr {s' : PagedSession V L P} {cache : List V} (h : Follows m r s cache)
    (hcore : s'.toSessionCore = s.toSessionCore) (hstart : s'.prefillStart = s.prefillStart) :
    Follows m r s' cache := by
  cases h with
  | prefill serves phase newTokens rng remaining budget fed short =>
    rw [← hstart] at fed short
    rw [← hcore] at serves phase newTokens rng remaining
    exact .prefill serves phase newTokens rng remaining budget fed short
  | decode serves phase tokens fed budget rest =>
    rw [← hcore] at serves phase tokens budget rest
    exact .decode serves phase tokens fed budget rest
  | finished serves phase fed done =>
    rw [← hcore] at serves phase fed done
    exact .finished serves phase fed done

/-- A session is suspended, or not any more, or gets another priority. -/
theorem Tenants.relabel {idx : Nat} {s' : PagedSession V L P} (hidx : sched.sessions[idx]? = some s)
    (hcore : s'.toSessionCore = s.toSessionCore) (hhandle : s'.handle = s.handle)
    (hstart : s'.prefillStart = s.prefillStart)
    (hsusp : ∀ e, s'.suspended = some e → s.id ∉ log.failed ∧ w.handles s.handle = some e) :
    Tenants m geom g allSettled log (sched.setSession idx s') w := by
  have hid : s'.id = s.id := congrArg SessionCore.id hcore
  rw [← StepReport.append_empty log]
  refine h.replace hidx s' hid hhandle (StepReport.on_empty s.id) (fun _ _ => rfl) ?_
  rw [StepReport.append_empty]
  rcases h.stages s (mem_of_getElem? hidx) with ⟨hf, hphase, -⟩ | ⟨hh, -, r, hr, hfollows⟩
  · left
    rw [hid, hcore]
    refine ⟨hf, hphase, ?_⟩
    cases hs : s'.suspended with
    | none => rfl
    | some e => exact absurd hf (hsusp e hs).1
  · right
    rw [hid, hhandle]
    refine ⟨⟨by rw [hid]; exact hh.unreported, by rw [hhandle]; exact hh.usable,
      by rw [hcore]; exact hh.counted⟩, fun e he => (hsusp e he).2, r, hr, ?_⟩
    exact hfollows.congr hcore hstart

/-- A call on a running session that leaves its cache. -/
theorem Tenants.quiet (hs : s ∈ sched.sessions) (hsusp : s.suspended = none)
    (hm : Moves geom [s.handle] w w') (hmodel : w'.model = w.model)
    (hrefused : w'.refused = w.refused) :
    Tenants m geom g allSettled log { sched with pool := w'.dev } w' := by
  refine h.move hm (fun _ _ _ => rfl) ?_
  intro x hx hmem
  obtain rfl : x = s := inj_on_of_nodup_map h.sessionHandles hx hs (mem_singleton.mp hmem)
  rcases h.stages x hs with hf | ⟨hh, -, hfollows⟩
  · exact .inl hf
  · refine .inr ⟨⟨hh.unreported, by rw [hrefused]; exact hh.usable, hh.counted⟩, ?_, ?_⟩
    · intro e he
      rw [hsusp] at he
      cases he
    · rw [hmodel]
      exact hfollows

theorem Tenants.evictSession (hbs : 0 < geom.blockSize)
    (hstep : (PagedWorld.mk sched g log).step m (.evictSession id) = some u) : Kept m geom u := by
  simp only [PagedWorld.step, PagedSessionScheduler.evictSession, bind_run] at hstep
  rcases locate_cases sched id with ⟨idx, s, -, hidx, rfl, hlocate⟩ | herr
  · rw [hlocate, andThen_ok] at hstep
    split_ifs at hstep with hsome hfin
    · cases hstep
      exact ⟨w, h⟩
    · cases hstep
      exact ⟨w, h⟩
    have hs := mem_of_getElem? hidx
    have hsusp : s.suspended = none := by simpa using hsome
    have hok : s.id ∉ log.failed := by
      rcases h.stages s hs with ⟨-, hphase, -⟩ | ⟨hh, -⟩
      · exact absurd hphase hfin
      · exact hh.unreported
    obtain ⟨hh, -⟩ := h.healthy hs hok
    obtain ⟨vals, hsound⟩ := h.sound
    have hallows : w.Allows (.evict s.handle) := ⟨h.issued s hs, hh.usable⟩
    simp only [bind_run, onPool, ← h.dev] at hstep
    cases hrun : evict s.handle w.dev with
    | abort why =>
      rw [hrun] at hstep
      cases hstep
    | err e dev =>
      have hw : w.step (.evict s.handle) = some (Tenancy.use { w with dev := dev } s.handle) := by
        simp only [Tenancy.step, hrun]
        rfl
      rw [hrun] at hstep
      cases hstep
      exact ⟨_, h.quiet hs hsusp (Moves.of_step hsound hbs hallows hw (by simp)) rfl rfl⟩
    | ok e dev =>
      have hw : w.step (.evict s.handle) = some { w with
          dev := dev, handles := update w.handles s.handle (some e) } := by
        simp only [Tenancy.step, hrun]
        rfl
      have ht := h.quiet hs hsusp (Moves.of_step hsound hbs hallows hw (by simp)) rfl rfl
      rw [hrun] at hstep
      cases hstep
      refine ⟨_, ht.relabel hidx rfl rfl rfl ?_⟩
      intro e' he'
      refine ⟨hok, ?_⟩
      rw [← he']
      exact update_self _ _ _
  · rw [herr] at hstep
    cases hstep
    exact ⟨w, h⟩

omit h in
/-- A restore fails in a write, or goes as if no write could fail. -/
theorem restore_noFault (fault : PhysBlockId → Option String) (s : SessionHandle)
    (e : DeviceEvicted V) (d : DeviceKvPool V) :
    (∃ msg d', restore fault s e d = .err (.write msg) d') ∨
      restore fault s e d = restore noFault s e d := by
  have hloop : ∀ (saved : List (SavedBlock V)) (d : DeviceKvPool V),
      (∃ msg d', (forM saved fun sb => writeBack fault s sb) d = .err (.write msg) d') ∨
        (forM saved fun sb => writeBack fault s sb) d
          = (forM saved fun sb => writeBack noFault s sb) d := by
    intro saved
    induction saved with
    | nil => exact fun d => .inr rfl
    | cons sb rest ih =>
      intro d
      rw [forM_cons_run, forM_cons_run]
      cases hp : d.core.residentBlock s sb.logicalSlot with
      | none => simp [writeBack, hp]
      | some p =>
        cases hf : fault p with
        | some msg => simp [writeBack, hp, writeBlock, hf]
        | none =>
          simp only [writeBack, bind_run, get_run, andThen_ok, hp, okOr_some, pure_run, writeBlock,
            hf, noFault, set_run]
          exact ih _
  simp only [DeviceKvPool.restore, bind_run]
  cases onCore (KvPool.restore s e.coreHandle) d with
  | ok _ d' => exact hloop e.saved d'
  | _ => exact .inr rfl

theorem Tenants.restoreSession (hbs : 0 < geom.blockSize) {fault : PhysBlockId → Option String}
    (hwrites : (PagedWorld.mk sched g log).WritesBack (.restoreSession id fault))
    (hstep : (PagedWorld.mk sched g log).step m (.restoreSession id fault) = some u) :
    Kept m geom u := by
  simp only [PagedWorld.step, PagedWorld.WritesBack, PagedSessionScheduler.restoreSession, bind_run]
    at hstep hwrites
  rcases locate_cases sched id with ⟨idx, s, -, hidx, rfl, hlocate⟩ | herr
  · rw [hlocate, andThen_ok] at hstep hwrites
    cases hsusp : s.suspended with
    | none =>
      rw [hsusp] at hstep
      cases hstep
      exact ⟨w, h⟩
    | some e =>
      rw [hsusp] at hstep hwrites
      simp only [bind_run, get_run, andThen_ok] at hstep hwrites
      split_ifs at hstep with hroom
      · cases hstep
        exact ⟨w, h⟩
      have hs := mem_of_getElem? hidx
      have hok : s.id ∉ log.failed := by
        rcases h.stages s hs with ⟨-, -, hnone⟩ | ⟨hh, -⟩
        · rw [hsusp] at hnone
          cases hnone
        · exact hh.unreported
      obtain ⟨hh, hhandle, -⟩ := h.healthy hs hok
      have hh' := hhandle e hsusp
      obtain ⟨vals, hsound⟩ := h.sound
      have hallows : w.Allows (.restore s.handle) := ⟨h.issued s hs, hh.usable⟩
      -- the session is marked as running before the pool is asked
      have ht : Tenants m geom g allSettled log
          (sched.setSession idx { s with suspended := none }) w :=
        h.relabel hidx rfl rfl rfl (by simp)
      have hs' : { s with suspended := none } ∈
          (sched.setSession idx { s with suspended := none }).sessions :=
        mem_of_getElem? (getElem?_set_self (lt_of_getElem? hidx))
      have hkept : ∀ dev, w.step (.restore s.handle)
          = some (Tenancy.use { w with dev := dev } s.handle) →
          Kept m geom ⟨{ sched.setSession idx { s with suspended := none } with pool := dev }, g,
            log⟩ := fun dev hw =>
        ⟨_, ht.quiet hs' rfl (Moves.of_step hsound hbs hallows hw (by simp)) rfl rfl⟩
      simp only [Tenancy.step, hh'] at hkept
      have hdev : (sched.setSession idx { s with suspended := none }).pool = w.dev := h.dev.symm
      rw [if_neg hroom] at hwrites
      simp only [set_run, andThen_ok, onPool, hdev, bind_run] at hstep hwrites
      rcases restore_noFault fault s.handle e w.dev with ⟨msg, d, hfault⟩ | hnone
      · rw [hfault] at hwrites
        cases hwrites
      rw [hnone] at hstep
      cases hrun : restore noFault s.handle e w.dev with
      | abort why =>
        rw [hrun] at hstep
        cases hstep
      | err e dev =>
        rw [hrun] at hstep hkept
        cases hstep
        exact hkept dev rfl
      | ok a dev =>
        rw [hrun] at hstep hkept
        cases hstep
        exact hkept dev rfl
  · rw [herr] at hstep
    cases hstep
    exact ⟨w, h⟩

/-! ## Settings and reaping -/

/-- The order and the plan of a quantum are no matter. -/
theorem Tenants.configure (policy : PagedSchedulePolicy) (plan : PagedDecodePlan) :
    Tenants m geom g allSettled log { sched with policy := policy, plan := plan } w :=
  ⟨h.dev, h.sound, h.prefixes, h.ids, h.sessionHandles, h.issued, h.minted, h.logged, h.stages⟩

theorem Tenants.setPriority {priority : Int}
    (hstep : (PagedWorld.mk sched g log).step m (.setPriority id priority) = some u) :
    Kept m geom u := by
  simp only [PagedWorld.step, PagedSessionScheduler.setPriority, bind_run] at hstep
  rcases locate_cases sched id with ⟨idx, s, -, hidx, rfl, hlocate⟩ | herr
  · rw [hlocate] at hstep
    cases hstep
    refine ⟨w, h.relabel hidx rfl rfl rfl ?_⟩
    intro e he
    rcases h.stages s (mem_of_getElem? hidx) with ⟨-, -, hnone⟩ | ⟨hh, hhandle, -⟩
    · rw [show s.suspended = some e from he] at hnone
      cases hnone
    · exact ⟨hh.unreported, hhandle e he⟩
  · rw [herr] at hstep
    cases hstep
    exact ⟨w, h⟩

omit h in
/-- Reaping discards the handles of the finished sessions, and keeps the others. -/
theorem reapLoop_spec (hbs : 0 < geom.blockSize) {l : List (PagedSession V L P)}
    (hsound : ∃ vals, Sound geom w vals) (hissued : ∀ s ∈ l, s.handle ∈ w.issued)
    {r : List (SessionId × List UInt32) × List (PagedSession V L P) × DeviceKvPool V}
    (h : reapLoop l w.dev = some r) :
    r.1 = (l.filter fun s => s.phase = .finished).map (fun s => (s.id, s.tokens)) ∧
    r.2.1 = l.filter (fun s => s.phase ≠ .finished) ∧
    ∃ w', w'.dev = r.2.2 ∧
      Moves geom ((l.filter fun s => s.phase = .finished).map PagedSession.handle) w w' := by
  induction l generalizing w r with
  | nil =>
    cases h
    obtain ⟨vals, hsound⟩ := hsound
    exact ⟨rfl, rfl, w, rfl, .refl hsound _⟩
  | cons s rest ih =>
    unfold reapLoop at h
    split_ifs at h with hfin
    · split at h
      · rename_i a dev hrun
        obtain ⟨r', hr', rfl⟩ := Option.map_eq_some_iff.mp h
        obtain ⟨vals, hs⟩ := hsound
        have hw : w.step (.discard s.handle) = some
            { Tenancy.use { w with dev := dev } s.handle with
              model := w.model.cleared s.handle } := by
          simp only [Tenancy.step, hrun]
          rfl
        have hm := Moves.of_step hs hbs (c := .discard s.handle)
          (hissued s mem_cons_self) hw (by simp)
        obtain ⟨hreaped, hkept, w', hdev, hm'⟩ := ih hm.sound
          (fun x hx => hm.issued _ (hissued x (mem_cons_of_mem _ hx))) hr'
        simp only [filter_cons, hfin, ne_eq, not_true_eq_false, decide_true, decide_false,
          if_true, Bool.false_eq_true, if_false, map_cons]
        refine ⟨by rw [hreaped], hkept, w', hdev, ?_⟩
        exact (hm.mono (by simp [Call.sessions])).trans (hm'.mono fun x hx =>
          mem_cons_of_mem _ hx)
      · cases h
    · obtain ⟨r', hr', rfl⟩ := Option.map_eq_some_iff.mp h
      obtain ⟨hreaped, hkept, hmoves⟩ := ih hsound
        (fun x hx => hissued x (mem_cons_of_mem _ hx)) hr'
      simp only [filter_cons, hfin, ne_eq, not_false_eq_true, decide_true, decide_false,
        if_true, Bool.false_eq_true, if_false]
      exact ⟨hreaped, by rw [hkept], hmoves⟩

/-- Some of the sessions go. -/
theorem Tenants.sublist {l : List (PagedSession V L P)} (hl : l.Sublist sched.sessions) :
    Tenants m geom g allSettled log { sched with sessions := l } w where
  dev := h.dev
  sound := h.sound
  prefixes := h.prefixes
  ids := h.ids.sublist (hl.map _)
  sessionHandles := h.sessionHandles.sublist (hl.map _)
  issued := fun s hs => h.issued s (hl.subset hs)
  minted := fun s hs => h.minted s (hl.subset hs)
  logged := h.logged
  stages := fun s hs => h.stages s (hl.subset hs)

theorem Tenants.reapFinished (hbs : 0 < geom.blockSize)
    (hstep : (PagedWorld.mk sched g log).step m .reapFinished = some u) : Kept m geom u := by
  simp only [PagedWorld.step, PagedSessionScheduler.reapFinished, ← h.dev, Option.map_map] at hstep
  obtain ⟨r, hr, rfl⟩ := Option.map_eq_some_iff.mp hstep
  obtain ⟨-, hkept, w', hdev, hm⟩ := reapLoop_spec hbs h.sound h.issued hr
  have hsub : r.2.1.Sublist sched.sessions := by
    rw [hkept]
    exact filter_sublist
  have hother : ∀ s ∈ r.2.1, s.handle ∉
      (sched.sessions.filter fun s => s.phase = .finished).map PagedSession.handle := by
    intro s hs hmem
    -- a finished session with the handle of one that is kept would be that one
    obtain ⟨x, hx, hhandle⟩ := mem_map.mp hmem
    obtain ⟨hx, hfin⟩ := mem_filter.mp hx
    obtain rfl := inj_on_of_nodup_map h.sessionHandles hx (hsub.subset hs) hhandle
    rw [hkept] at hs
    have := (mem_filter.mp hs).2
    simp only [decide_eq_true_eq] at hfin this
    exact absurd hfin this
  have ht : Tenants m geom g allSettled log { sched with sessions := r.2.1, pool := w'.dev } w' :=
    (h.sublist hsub).move hm (fun _ _ _ => rfl) fun s hs hmem => absurd hmem (hother s hs)
  rw [hdev] at ht
  exact ⟨w', ht⟩

end Calls

end Fuel.Inference
