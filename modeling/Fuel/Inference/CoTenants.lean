import Fuel.Inference.PagedScheduler
import Fuel.Inference.SingleSession

/-!
# Co-tenants of the paged scheduler do not interfere

Every call of the paged scheduler is, on the pool, a sequence of calls of its
sessions as tenants; so each session reads a private cache, whatever the others
do. `Tenants` carries that through the scheduler's bookkeeping: a session that
was never reported in `errored` is at some point of the single-session loop of
its own request.
-/

namespace Fuel.Inference

open Fuel Method KvPool PagedDecodeModel List Function PagedQuantum StepReport PagedSession

variable {V L P : Type} (r r' : StepReport)

/-! ## Reports -/

namespace StepReport

/-- The sessions reported in `errored`. -/
def failed (r : StepReport) : List SessionId := r.errored.map Prod.fst

/-- The report names the session. -/
def Mentions (r : StepReport) (id : SessionId) : Prop :=
  id ∈ r.advanced ∨ id ∈ r.finished ∨ id ∈ r.failed

@[simp] theorem append_advanced :
    (r.append r').advanced = r.advanced ++ r'.advanced := rfl

@[simp] theorem append_finished :
    (r.append r').finished = r.finished ++ r'.finished := rfl

@[simp] theorem append_failed :
    (r.append r').failed = r.failed ++ r'.failed := map_append

theorem append_assoc (r r' r'' : StepReport) :
    (r.append r').append r'' = r.append (r'.append r'') := by
  simp [append, Bool.or_assoc]

@[simp] theorem append_empty (r : StepReport) : r.append {} = r := by
  simp [append]

theorem mentions_append {r r' : StepReport} {id : SessionId} :
    (r.append r').Mentions id ↔ r.Mentions id ∨ r'.Mentions id := by
  simp only [Mentions, append_advanced, append_finished, append_failed, mem_append]
  tauto

end StepReport

/-- The reports of a session: one `advanced` per token, and `finished` once it is. -/
structure Counted (log : StepReport) (s : SessionCore L P) : Prop where
  advanced : log.advanced.count s.id = s.newTokens.length
  finished : log.finished.count s.id = if s.phase = .finished then 1 else 0

/-! ## Following the single-session loop -/

/-- The session is for the request. -/
structure Serves (r : Request P) (s : SessionCore L P) : Prop where
  strategy : s.strategy = r.strategy
  params : s.params = r.params
  eosIds : s.eosIds = normalizeEosIds r.eosIds
  tokens : s.tokens = r.prompt ++ s.newTokens

/-- The last token has been fed and `logits` are to be sampled. -/
structure Pending (m : PagedDecodeModel V L P) (r : Request P) (s : SessionCore L P)
    (cache : List V) (logits : L) : Prop where
  serves : Serves r s
  fed : m.Fed s.tokens cache
  budget : 0 < s.remaining
  rest : m.generate r =
    s.newTokens ++ m.sampleLoop r s.remaining cache logits s.tokens s.rngState

/-- Where a session between two steps is on the way of its request. -/
inductive Follows (m : PagedDecodeModel V L P) (r : Request P) (s : PagedSession V L P)
    (cache : List V) : Prop
  | prefill (serves : Serves r s.toSessionCore) (phase : s.phase = .prefill)
      (newTokens : s.newTokens = []) (rng : s.rngState = r.seed)
      (remaining : s.remaining = r.maxNew) (budget : 0 < r.maxNew)
      (fed : m.Fed (r.prompt.take s.prefillStart) cache)
      (short : s.prefillStart < r.prompt.length) : Follows m r s cache
  | decode {hist : List UInt32} {last : UInt32} (serves : Serves r s.toSessionCore)
      (phase : s.phase = .decode) (tokens : s.tokens = hist ++ [last]) (fed : m.Fed hist cache)
      (budget : 0 < s.remaining)
      (rest : m.generate r = s.newTokens ++ m.resume r s.remaining cache last s.tokens s.rngState) :
      Follows m r s cache
  | finished (serves : Serves r s.toSessionCore) (phase : s.phase = .finished)
      (fed : m.Fed (s.tokens.take cache.length) cache) (done : m.generate r = s.newTokens) :
      Follows m r s cache

namespace Follows

variable {m : PagedDecodeModel V L P} {r : Request P} {s : PagedSession V L P} {cache : List V}
  (h : Follows m r s cache)

include h

theorem serves : Serves r s.toSessionCore := by
  cases h with
  | prefill serves | decode serves | finished serves => exact serves

/-- The cache is that of the first tokens. -/
theorem fed : m.Fed (s.tokens.take cache.length) cache := by
  cases h with
  | prefill serves _ newTokens _ _ _ fed short =>
    have hlen := fed.length
    rw [length_take, Nat.min_eq_left (Nat.le_of_lt short)] at hlen
    rwa [hlen, serves.tokens, newTokens, append_nil]
  | decode _ _ tokens fed =>
    rw [tokens, fed.length, take_left]
    exact fed
  | finished _ _ fed => exact fed

/-- What was generated is where the single-session loop starts. -/
theorem generated : s.newTokens <+: m.generate r := by
  cases h with
  | prefill _ _ newTokens =>
    rw [newTokens]
    exact nil_prefix
  | decode _ _ _ _ _ rest => exact ⟨_, rest.symm⟩
  | finished _ _ _ done => exact done ▸ prefix_rfl

theorem generated_all (hf : s.phase = .finished) : s.newTokens = m.generate r := by
  cases h with
  | prefill _ phase | decode _ phase =>
    rw [phase] at hf
    cases hf
  | finished _ _ _ done => exact done.symm

end Follows

variable {m : PagedDecodeModel V L P} {s : PagedSession V L P}

/-- Once the last token of a decoding session is fed, its logits are to be sampled. -/
theorem Follows.forwarded {r : Request P} {cache : List V} (h : Follows m r s cache)
    (hphase : s.phase = .decode) {token : UInt32} (hlast : s.tokens.getLast? = some token) {v : V}
    {logits : L} (hf : m.forward cache token = .ok (v, logits)) :
    Pending m r s.toSessionCore (cache ++ [v]) logits := by
  cases h with
  | prefill _ hp | finished _ hp =>
    rw [hphase] at hp
    cases hp
  | @decode hist last serves _ tokens fed budget rest =>
    obtain rfl : last = token := by
      rw [tokens, getLast?_concat, Option.some.injEq] at hlast
      exact hlast
    refine ⟨serves, ?_, budget, ?_⟩
    · rw [tokens]
      exact fed.snoc hf
    · simpa only [resume, hf] using rest

/-- An empty list of EOS ids is none. -/
theorem normalizeEosIds_any (eosIds : Option (List UInt32)) (token : UInt32) :
    ((normalizeEosIds eosIds).any fun ids => ids.contains token)
      = eosIds.any fun ids => ids.contains token := by
  cases eosIds with
  | none => rfl
  | some ids => cases ids <;> rfl

/-- One sampled token leads on along the loop. -/
theorem Pending.token {r : Request P} {cache : List V} {logits : L}
    (h : Pending m r s.toSessionCore cache logits) {next : UInt32} {rng : UInt64}
    (hnext : m.sampleNext s.strategy s.params logits s.tokens s.rngState = (.ok next, rng)) :
    Follows m r { s with
      toSessionCore := SessionCore.push { s.toSessionCore with lastLogits := none, rngState := rng }
        next } cache := by
  obtain ⟨n, hn⟩ : ∃ n, s.remaining = n + 1 := ⟨s.remaining - 1, by have := h.budget; omega⟩
  have hrest := h.rest
  rw [h.serves.strategy, h.serves.params] at hnext
  rw [hn, sampleLoop_token hnext] at hrest
  have hserves : Serves (L := L) r (SessionCore.push
      { s.toSessionCore with lastLogits := none, rngState := rng } next) := by
    refine ⟨h.serves.strategy, h.serves.params, h.serves.eosIds, ?_⟩
    show s.tokens ++ [next] = r.prompt ++ (s.newTokens ++ [next])
    rw [h.serves.tokens, List.append_assoc]
  have hstops : SessionCore.stops (L := L) { s.toSessionCore with lastLogits := none, rngState := rng } next
      (s.remaining - 1) = (r.isEos next || n == 0) := by
    show ((s.eosIds.any fun ids => ids.contains next) || s.remaining - 1 == 0) = _
    rw [h.serves.eosIds, normalizeEosIds_any, hn]
    rfl
  rcases SessionCore.push_phase (L := L) { s.toSessionCore with lastLogits := none, rngState := rng } next with
    ⟨hstop, hphase⟩ | ⟨hstop, hphase⟩
  · -- an EOS id, or the end of the budget
    refine .finished hserves hphase ?_ ?_
    · show m.Fed ((s.tokens ++ [next]).take cache.length) cache
      rw [h.fed.length, take_left]
      exact h.fed
    · show _ = s.newTokens ++ [next]
      rw [hrest]
      have hstop := hstops.symm.trans hstop
      rw [Bool.or_eq_true, beq_iff_eq] at hstop
      rcases hstop with heos | rfl
      · simp [heos]
      · simp [resume_zero]
  · have hstop := hstops.symm.trans hstop
    rw [Bool.or_eq_false_iff, beq_eq_false_iff_ne] at hstop
    refine .decode hserves hphase rfl h.fed ?_ ?_
    · show 0 < s.remaining - 1
      omega
    · show _ = (s.newTokens ++ [next]) ++ m.resume r (s.remaining - 1) cache next (s.tokens ++ [next])
        rng
      rw [hrest, hn, hstop.1]
      simp

/-! ## The invariant -/

/-- What is known of a session: it is between two steps, its last token has been fed and the
logits are to be sampled, or a forward of it failed and it is to finish. -/
inductive Stage (L : Type) where
  | settled
  | sampling (logits : L)
  | failed

/-- What the specification remembers: the requests the sessions were admitted with, and the
donor's tokens that each prefix covers. -/
structure Roster (P : Type) where
  requests : SessionId → Option (Request P)
  donorTokens : PrefixId → List UInt32

/-- The session was never reported in `errored`, and its handle is in use. -/
structure Healthy (log : StepReport) (w : Tenancy V) (s : PagedSession V L P) : Prop where
  unreported : s.id ∉ log.failed
  usable : s.handle ∉ w.refused
  counted : Counted log s.toSessionCore

/-- What holds of a session, by its stage. -/
def StageOk (m : PagedDecodeModel V L P) (g : Roster P) (log : StepReport) (w : Tenancy V)
    (s : PagedSession V L P) : Stage L → Prop
  | .settled => (s.id ∈ log.failed ∧ s.phase = .finished ∧ s.suspended = none) ∨
      (Healthy log w s ∧ (∀ e, s.suspended = some e → w.handles s.handle = some e) ∧
        ∃ r, g.requests s.id = some r ∧ Follows m r s (w.model.caches s.handle))
  | .sampling logits => Healthy log w s ∧ s.suspended = none ∧ s.phase ≠ .finished ∧
      ∃ r, g.requests s.id = some r ∧
        Pending m r s.toSessionCore (w.model.caches s.handle) logits
  | .failed => s.suspended = none

/-- The invariant of the scheduler, beside the private caches of its sessions. -/
structure Tenants (m : PagedDecodeModel V L P) (geom : KvGeometry) (g : Roster P)
    (stage : SessionId → Stage L) (log : StepReport) (sched : PagedSessionScheduler V L P)
    (w : Tenancy V) : Prop where
  dev : w.dev = sched.pool
  sound : ∃ vals, Sound geom w vals
  prefixes : ∀ id, m.Fed (g.donorTokens id) (w.model.prefixes id)
  ids : (sched.sessions.map fun s => s.id).Nodup
  sessionHandles : (sched.sessions.map handle).Nodup
  issued : ∀ s ∈ sched.sessions, s.handle ∈ w.issued
  minted : ∀ s ∈ sched.sessions, s.id < sched.nextId
  logged : ∀ id, log.Mentions id → id < sched.nextId
  stages : ∀ s ∈ sched.sessions, StageOk m g log w s (stage s.id)

/-- Everything is settled: the state between two calls. -/
abbrev allSettled : SessionId → Stage L := fun _ => .settled

theorem Counted.append {log r : StepReport} {s : SessionCore L P} (h : Counted log s)
    (hr : ¬ r.Mentions s.id) : Counted (log.append r) s := by
  have hadv : s.id ∉ r.advanced := fun hmem => hr (.inl hmem)
  have hfin : s.id ∉ r.finished := fun hmem => hr (.inr (.inl hmem))
  refine ⟨?_, ?_⟩
  · rw [append_advanced, count_append, count_eq_zero_of_not_mem hadv]
    exact h.advanced
  · rw [append_finished, count_append, count_eq_zero_of_not_mem hfin]
    exact h.finished

/-- A report on others, and calls of others, are of no concern to a session. -/
theorem StageOk.elsewhere {g : Roster P} {log r : StepReport} {geom : KvGeometry}
    {S : List SessionHandle} {w w' : Tenancy V} {stage : Stage L} (h : StageOk m g log w s stage)
    (hm : Moves geom S w w') (hs : s.handle ∈ w.issued) (hS : s.handle ∉ S) (hr : ¬ r.Mentions s.id) :
    StageOk m g (log.append r) w' s stage := by
  have hfailed : s.id ∈ (log.append r).failed ↔ s.id ∈ log.failed := by
    have : s.id ∉ r.failed := fun hmem => hr (.inr (.inr hmem))
    simp [this]
  have hhealthy : Healthy log w s → Healthy (log.append r) w' s := by
    rintro ⟨hunrep, husable, hcounted⟩
    exact ⟨by rwa [hfailed], hm.refused _ hs hS husable, hcounted.append hr⟩
  cases stage with
  | failed => exact h
  | sampling logits =>
    obtain ⟨hh, hsusp, hphase, req, hreq, hpending⟩ := h
    refine ⟨hhealthy hh, hsusp, hphase, req, hreq, ?_⟩
    rwa [hm.caches _ hs hS]
  | settled =>
    rcases h with ⟨hf, hphase, hsusp⟩ | ⟨hh, hhandle, req, hreq, hfollows⟩
    · exact .inl ⟨hfailed.mpr hf, hphase, hsusp⟩
    · refine .inr ⟨hhealthy hh, ?_, req, hreq, ?_⟩
      · rw [hm.handles _ hs hS]
        exact hhandle
      · rwa [hm.caches _ hs hS]

section Steps

variable {m : PagedDecodeModel V L P} {geom : KvGeometry} {g : Roster P}
  {stage : SessionId → Stage L} {log : StepReport} {sched : PagedSessionScheduler V L P}
  {w w' : Tenancy V} {stage' : SessionId → Stage L} {idx i : Nat} {s : PagedSession V L P}
  {out : SessionCore L P × StepReport} {logits : L} {q q' : PagedQuantum V L P}
  {phase : SessionPhase} {idxs : List Nat} {ss : List (PagedSession V L P)}

/-- Calls on the pool: the sessions they are on get a new stage. -/
theorem Tenants.move (h : Tenants m geom g stage log sched w) {S : List SessionHandle}
    (hm : Moves geom S w w') (hout : ∀ s ∈ sched.sessions, s.handle ∉ S → stage' s.id = stage s.id)
    (hin : ∀ s ∈ sched.sessions, s.handle ∈ S → StageOk m g log w' s (stage' s.id)) :
    Tenants m geom g stage' log { sched with pool := w'.dev } w' := { h with
  dev := rfl
  sound := hm.sound
  prefixes := by
    rw [hm.prefixes]
    exact h.prefixes
  issued := fun s hs => hm.issued _ (h.issued s hs)
  stages := by
    intro s hs
    by_cases hS : s.handle ∈ S
    · exact hin s hs hS
    · rw [hout s hs hS, ← append_empty log]
      exact (h.stages s hs).elsewhere hm (h.issued s hs) hS (by simp [StepReport.Mentions,
        failed]) }

/-- A session is replaced, and a report made on it. -/
theorem Tenants.replace (h : Tenants m geom g stage log sched w)
    (hidx : sched.sessions[idx]? = some s) (s' : PagedSession V L P) (hid : s'.id = s.id)
    (hhandle : s'.handle = s.handle) {r : StepReport} (hr : ∀ id, r.Mentions id → id = s.id)
    (hstage : ∀ id, id ≠ s.id → stage' id = stage id)
    (hs' : StageOk m g (log.append r) w s' (stage' s.id)) :
    Tenants m geom g stage' (log.append r) (sched.setSession idx s') w := by
  have hmem := mem_of_getElem? hidx
  have hcases : ∀ x ∈ sched.sessions.set idx s', x = s' ∨ x ∈ sched.sessions ∧ x.id ≠ s.id :=
    fun x hx => mem_set_cases h.ids hidx hx
  refine ⟨h.dev, h.sound, h.prefixes, ?_, ?_, ?_, ?_, ?_, ?_⟩
  · show ((sched.sessions.set idx s').map _).Nodup
    rw [map_set_of_eq _ hidx hid]
    exact h.ids
  · show ((sched.sessions.set idx s').map _).Nodup
    rw [map_set_of_eq _ hidx hhandle]
    exact h.sessionHandles
  · intro x hx
    rcases hcases x hx with rfl | ⟨hold, -⟩
    · rw [hhandle]
      exact h.issued s hmem
    · exact h.issued x hold
  · intro x hx
    rcases hcases x hx with rfl | ⟨hold, -⟩
    · rw [hid]
      exact h.minted s hmem
    · exact h.minted x hold
  · intro id hid
    rcases mentions_append.mp hid with hold | hnew
    · exact h.logged id hold
    · rw [hr id hnew]
      exact h.minted s hmem
  · intro x hx
    rcases hcases x hx with rfl | ⟨hold, hne⟩
    · rw [hid]
      exact hs'
    · rw [hstage x.id hne]
      obtain ⟨vals, hsound⟩ := h.sound
      exact (h.stages x hold).elsewhere (.refl hsound []) (h.issued x hold) (by simp)
        fun hment => hne (hr _ hment)

/-- A report that names at most one session. -/
def StepReport.On (r : StepReport) (id : SessionId) : Prop := ∀ id', r.Mentions id' → id' = id

theorem StepReport.on_empty (id : SessionId) : StepReport.On {} id := by
  rintro id' (hmem | hmem | hmem) <;> cases hmem

theorem SessionCore.finishError_on (s : SessionCore L P) (msg : String) :
    (s.finishError msg).2.On s.id := by
  rintro id (hmem | hmem | hmem)
  · cases hmem
  · exact mem_singleton.mp hmem
  · exact mem_singleton.mp hmem

theorem SessionCore.Sampled.on {sampleNext : Sampler L P} {s : SessionCore L P}
    (h : SessionCore.Sampled sampleNext s out) : out.2.On s.id := by
  cases h with
  | idle => exact on_empty s.id
  | failed logits msg rng =>
    exact SessionCore.finishError_on { s with lastLogits := none, rngState := rng } msg
  | token logits next rng =>
    rintro id (hmem | hmem | hmem)
    · exact mem_singleton.mp hmem
    · dsimp only at hmem
      split at hmem
      · exact mem_singleton.mp hmem
      · cases hmem
    · cases hmem

/-- A session reported in `errored`. -/
theorem StageOk.finished_with_error (hsusp : s.suspended = none) (c : SessionCore L P)
    (hc : c.id = s.id) (msg : String) :
    (c.finishError msg).1.id = s.id ∧ (c.finishError msg).2.On s.id ∧
      StageOk m g (log.append (c.finishError msg).2) w
        { s with toSessionCore := (c.finishError msg).1 } .settled := by
  refine ⟨hc, hc ▸ c.finishError_on msg, .inl ⟨?_, rfl, hsusp⟩⟩
  · rw [append_failed]
    exact mem_append_right _ mem_cons_self

/-- A session that samples its pending logits goes on along its loop, or is reported. -/
theorem StageOk.sampled (h : StageOk m g log w s (.sampling logits))
    (hl : s.lastLogits = some logits) (hout : SessionCore.Sampled m.labelled s.toSessionCore out) :
    out.1.id = s.id ∧ out.2.On s.id ∧
      StageOk m g (log.append out.2) w { s with toSessionCore := out.1 } .settled := by
  obtain ⟨hh, hsusp, hrun, r, hr, hp⟩ := h
  have hon := hout.on
  cases hout with
  | idle hidle =>
    rcases hidle with hf | hnone
    · exact absurd hf hrun
    · rw [hnone] at hl
      cases hl
  | failed logits' msg rng _ _ _ =>
    exact StageOk.finished_with_error hsusp
      { s.toSessionCore with lastLogits := none, rngState := rng } rfl msg
  | token logits' next rng _ hl' hnext =>
    obtain rfl : logits = logits' := Option.mem_unique hl hl'
    have hnext : m.sampleNext s.strategy s.params logits s.tokens s.rngState = (.ok next, rng) := by
      simp only [PagedDecodeModel.labelled] at hnext
      split at hnext
      · rename_i hs
        rw [hs]
        simpa using hnext
      · cases hnext
    have hnone : log.finished.count s.id = 0 := by
      rw [hh.counted.finished, if_neg hrun]
    refine ⟨rfl, hon, .inr ⟨⟨?_, hh.usable, ?_, ?_⟩, ?_, r, hr, hp.token hnext⟩⟩
    · show s.id ∉ _
      rw [append_failed]
      simpa [failed] using hh.unreported
    · show (log.advanced ++ [s.id]).count s.id = (s.newTokens ++ [next]).length
      rw [count_append, hh.counted.advanced]
      simp
    · show (log.finished ++ if s.toSessionCore.stops next (s.remaining - 1) = true then [s.id]
        else []).count s.id = if (if s.toSessionCore.stops next (s.remaining - 1) = true then
          SessionPhase.finished else .decode) = .finished then 1 else 0
      rw [count_append, hnone]
      split <;> simp
    · intro e he
      rw [show s.suspended = some e from he] at hsusp
      cases hsusp

/-- The stages, with one session settled. -/
def settle (stage : SessionId → Stage L) (id : SessionId) : SessionId → Stage L :=
  Function.update stage id .settled

section Session

variable (h : Tenants m geom g stage (log.append q.report) q.sched w)
  (hidx : q.sched.sessions[idx]? = some s)

include h hidx

theorem Tenants.settle_session (s₁ : PagedSession V L P) (hhandle : s₁.handle = s.handle)
    (hid : out.1.id = s.id) (hon : out.2.On s.id)
    (hok : StageOk m g ((log.append q.report).append out.2) w { s₁ with toSessionCore := out.1 }
      .settled) : Tenants m geom g (settle stage s.id) (log.append (q.replace idx s₁ out).report)
      (q.replace idx s₁ out).sched w := by
  simp only [PagedQuantum.replace]
  rw [← StepReport.append_assoc]
  refine h.replace hidx { s₁ with toSessionCore := out.1 } hid hhandle hon ?_ ?_
  · intro id hne
    exact update_of_ne hne _ _
  · rw [settle, update_self]
    exact hok

theorem Tenants.sample (hst : stage s.id = .sampling logits) (hphase : phase ≠ .finished) :
    Tenants m geom g (settle stage s.id)
      (log.append (q.sample m idx { s with phase := phase } (some logits)).report)
      (q.sample m idx { s with phase := phase } (some logits)).sched w := by
  have hok := h.stages s (mem_of_getElem? hidx)
  rw [hst] at hok
  obtain ⟨hh, hsusp, hrun, r, hr, hp⟩ := hok
  have hok' : StageOk m g (log.append q.report) w
      { s with phase := phase, lastLogits := some logits } (.sampling logits) := by
    refine ⟨⟨hh.unreported, hh.usable, hh.counted.advanced, ?_⟩, hsusp, hphase, r, hr,
      ⟨hp.serves.strategy, hp.serves.params, hp.serves.eosIds, hp.serves.tokens⟩, hp.fed,
      hp.budget, hp.rest⟩
    have hnone := hh.counted.finished
    rw [if_neg hrun] at hnone
    rw [if_neg hphase]
    exact hnone
  obtain ⟨hid, hon, hsettled⟩ := hok'.sampled rfl (SessionCore.finalizeAdvance_ok m.labelled _)
  exact h.settle_session hidx { s with phase := phase } rfl hid hon hsettled

theorem Tenants.finishError (hsusp : s.suspended = none) (msg : String) :
    Tenants m geom g (settle stage s.id)
      (log.append (q.finishError idx s msg).report) (q.finishError idx s msg).sched w := by
  obtain ⟨hid, hon, hok⟩ : _ ∧ _ ∧ StageOk m g ((log.append q.report).append
      (s.toSessionCore.finishError msg).2) w _ .settled :=
    StageOk.finished_with_error hsusp s.toSessionCore rfl msg
  exact h.settle_session hidx s rfl hid hon hok

end Session

/-! ## Visits -/

/-- How feeding a list of tokens ends: as the single-session loop feeds them, or with an error,
and at most the session itself touched. -/
inductive FedPrompt (m : PagedDecodeModel V L P) (geom : KvGeometry) (w : Tenancy V)
    (s : SessionHandle) (tokens : List UInt32) (last : Option L) :
    Outcome ForwardError (DeviceKvPool V) (Option L) → Prop
  | ok {w' : Tenancy V} {logits : Option L} (moves : Moves geom [s] w w')
      (fed : m.feed (w.model.caches s) last tokens = .ok (w'.model.caches s, logits))
      (usable : s ∉ w'.refused) : FedPrompt m geom w s tokens last (.ok logits w'.dev)
  | err {w' : Tenancy V} (e : ForwardError) (moves : Moves geom [s] w w') :
      FedPrompt m geom w s tokens last (.err e w'.dev)
  | abort (why : Abort) : FedPrompt m geom w s tokens last (.abort why)

theorem feedPrompt_spec {vals : SessionHandle → List V} (h : Sound geom w vals)
    (hbs : 0 < geom.blockSize) {s : SessionHandle} (hs : s ∈ w.issued) (hr : s ∉ w.refused)
    (plan : PagedDecodePlan) (cap : Nat) (tokens : List UInt32) (last : Option L) :
    FedPrompt m geom w s tokens last (feedPrompt m plan cap s tokens last w.dev) := by
  induction tokens generalizing w vals last with
  | nil => exact .ok (.refl h _) rfl hr
  | cons token rest ih =>
    have hforward := forwardPagedStepPersistent_spec h hbs hs hr m token cap plan
    unfold feedPrompt
    rw [bind_run]
    generalize forwardPagedStepPersistent m token s cap plan w.dev = out at hforward
    cases hforward with
    | abort why => exact .abort why
    | err e moves => exact .err e moves
    | @ok w₁ v logits moves computed cache usable =>
      obtain ⟨vals₁, hsound₁⟩ := moves.sound
      have hrest := ih hsound₁ (moves.issued s hs) usable (some logits)
      rw [Outcome.andThen_ok]
      generalize feedPrompt m plan cap s rest (some logits) w₁.dev = out at hrest
      cases hrest with
      | abort why => exact .abort why
      | err e moves' => exact .err e (moves.trans moves')
      | ok moves' fed usable' =>
        refine .ok (moves.trans moves') ?_ usable'
        rw [cache] at fed
        simp only [PagedDecodeModel.feed, computed]
        exact fed

/-- The state of a quantum: settled, beside the private caches. -/
def Settled (m : PagedDecodeModel V L P) (geom : KvGeometry) (g : Roster P) (log : StepReport)
    (q : PagedQuantum V L P) : Prop :=
  ∃ w, Tenants m geom g allSettled (log.append q.report) q.sched w

/-- The stage of one session, the others being settled. -/
def stageAt (id : SessionId) (stage : Stage L) : SessionId → Stage L :=
  Function.update allSettled id stage

theorem settle_stageAt (id : SessionId) (stage : Stage L) :
    settle (stageAt id stage) id = allSettled := by
  unfold settle stageAt
  rw [update_idem, update_eq_self]

/-- A session is at the index, in the phase, and not suspended. -/
def ReadyAt (sched : PagedSessionScheduler V L P) (phase : SessionPhase) (i : Nat) : Prop :=
  ∃ s, sched.sessions[i]? = some s ∧ s.phase = phase ∧ s.suspended = none

/-- A session that is ready to be served follows its request. -/
theorem Tenants.ready_at (h : Tenants m geom g allSettled log sched w)
    (hready : ReadyAt sched phase i) (hphase : phase ≠ .finished) :
    ∃ s r, sched.sessions[i]? = some s ∧ s.phase = phase ∧ s.suspended = none ∧ Healthy log w s ∧
      g.requests s.id = some r ∧ Follows m r s (w.model.caches s.handle) := by
  obtain ⟨s, hs, rfl, hnone⟩ := hready
  rcases h.stages s (mem_of_getElem? hs) with ⟨-, hf, -⟩ | ⟨hh, -, r, hr, hfollows⟩
  · exact absurd hf hphase
  · exact ⟨s, r, hs, rfl, hnone, hh, hr, hfollows⟩

/-- Calls on one session, with the stage they leave it in. -/
theorem Tenants.move_one (h : Tenants m geom g allSettled log sched w) (hs : s ∈ sched.sessions)
    (hm : Moves geom [s.handle] w w') (stage : Stage L) (hok : StageOk m g log w' s stage) :
    Tenants m geom g (stageAt s.id stage) log { sched with pool := w'.dev } w' := by
  have hsame : ∀ x ∈ sched.sessions, x.handle = s.handle → x = s := by
    intro x hx heq
    exact inj_on_of_nodup_map h.sessionHandles hx hs heq
  refine h.move hm ?_ ?_
  · intro x hx hne
    refine update_of_ne ?_ _ _
    intro hid
    have hxs : x = s := inj_on_of_nodup_map h.ids hx hs hid
    exact hne (by simp [hxs])
  · intro x hx hmem
    rw [mem_singleton] at hmem
    rw [hsame x hx hmem, stageAt, update_self]
    exact hok

/-- A forward of one session failed. -/
theorem Tenants.fail_one (h : Tenants m geom g allSettled (log.append q.report) q.sched w)
    (hidx : q.sched.sessions[idx]? = some s) (hsusp : s.suspended = none)
    (hm : Moves geom [s.handle] w w') (msg : String) :
    Settled m geom g log ((q.withPool w'.dev).finishError idx s msg) := by
  have hmoved : Tenants m geom g _ (log.append (q.withPool w'.dev).report)
      (q.withPool w'.dev).sched w' := h.move_one (mem_of_getElem? hidx) hm .failed hsusp
  have hdone := hmoved.finishError hidx hsusp msg
  rw [settle_stageAt] at hdone
  exact ⟨w', hdone⟩

/-- A forward of one session succeeded, and its logits are sampled. -/
theorem Tenants.sample_one (h : Tenants m geom g allSettled (log.append q.report) q.sched w)
    (hidx : q.sched.sessions[idx]? = some s) (hm : Moves geom [s.handle] w w')
    (hok : StageOk m g (log.append q.report) w' s (.sampling logits)) (phase : SessionPhase)
    (hphase : phase ≠ .finished) : Settled m geom g log
      ((q.withPool w'.dev).sample m idx { s with phase := phase } (some logits)) := by
  have hmoved : Tenants m geom g _ (log.append (q.withPool w'.dev).report)
      (q.withPool w'.dev).sched w' := h.move_one (mem_of_getElem? hidx) hm _ hok
  have hdone := hmoved.sample hidx (update_self _ _ _) hphase
  rw [settle_stageAt] at hdone
  exact ⟨w', hdone⟩

/-- Calls of a session itself leave it healthy as long as its handle is usable. -/
theorem Healthy.moved (h : Healthy log w s) (husable : s.handle ∉ w'.refused) : Healthy log w' s :=
  ⟨h.unreported, husable, h.counted⟩

theorem Settled.prefill (h : Settled m geom g log q) (hbs : 0 < geom.blockSize)
    (hready : ReadyAt q.sched .prefill idx) (hrun : q.prefill m idx = some q') :
    Settled m geom g log q' := by
  obtain ⟨w, h⟩ := h
  obtain ⟨s, r, hidx, hphase, hsusp, hh, hr, hfollows⟩ := h.ready_at hready (by simp)
  have hmem := mem_of_getElem? hidx
  have hgoing : s.phase ≠ .finished := by simp [hphase]
  cases hfollows with
  | decode _ hp | finished _ hp =>
    rw [hphase] at hp
    cases hp
  | prefill serves _ newTokens rng remaining budget fed short =>
    have htokens : s.tokens = r.prompt := by rw [serves.tokens, newTokens, append_nil]
    have hdrop : s.tokens.drop (min s.prefillStart s.tokens.length)
        = r.prompt.drop s.prefillStart := by
      rw [htokens, Nat.min_eq_left (Nat.le_of_lt short)]
    obtain ⟨vals, hsound⟩ := h.sound
    have hspec := feedPrompt_spec (m := m) hsound hbs (h.issued s hmem) hh.usable q.sched.plan
      s.maxBlocksCap (r.prompt.drop s.prefillStart) none
    unfold PagedQuantum.prefill at hrun
    rw [hidx] at hrun
    dsimp only at hrun
    rw [hdrop, ← h.dev] at hrun
    generalize feedPrompt m q.sched.plan s.maxBlocksCap s.handle
      (r.prompt.drop s.prefillStart) none w.dev = out at hspec hrun
    cases hspec with
    | abort why => cases hrun
    | err e moves =>
      cases hrun
      exact h.fail_one hidx hsusp moves _
    | @ok w' logits moves hfed usable =>
      cases hrun
      -- the shared part was fed by the donor, the rest here
      have hrest : r.prompt.drop s.prefillStart ≠ [] := by
        rw [ne_eq, drop_eq_nil_iff]
        omega
      obtain ⟨⟨last, rfl⟩, hany⟩ := feed_eq_some hrest hfed
      obtain ⟨first, hfirst⟩ := fed
      have hprompt : m.feed [] none r.prompt = .ok (w'.model.caches s.handle, some last) := by
        rw [← take_append_drop s.prefillStart r.prompt, feed_append, hfirst]
        exact hany first
      refine h.sample_one hidx moves ⟨hh.moved usable, hsusp, hgoing, r, hr, serves, ?_, ?_, ?_⟩
        .decode (by simp)
      · rw [htokens]
        exact ⟨some last, hprompt⟩
      · rw [remaining]
        exact budget
      · simp only [PagedDecodeModel.generate, hprompt]
        rw [newTokens, remaining, htokens, rng]
        rfl

theorem Settled.decodeOne (h : Settled m geom g log q) (hbs : 0 < geom.blockSize)
    (hready : ReadyAt q.sched .decode idx) (hrun : q.decodeOne m idx = some q') :
    Settled m geom g log q' := by
  obtain ⟨w, h⟩ := h
  obtain ⟨s, r, hidx, hphase, hsusp, hh, hr, hfollows⟩ := h.ready_at hready (by simp)
  have hmem := mem_of_getElem? hidx
  have hgoing : s.phase ≠ .finished := by simp [hphase]
  unfold PagedQuantum.decodeOne at hrun
  rw [hidx] at hrun
  dsimp only at hrun
  cases hlast : s.tokens.getLast? with
  | none =>
    rw [hlast] at hrun
    cases hrun
    have hdone := h.finishError hidx hsusp "PagedSessionScheduler: decode on empty token history"
    rw [settle, update_eq_self] at hdone
    exact ⟨w, hdone⟩
  | some token =>
    rw [hlast] at hrun
    dsimp only at hrun
    obtain ⟨vals, hsound⟩ := h.sound
    have hspec := forwardPagedStepPersistent_spec hsound hbs (h.issued s hmem) hh.usable m token
      s.maxBlocksCap q.sched.plan
    rw [← h.dev] at hrun
    generalize forwardPagedStepPersistent m token s.handle s.maxBlocksCap q.sched.plan w.dev = out
      at hspec hrun
    cases hspec with
    | abort why => cases hrun
    | err e moves =>
      cases hrun
      exact h.fail_one hidx hsusp moves _
    | ok moves computed cache usable =>
      cases hrun
      have hp := hfollows.forwarded hphase hlast computed
      rw [← cache] at hp
      exact h.sample_one hidx moves ⟨hh.moved usable, hsusp, hgoing, r, hr, hp⟩ s.phase hgoing

/-! ## Batches -/

theorem Tenants.congr_stage (h : Tenants m geom g stage log sched w)
    (hsame : ∀ s ∈ sched.sessions, stage' s.id = stage s.id) :
    Tenants m geom g stage' log sched w := { h with
  stages := by
    intro s hs
    rw [hsame s hs]
    exact h.stages s hs }

/-- A report that names nobody. -/
theorem Tenants.report (h : Tenants m geom g stage log sched w) {r : StepReport}
    (hr : ∀ id, ¬ r.Mentions id) : Tenants m geom g stage (log.append r) sched w := { h with
  logged := by
    intro id hid
    rcases mentions_append.mp hid with hold | hnew
    · exact h.logged id hold
    · exact absurd hnew (hr id)
  stages := by
    intro s hs
    obtain ⟨vals, hsound⟩ := h.sound
    exact (h.stages s hs).elsewhere (.refl hsound []) (h.issued s hs) (by simp) (hr s.id) }

/-- The other sessions are where they were. -/
theorem replace_elsewhere (q : PagedQuantum V L P) (hne : idx ≠ i) (s : PagedSession V L P)
    (r : SessionCore L P × StepReport) :
    (q.replace idx s r).sched.sessions[i]? = q.sched.sessions[i]? :=
  getElem?_set_ne hne

/-- Sessions at different places have different ids. -/
theorem Tenants.id_ne (h : Tenants m geom g stage log sched w) {j : Nat} {s' : PagedSession V L P}
    (hi : sched.sessions[i]? = some s) (hj : sched.sessions[j]? = some s') (hij : i ≠ j) :
    s'.id ≠ s.id := by
  intro heq
  apply hij
  have hlt : i < (sched.sessions.map fun s => s.id).length := by
    rw [length_map]
    exact lt_of_getElem? hi
  refine (getElem?_inj hlt h.ids).mp ?_
  rw [getElem?_map, getElem?_map, hi, hj, Option.map_some, Option.map_some, heq]

/-- A loop over the sessions of a batch: each is settled in turn. -/
theorem Tenants.serveAll {β : Type} {serve : β → SessionCore L P → SessionCore L P × StepReport}
    (good : β → Stage L → PagedSession V L P → Prop)
    (hserve : ∀ {q : PagedQuantum V L P} {stage : SessionId → Stage L} {idx : Nat}
      {s : PagedSession V L P} {b : β},
      Tenants m geom g stage (log.append q.report) q.sched w → q.sched.sessions[idx]? = some s →
      good b (stage s.id) s → (serve b s.toSessionCore).1.id = s.id ∧
        Tenants m geom g (settle stage s.id)
          (log.append (q.replace idx s (serve b s.toSessionCore)).report)
          (q.replace idx s (serve b s.toSessionCore)).sched w) {visits : List (Nat × β)}
    (h : Tenants m geom g stage (log.append q.report) q.sched w)
    (hnodup : (visits.map Prod.fst).Nodup)
    (hin : ∀ v ∈ visits, ∃ s, q.sched.sessions[v.1]? = some s ∧ good v.2 (stage s.id) s)
    (hout : ∀ i s, q.sched.sessions[i]? = some s → i ∉ visits.map Prod.fst → stage s.id = .settled)
    (hrun : serveAll serve visits q = some q') : Settled m geom g log q' := by
  induction visits generalizing q stage with
  | nil =>
    cases hrun
    refine ⟨w, h.congr_stage ?_⟩
    intro s hs
    obtain ⟨i, hi⟩ := mem_iff_getElem?.mp hs
    exact (hout i s hi (by simp)).symm
  | cons v rest ih =>
    obtain ⟨idx, b⟩ := v
    rw [map_cons, nodup_cons] at hnodup
    obtain ⟨hnotin, hnodup⟩ := hnodup
    obtain ⟨s, hidx, hgood⟩ := hin (idx, b) mem_cons_self
    unfold serveAll at hrun
    rw [hidx] at hrun
    obtain ⟨hid, hserved⟩ := hserve h hidx hgood
    have helse : ∀ i, idx ≠ i → (q.replace idx s (serve b s.toSessionCore)).sched.sessions[i]?
        = q.sched.sessions[i]? := fun i hne => replace_elsewhere q hne s _
    have hne : ∀ v ∈ rest, idx ≠ v.1 := by
      rintro v hv rfl
      exact hnotin (show v.1 ∈ rest.map Prod.fst from mem_map_of_mem hv)
    refine ih hserved hnodup ?_ ?_ hrun
    · intro v hv
      obtain ⟨s', hidx', hgood'⟩ := hin v (mem_cons_of_mem _ hv)
      rw [helse v.1 (hne v hv)]
      refine ⟨s', hidx', ?_⟩
      rw [settle, update_of_ne (h.id_ne hidx hidx' (hne v hv))]
      exact hgood'
    intro i s' hi hnot
    by_cases hii : idx = i
    · -- the session just served
      subst hii
      have hset : (q.sched.sessions.set idx _)[idx]? = some s' := hi
      rw [getElem?_set_self (lt_of_getElem? hidx)] at hset
      cases hset
      rw [show (serve b s.toSessionCore).1.id = s.id from hid]
      exact update_self _ _ _
    · rw [helse i hii] at hi
      rw [settle, update_of_ne (h.id_ne hidx hi hii)]
      refine hout i s' hi ?_
      simpa [Ne.symm hii] using hnot

theorem Tenants.finishAll {msg : String}
    (h : Tenants m geom g stage (log.append q.report) q.sched w) (hnodup : idxs.Nodup)
    (hin : ∀ i ∈ idxs, ∃ s, q.sched.sessions[i]? = some s ∧ s.suspended = none)
    (hout : ∀ i s, q.sched.sessions[i]? = some s → i ∉ idxs → stage s.id = .settled)
    (hrun : finishAll msg idxs q = some q') : Settled m geom g log q' := by
  have hfst : (idxs.map fun i => (i, ())).map Prod.fst = idxs := by
    rw [map_map]
    exact map_id _
  refine Tenants.serveAll (fun _ _ s => s.suspended = none) ?_ h ?_ ?_ ?_ hrun
  · intro q stage idx s _ h hidx hsusp
    exact ⟨rfl, h.finishError hidx hsusp msg⟩
  · rwa [hfst]
  · intro v hv
    obtain ⟨i, hi, rfl⟩ := mem_map.mp hv
    exact hin i hi
  · rwa [hfst]

theorem Tenants.sampleAll {rows : List (Nat × L)}
    (h : Tenants m geom g stage (log.append q.report) q.sched w)
    (hnodup : (rows.map Prod.fst).Nodup)
    (hin : ∀ r ∈ rows, ∃ s, q.sched.sessions[r.1]? = some s ∧ s.phase ≠ .finished ∧
      stage s.id = .sampling r.2)
    (hout : ∀ i s, q.sched.sessions[i]? = some s → i ∉ rows.map Prod.fst → stage s.id = .settled)
    (hrun : sampleAll m rows q = some q') : Settled m geom g log q' := by
  refine Tenants.serveAll (fun row st s => s.phase ≠ .finished ∧ st = .sampling row) ?_ h
    hnodup hin hout hrun
  intro q stage idx s row h hidx hgood
  obtain ⟨hgoing, hst⟩ := hgood
  exact ⟨(SessionCore.finalizeAdvance_ok m.labelled _).id_eq, h.sample hidx hst hgoing⟩

theorem batchSessions_eq_some (h : q.batchSessions idxs = some ss) :
    List.Forall₂ (fun i s => q.sched.sessions[i]? = some s) idxs ss := by
  induction idxs generalizing ss with
  | nil =>
    cases h
    exact .nil
  | cons i rest ih =>
    unfold batchSessions at h
    split at h
    · rename_i s ss' hs hss
      cases h
      exact .cons hs (ih hss)
    · cases h

theorem lastTokens_eq_some {tokens : List UInt32} (h : lastTokens ss = some tokens) :
    List.Forall₂ (fun s t => s.tokens.getLast? = some t) ss tokens := by
  induction ss generalizing tokens with
  | nil =>
    cases h
    exact .nil
  | cons s rest ih =>
    unfold lastTokens at h
    split at h
    · rename_i t ts ht hts
      cases h
      exact .cons ht (ih hts)
    · cases h

/-- The stages of a batch that is to be sampled. -/
def stageRows (ids : List SessionId) (rows : List L) (id : SessionId) : Stage L :=
  match (ids.zip rows).lookup id with
  | some row => .sampling row
  | none => .settled

/-- The sessions of a batch, at their places in the scheduler. -/
structure Chosen (sched : PagedSessionScheduler V L P) (idxs : List Nat)
    (ss : List (PagedSession V L P)) : Prop where
  nodup : idxs.Nodup
  places : List.Forall₂ (fun i s => sched.sessions[i]? = some s) idxs ss

namespace Chosen

variable {idxs : List Nat} {ss : List (PagedSession V L P)} {s : PagedSession V L P}
  (h : Chosen sched idxs ss)

include h

theorem mem (hs : s ∈ ss) : ∃ i ∈ idxs, sched.sessions[i]? = some s := by
  obtain ⟨k, hk⟩ := mem_iff_getElem?.mp hs
  obtain ⟨i, hi, his⟩ := forall₂_getElem? h.places.flip hk
  exact ⟨i, mem_of_getElem? hi, his⟩

theorem mem_sessions (hs : s ∈ ss) : s ∈ sched.sessions := by
  obtain ⟨i, -, hi⟩ := h.mem hs
  exact mem_of_getElem? hi

variable (ht : Tenants m geom g stage log sched w)

include ht

/-- A session of the scheduler is in the batch if its handle is. -/
theorem mem_of_handle (hs : s ∈ sched.sessions) (hmem : s.handle ∈ ss.map handle) : s ∈ ss := by
  obtain ⟨s', hs', heq⟩ := mem_map.mp hmem
  exact inj_on_of_nodup_map ht.sessionHandles (h.mem_sessions hs') hs heq ▸ hs'

theorem mem_of_id (hs : s ∈ sched.sessions) (hmem : s.id ∈ ss.map fun s => s.id) : s ∈ ss := by
  obtain ⟨s', hs', heq⟩ := mem_map.mp hmem
  exact inj_on_of_nodup_map ht.ids (h.mem_sessions hs') hs heq ▸ hs'

/-- A session at another place is not in the batch. -/
theorem not_mem_of_place {i : Nat} (hi : sched.sessions[i]? = some s) (hnot : i ∉ idxs) :
    s.id ∉ ss.map fun s => s.id := by
  intro hmem
  obtain ⟨s', hs', heq⟩ := mem_map.mp hmem
  obtain ⟨j, hj, hjs⟩ := h.mem hs'
  have hij : i ≠ j := by
    rintro rfl
    exact hnot hj
  exact ht.id_ne hi hjs hij heq

end Chosen

/-- A batch, every session of which is ready, follows its requests. -/
theorem Tenants.chosen_ready (h : Tenants m geom g allSettled log sched w)
    (hc : Chosen sched idxs ss) (hready : ∀ i ∈ idxs, ReadyAt sched .decode i) (hs : s ∈ ss) :
    s.phase = .decode ∧ s.suspended = none ∧ Healthy log w s ∧
      ∃ r, g.requests s.id = some r ∧ Follows m r s (w.model.caches s.handle) := by
  obtain ⟨i, hi, his⟩ := hc.mem hs
  obtain ⟨s', r, hs', hphase, hnone, hh, hr⟩ := h.ready_at (hready i hi) (by simp)
  obtain rfl := Option.mem_unique hs' his
  exact ⟨hphase, hnone, hh, r, hr⟩

/-- The batched forward failed. -/
theorem Tenants.fail_batch (h : Tenants m geom g allSettled (log.append q.report) q.sched w)
    (hc : Chosen q.sched idxs ss) (hready : ∀ i ∈ idxs, ReadyAt q.sched .decode i)
    (hm : Moves geom (ss.map handle) w w') (msg : String)
    (hrun : PagedQuantum.finishAll msg idxs (q.withPool w'.dev) = some q') :
    Settled m geom g log q' := by
  have hmoved : Tenants m geom g
      (fun id => if id ∈ (ss.map fun s => s.id) then .failed else .settled)
      (log.append (q.withPool w'.dev).report) (q.withPool w'.dev).sched w' := by
    refine h.move hm ?_ ?_
    · intro s hs hnot
      refine if_neg fun hmem => hnot ?_
      exact mem_map_of_mem (hc.mem_of_id h hs hmem)
    · intro s hs hin
      have hsin := hc.mem_of_handle h hs hin
      rw [if_pos (mem_map_of_mem hsin)]
      exact (h.chosen_ready hc hready hsin).2.1
  refine hmoved.finishAll hc.nodup ?_ ?_ hrun
  · intro i hi
    obtain ⟨s, hs, -, hnone⟩ := hready i hi
    exact ⟨s, hs, hnone⟩
  · intro i s hi hnot
    exact if_neg (hc.not_mem_of_place h hi hnot)

/-- The batched forward succeeded, and its rows are sampled. -/
theorem Tenants.sample_batch (h : Tenants m geom g allSettled (log.append q.report) q.sched w)
    (hc : Chosen q.sched idxs ss) (hready : ∀ i ∈ idxs, ReadyAt q.sched .decode i)
    (hm : Moves geom (ss.map handle) w w') {rows : List L}
    (hlen : rows.length = ss.length)
    (hok : ∀ (k : Nat) s row, ss[k]? = some s → rows[k]? = some row →
      StageOk m g (log.append q.report) w' s (.sampling row))
    (hrun : PagedQuantum.sampleAll m (idxs.zip rows) (q.withPool w'.dev) = some q') :
    Settled m geom g log q' := by
  have hids := nodup_map_of_places h.ids hc.nodup hc.places
  have hstage : ∀ (k : Nat) s row, ss[k]? = some s → rows[k]? = some row →
      stageRows (ss.map fun s => s.id) rows s.id = .sampling row := by
    intro k s row hs hrow
    unfold stageRows
    rw [lookup_zip_of_nodup hids (by rw [getElem?_map, hs]; rfl) hrow]
  have hmoved : Tenants m geom g (stageRows (ss.map fun s => s.id) rows)
      (log.append (q.withPool w'.dev).report) (q.withPool w'.dev).sched w' := by
    refine h.move hm ?_ ?_
    · intro s hs hnot
      unfold stageRows
      rw [lookup_zip_of_not_mem]
      intro hmem
      exact hnot (mem_map_of_mem (hc.mem_of_id h hs hmem))
    · intro s hs hin
      obtain ⟨k, hk⟩ := mem_iff_getElem?.mp (hc.mem_of_handle h hs hin)
      have hlt : k < rows.length := by
        rw [hlen]
        exact lt_of_getElem? hk
      rw [hstage k s rows[k] hk (getElem?_eq_getElem hlt)]
      exact hok k s _ hk (getElem?_eq_getElem hlt)
  have hfst : (idxs.zip rows).map Prod.fst = idxs := by
    rw [map_fst_zip]
    rw [hlen, hc.places.length_eq]
  refine hmoved.sampleAll (by rw [hfst]; exact hc.nodup) ?_ ?_ hrun
  · intro r hr
    obtain ⟨k, hk⟩ := mem_iff_getElem?.mp hr
    obtain ⟨hi, hrow⟩ := getElem?_zip_eq_some.mp hk
    obtain ⟨s, hs, his⟩ := forall₂_getElem? hc.places hi
    refine ⟨s, his, ?_, hstage k s r.2 hs hrow⟩
    rw [(h.chosen_ready hc hready (mem_of_getElem? hs)).1]
    simp
  · intro i s hi hnot
    rw [hfst] at hnot
    unfold stageRows
    rw [lookup_zip_of_not_mem (hc.not_mem_of_place h hi hnot)]

theorem Settled.decodeBatch (h : Settled m geom g log q) (hbs : 0 < geom.blockSize)
    (hnodup : idxs.Nodup) (hready : ∀ i ∈ idxs, ReadyAt q.sched .decode i)
    (hrun : q.decodeBatch m idxs = some q') : Settled m geom g log q' := by
  obtain ⟨w, h⟩ := h
  unfold PagedQuantum.decodeBatch at hrun
  cases hss : q.batchSessions idxs with
  | none =>
    rw [hss] at hrun
    cases hrun
  | some ss =>
    rw [hss] at hrun
    dsimp only at hrun
    have hc : Chosen q.sched idxs ss := ⟨hnodup, batchSessions_eq_some hss⟩
    obtain ⟨vals, hsound⟩ := h.sound
    cases htokens : lastTokens ss with
    | none =>
      rw [htokens] at hrun
      have hstay : Moves geom (ss.map handle) w w := .refl hsound _
      refine h.fail_batch hc hready hstay "decode_batch: empty token history" ?_
      rw [h.dev]
      exact hrun
    | some tokens =>
      rw [htokens] at hrun
      dsimp only at hrun
      have hlast := lastTokens_eq_some htokens
      have hspec := forwardPagedStepBatched_spec hsound hbs
        (nodup_map_of_places h.sessionHandles hnodup hc.places)
        (by
          intro x hx
          obtain ⟨s, hs, rfl⟩ := mem_map.mp hx
          exact h.issued s (hc.mem_sessions hs))
        (by
          intro x hx
          obtain ⟨s, hs, rfl⟩ := mem_map.mp hx
          exact (h.chosen_ready hc hready hs).2.2.1.usable) m tokens
      rw [← h.dev] at hrun
      generalize forwardPagedStepBatched m tokens (ss.map handle) w.dev = out
        at hspec hrun
      cases hspec with
      | abort why => cases hrun
      | err e moves => exact h.fail_batch hc hready moves _ hrun
      | @ok w' out moves hlen computed =>
        dsimp only at hrun
        split at hrun
        · obtain ⟨q₁, hq₁, rfl⟩ := Option.map_eq_some_iff.mp hrun
          have hsettled : Settled m geom g log q₁ := by
            refine h.sample_batch hc hready moves ?_ ?_ hq₁
            · rw [length_map, hlen, length_map]
            intro k s row hs hrow
            rw [getElem?_map, Option.map_eq_some_iff] at hrow
            obtain ⟨⟨v, logits⟩, hout, rfl⟩ := hrow
            obtain ⟨token, htoken, htok⟩ := forall₂_getElem? hlast hs
            obtain ⟨hphase, hnone, hh, r, hr, hfollows⟩ :=
              h.chosen_ready hc hready (mem_of_getElem? hs)
            obtain ⟨hcomputed, hcache, husable⟩ := computed k s.handle token v logits
              (by rw [getElem?_map, hs]; rfl) htoken hout
            have hp := hfollows.forwarded hphase htok hcomputed
            rw [← hcache] at hp
            exact ⟨hh.moved husable, hnone, by rw [hphase]; simp, r, hr, hp⟩
          obtain ⟨w₁, hw₁⟩ := hsettled
          refine ⟨w₁, ?_⟩
          rw [← StepReport.append_assoc]
          exact hw₁.report (by simp [StepReport.Mentions, StepReport.failed])
        · exact h.fail_batch hc hready moves _ hrun

/-! ## A step -/

/-- The policy only orders. -/
theorem inPolicyOrder_perm (sched : PagedSessionScheduler V L P) (idxs : List Nat) :
    (sched.inPolicyOrder idxs).Perm idxs := by
  unfold PagedSessionScheduler.inPolicyOrder
  cases sched.policy with
  | admissionOrder => exact .refl _
  | priority => exact mergeSort_perm _ _

theorem mem_readyIn : i ∈ sched.readyIn phase ↔ ReadyAt sched phase i := by
  unfold PagedSessionScheduler.readyIn ReadyAt
  rw [(inPolicyOrder_perm sched _).mem_iff, mem_filter, mem_range]
  constructor
  · rintro ⟨hlt, hany⟩
    rw [getElem?_eq_getElem hlt] at hany ⊢
    simp only [Option.any_some, Bool.and_eq_true, decide_eq_true_eq,
      Option.isNone_iff_eq_none] at hany
    exact ⟨_, rfl, hany.1, hany.2⟩
  · rintro ⟨s, hs, hphase, hnone⟩
    refine ⟨lt_of_getElem? hs, ?_⟩
    simp [hs, hphase, hnone]

theorem nodup_readyIn (sched : PagedSessionScheduler V L P) (phase : SessionPhase) :
    (sched.readyIn phase).Nodup :=
  (inPolicyOrder_perm sched _).nodup_iff.mpr (nodup_range.filter _)

/-- A part of a step touches the sessions at the places `idxs`, and no other: those are as they
were, and nothing is reported on them. -/
structure Touches (idxs : List Nat) (q q' : PagedQuantum V L P) : Prop where
  elsewhere : ∀ i ∉ idxs, q'.sched.sessions[i]? = q.sched.sessions[i]?
  ids : q'.sched.sessions.map (fun s => s.id) = q.sched.sessions.map fun s => s.id
  reported : ∀ id, q'.report.Mentions id → q.report.Mentions id ∨
    ∃ i ∈ idxs, (q.sched.sessions.map fun s => s.id)[i]? = some id

namespace Touches

theorem refl (q : PagedQuantum V L P) : Touches [] q q :=
  ⟨fun _ _ => rfl, rfl, fun _ h => .inl h⟩

variable {idxs : List Nat} {q q' : PagedQuantum V L P} {idx : Nat}

theorem trans {idxs' : List Nat} {q₁ : PagedQuantum V L P} (h : Touches idxs q q₁)
    (h' : Touches idxs' q₁ q') : Touches (idxs ++ idxs') q q' where
  elsewhere := by
    intro i hi
    rw [mem_append, not_or] at hi
    rw [h'.elsewhere i hi.2, h.elsewhere i hi.1]
  ids := h'.ids.trans h.ids
  reported := by
    intro id hid
    rcases h'.reported id hid with hid | ⟨i, hi, hat⟩
    · rcases h.reported id hid with hid | ⟨i, hi, hat⟩
      · exact .inl hid
      · exact .inr ⟨i, mem_append_left _ hi, hat⟩
    · rw [h.ids] at hat
      exact .inr ⟨i, mem_append_right _ hi, hat⟩

/-- A visit of one session, that keeps its id and reports on no other. -/
theorem replace {s₀ : PagedSession V L P} (hidx : q.sched.sessions[idx]? = some s₀)
    (s : PagedSession V L P) {r : SessionCore L P × StepReport} (hid : r.1.id = s₀.id)
    (hon : r.2.On s₀.id) : Touches [idx] q (q.replace idx s r) where
  elsewhere := fun i hi =>
    replace_elsewhere q (by simpa using Ne.symm (ne_of_not_mem_cons hi)) s r
  ids := map_set_of_eq (fun s => s.id) hidx hid
  reported := by
    intro id hid
    rcases mentions_append.mp hid with hold | hnew
    · exact .inl hold
    · refine .inr ⟨idx, mem_cons_self, ?_⟩
      rw [getElem?_map, hidx, hon id hnew]
      rfl

theorem sample (s₀ : PagedSession V L P) (hidx : q.sched.sessions[idx]? = some s₀)
    {s : PagedSession V L P} (hid : s.id = s₀.id) (logits : Option L) :
    Touches [idx] q (q.sample m idx s logits) := by
  have hout := SessionCore.finalizeAdvance_ok m.labelled { s.toSessionCore with lastLogits := logits }
  exact replace hidx s (hout.id_eq.trans hid) (hid ▸ hout.on)

theorem finishError {s : PagedSession V L P} (hidx : q.sched.sessions[idx]? = some s) (msg : String) :
    Touches [idx] q (q.finishError idx s msg) :=
  replace hidx s rfl (s.toSessionCore.finishError_on msg)

/-- A pool that has changed is no matter. -/
theorem of_withPool {pool : DeviceKvPool V} (h : Touches idxs (q.withPool pool) q') :
    Touches idxs q q' :=
  ⟨h.elsewhere, h.ids, h.reported⟩

theorem prefill (h : q.prefill m idx = some q') : Touches [idx] q q' := by
  unfold PagedQuantum.prefill at h
  split at h
  · cases h
  rename_i s hidx
  split at h
  · cases h
    refine of_withPool (sample s ?_ ?_ _)
    · exact hidx
    · rfl
  · cases h
    refine of_withPool (finishError ?_ _)
    exact hidx
  · cases h

theorem decodeOne (h : q.decodeOne m idx = some q') : Touches [idx] q q' := by
  unfold PagedQuantum.decodeOne at h
  split at h
  · cases h
  rename_i s hidx
  split at h
  · cases h
    exact finishError hidx _
  split at h
  · cases h
    refine of_withPool (sample s ?_ rfl _)
    exact hidx
  · cases h
    refine of_withPool (finishError ?_ _)
    exact hidx
  · cases h

theorem serveAll {β : Type} {serve : β → SessionCore L P → SessionCore L P × StepReport}
    (hserve : ∀ b s, (serve b s).1.id = s.id ∧ (serve b s).2.On s.id) {visits : List (Nat × β)}
    (h : serveAll serve visits q = some q') : Touches (visits.map Prod.fst) q q' := by
  induction visits generalizing q with
  | nil =>
    cases h
    exact refl _
  | cons v rest ih =>
    obtain ⟨idx, b⟩ := v
    unfold serveAll at h
    split at h
    · cases h
    · rename_i s hidx
      exact (replace hidx s (hserve b _).1 (hserve b _).2).trans (ih h)

theorem decodeBatch (h : q.decodeBatch m idxs = some q') : Touches idxs q q' := by
  have hfinish : ∀ {msg : String} {q q' : PagedQuantum V L P},
      finishAll msg idxs q = some q' → Touches idxs q q' := by
    intro msg q q' h
    have := serveAll (fun _ s => ⟨rfl, s.finishError_on msg⟩) h
    rwa [map_map, show (Prod.fst ∘ fun i : Nat => (i, ())) = id from rfl, map_id] at this
  unfold PagedQuantum.decodeBatch at h
  split at h
  · cases h
  split at h
  · exact hfinish h
  split at h
  · rename_i rows pool _
    split at h
    · rename_i hlen
      obtain ⟨q₁, hq₁, rfl⟩ := Option.map_eq_some_iff.mp h
      have hall := of_withPool (serveAll (fun row s =>
        have hout := SessionCore.finalizeAdvance_ok m.labelled { s with lastLogits := some row }
        ⟨hout.id_eq, hout.on⟩) hq₁)
      rw [map_fst_zip (Nat.le_of_eq hlen.symm)] at hall
      refine ⟨hall.elsewhere, hall.ids, ?_⟩
      intro id hid
      refine hall.reported id ((mentions_append.mp hid).resolve_right ?_)
      rintro (hmem | hmem | hmem) <;> cases hmem
    · exact of_withPool (hfinish h)
  · exact of_withPool (hfinish h)
  · cases h

end Touches

/-- A loop of visits: each serves ready sessions, at places no other visit touches. -/
theorem Settled.foldlM {β : Type} {f : PagedQuantum V L P → β → Option (PagedQuantum V L P)}
    (touched : β → List Nat) (phase : SessionPhase)
    (htouch : ∀ q b q', f q b = some q' → Touches (touched b) q q')
    (hstep : ∀ q b q', Settled m geom g log q → (touched b).Nodup →
      (∀ i ∈ touched b, ReadyAt q.sched phase i) → f q b = some q' → Settled m geom g log q')
    {l : List β} (h : Settled m geom g log q) (hnodup : (l.flatMap touched).Nodup)
    (hready : ∀ i ∈ l.flatMap touched, ReadyAt q.sched phase i) (hrun : l.foldlM f q = some q') :
    Settled m geom g log q' ∧ Touches (l.flatMap touched) q q' := by
  induction l generalizing q with
  | nil =>
    cases hrun
    exact ⟨h, .refl _⟩
  | cons b rest ih =>
    rw [foldlM_cons] at hrun
    obtain ⟨q₁, hq₁, hrest⟩ := Option.bind_eq_some_iff.mp hrun
    rw [flatMap_cons] at hnodup hready ⊢
    obtain ⟨hnodup₁, hnodup₂, hdisjoint⟩ := nodup_append.mp hnodup
    have htouched := htouch q b q₁ hq₁
    have hsettled := hstep q b q₁ h hnodup₁
      (fun i hi => hready i (mem_append_left _ hi)) hq₁
    have hready₁ : ∀ i ∈ rest.flatMap touched, ReadyAt q₁.sched phase i := by
      intro i hi
      obtain ⟨s, hs, hp⟩ := hready i (mem_append_right _ hi)
      refine ⟨s, ?_, hp⟩
      rw [htouched.elsewhere i fun hmem => hdisjoint i hmem i hi rfl]
      exact hs
    obtain ⟨hdone, hrest⟩ := ih hsettled hnodup₂ hready₁ hrest
    exact ⟨hdone, htouched.trans hrest⟩

theorem flatten_chunks {α : Type} {n : Nat} (hn : 0 < n) {fuel : Nat} {l : List α}
    (hfuel : l.length ≤ fuel) : (chunks n fuel l).flatten = l := by
  induction fuel generalizing l with
  | zero => simp [chunks, eq_nil_of_length_eq_zero (Nat.le_zero.mp hfuel)]
  | succ fuel ih =>
    cases l with
    | nil => rfl
    | cons a l =>
      unfold chunks
      rw [flatten_cons, ih, take_append_drop]
      rw [length_drop]
      omega

/-- The groups of a quantum are a partition of the ready sessions. -/
theorem groups_partition (sched : PagedSessionScheduler V L P) {ready : List Nat} (hnodup : ready.Nodup) :
    (sched.groups ready).flatten.Nodup ∧ ∀ i ∈ (sched.groups ready).flatten, i ∈ ready := by
  obtain ⟨keys, hkeys, hperm⟩ : ∃ keys : List Nat, keys.Nodup ∧ (sched.groups ready).Perm
      (keys.map fun k => ready.filter fun i => sched.positionKey i = k) := by
    refine ⟨_, nodup_dedup ((ready.map sched.positionKey).mergeSort fun a b => a ≤ b), ?_⟩
    unfold PagedSessionScheduler.groups
    cases sched.policy with
    | admissionOrder => exact .refl _
    | priority => exact mergeSort_perm _ _
  have hflat := hperm.flatten
  rw [← flatMap_def] at hflat
  rw [hflat.nodup_iff]
  refine ⟨nodup_flatMap.mpr ⟨fun k _ => hnodup.filter _, hkeys.imp ?_⟩, ?_⟩
  · intro k k' hne i hi hi'
    simp only [mem_filter, decide_eq_true_eq] at hi hi'
    exact hne (hi.2.symm.trans hi'.2)
  · intro i hi
    obtain ⟨k, -, hk⟩ := mem_flatMap.mp (hflat.mem_iff.mp hi)
    exact (mem_filter.mp hk).1

/-- A session that is not to be served in this quantum. -/
def Idle (s : PagedSession V L P) : Prop := s.suspended ≠ none ∨ s.phase = .finished

theorem Idle.not_ready (h : Idle s) (hphase : phase ≠ .finished) (hi : sched.sessions[i]? = some s) :
    ¬ ReadyAt sched phase i := by
  rintro ⟨s', hs', hp, hnone⟩
  obtain rfl : s' = s := Option.mem_unique hs' hi
  rcases h with hsusp | hf
  · exact hsusp hnone
  · exact hphase (hp.symm.trans hf)

/-- What a step leaves: everything settled, and the idle sessions as they were, with no report. -/
structure Stepped (m : PagedDecodeModel V L P) (geom : KvGeometry) (g : Roster P)
    (log : StepReport) (sched : PagedSessionScheduler V L P) (q : PagedQuantum V L P) : Prop where
  settled : Settled m geom g log q
  ids : q.sched.sessions.map (fun s => s.id) = sched.sessions.map fun s => s.id
  idle : ∀ (i : Nat) (s : PagedSession V L P), sched.sessions[i]? = some s → Idle s →
    q.sched.sessions[i]? = some s ∧ ¬ q.report.Mentions s.id

/-- One loop of visits of a step. -/
theorem Stepped.loop (h : Stepped m geom g log sched q) {β : Type}
    {f : PagedQuantum V L P → β → Option (PagedQuantum V L P)} (touched : β → List Nat)
    (hphase : phase ≠ .finished) (htouch : ∀ q b q', f q b = some q' → Touches (touched b) q q')
    (hstep : ∀ q b q', Settled m geom g log q → (touched b).Nodup →
      (∀ i ∈ touched b, ReadyAt q.sched phase i) → f q b = some q' → Settled m geom g log q')
    {l : List β} (hnodup : (l.flatMap touched).Nodup)
    (hready : ∀ i ∈ l.flatMap touched, i ∈ q.sched.readyIn phase) (hrun : l.foldlM f q = some q') :
    Stepped m geom g log sched q' := by
  obtain ⟨hsettled, htouched⟩ := Settled.foldlM touched phase htouch hstep h.settled hnodup
    (fun i hi => mem_readyIn.mp (hready i hi)) hrun
  refine ⟨hsettled, htouched.ids.trans h.ids, ?_⟩
  intro i s hi hidle
  obtain ⟨hold, hunreported⟩ := h.idle i s hi hidle
  have hnot : i ∉ l.flatMap touched := fun hmem =>
    hidle.not_ready hphase hold (mem_readyIn.mp (hready i hmem))
  refine ⟨(htouched.elsewhere i hnot).trans hold, ?_⟩
  intro hment
  obtain hment | ⟨j, hj, hat⟩ := htouched.reported s.id hment
  · exact hunreported hment
  -- a session of this id that is touched would be this one
  obtain ⟨w, hw⟩ := h.settled
  have hat' : (q.sched.sessions.map fun s => s.id)[i]? = some s.id := by
    rw [getElem?_map, hold]
    rfl
  obtain rfl : i = j := (getElem?_inj (lt_of_getElem? hat') hw.ids).mp
    (hat'.trans hat.symm)
  exact hnot hj

/-- A loop that serves the ready sessions one by one. -/
theorem Stepped.each (h : Stepped m geom g log sched q)
    {f : PagedQuantum V L P → Nat → Option (PagedQuantum V L P)} (hphase : phase ≠ .finished)
    (htouch : ∀ q i q', f q i = some q' → Touches [i] q q')
    (hstep : ∀ q i q', Settled m geom g log q → ReadyAt q.sched phase i → f q i = some q' →
      Settled m geom g log q') (hrun : (q.sched.readyIn phase).foldlM f q = some q') :
    Stepped m geom g log sched q' := by
  have hflat : (q.sched.readyIn phase).flatMap (fun i => [i]) = q.sched.readyIn phase :=
    flatMap_singleton' _
  refine h.loop (fun i => [i]) hphase htouch
    (fun q i q' hq _ hready hf => hstep q i q' hq (hready i (by simp)) hf) ?_ ?_ hrun
  · rw [hflat]
    exact nodup_readyIn q.sched phase
  · rw [hflat]
    exact fun i hi => hi

theorem Tenants.prefillPass (h : Tenants m geom g allSettled log sched w) (hbs : 0 < geom.blockSize)
    (hrun : prefillPass m ⟨sched, {}⟩ = some q) : Stepped m geom g log sched q := by
  have hstart : Stepped m geom g log sched ⟨sched, {}⟩ := by
    refine ⟨⟨w, by rwa [append_empty]⟩, rfl, fun i s hi _ => ⟨hi, ?_⟩⟩
    rintro (hmem | hmem | hmem) <;> cases hmem
  exact hstart.each (show SessionPhase.prefill ≠ .finished by simp) (fun q i q' hf => .prefill hf)
    (fun q i q' hq hready hf => hq.prefill hbs hready hf) hrun

theorem Tenants.step (h : Tenants m geom g allSettled log sched w) (hbs : 0 < geom.blockSize)
    (hrun : sched.step m = some q) : Stepped m geom g log sched q := by
  obtain ⟨q₁, hprefill, hdecode⟩ := Option.bind_eq_some_iff.mp hrun
  exact (h.prefillPass hbs hprefill).each (show SessionPhase.decode ≠ .finished by simp)
    (fun q i q' hf => .decodeOne hf) (fun q i q' hq hready hf => hq.decodeOne hbs hready hf) hdecode

theorem decodeChunk_cases {chunk : List Nat} (h : q.decodeChunk m chunk = some q') :
    (chunk = [] ∧ q' = q) ∨ (∃ idx, chunk = [idx] ∧ q.decodeOne m idx = some q') ∨
      q.decodeBatch m chunk = some q' := by
  unfold decodeChunk at h
  split at h
  · rename_i hlen
    match chunk, hlen with
    | [], _ => exact .inl ⟨rfl, (Option.some.inj h).symm⟩
    | [idx], _ =>
      rw [foldlM_cons] at h
      obtain ⟨q₁, hq₁, hrest⟩ := Option.bind_eq_some_iff.mp h
      cases hrest
      exact .inr (.inl ⟨idx, rfl, hq₁⟩)
  · exact .inr (.inr h)

theorem Touches.decodeChunk {chunk : List Nat} (h : q.decodeChunk m chunk = some q') :
    Touches chunk q q' := by
  obtain ⟨rfl, rfl⟩ | ⟨idx, rfl, hone⟩ | hbatch := decodeChunk_cases h
  · exact .refl _
  · exact .decodeOne hone
  · exact .decodeBatch hbatch

theorem Settled.decodeChunk (h : Settled m geom g log q) (hbs : 0 < geom.blockSize)
    {chunk : List Nat} (hnodup : chunk.Nodup) (hready : ∀ i ∈ chunk, ReadyAt q.sched .decode i)
    (hrun : q.decodeChunk m chunk = some q') : Settled m geom g log q' := by
  obtain ⟨rfl, rfl⟩ | ⟨idx, rfl, hone⟩ | hbatch := decodeChunk_cases hrun
  · exact h
  · exact h.decodeOne hbs (hready idx (by simp)) hone
  · exact h.decodeBatch hbs hnodup hready hbatch

theorem Tenants.stepBatched (h : Tenants m geom g allSettled log sched w) (hbs : 0 < geom.blockSize)
    {maxBatch : Nat} (hrun : sched.stepBatched m maxBatch = some q) :
    Stepped m geom g log sched q := by
  obtain ⟨q₁, hprefill, hdecode⟩ := Option.bind_eq_some_iff.mp hrun
  have hflat : ((q₁.sched.groups q₁.sched.collectDecodeReady).flatMap fun g =>
      chunks (max maxBatch 1) g.length g).flatMap id
      = (q₁.sched.groups q₁.sched.collectDecodeReady).flatten := by
    rw [flatMap_assoc, flatMap_def]
    congr 1
    rw [map_congr_left (g := id), map_id]
    intro g _
    rw [flatMap_id]
    exact flatten_chunks (by omega) (Nat.le_refl _)
  obtain ⟨hnodup, hmem⟩ := groups_partition q₁.sched (nodup_readyIn q₁.sched .decode)
  refine (h.prefillPass hbs hprefill).loop id (by simp) (fun q c q' hf => Touches.decodeChunk hf)
    (fun q c q' hq hnodup hready hf => hq.decodeChunk hbs hnodup hready hf) ?_ ?_ hdecode
  · rw [hflat]
    exact hnodup
  · rw [hflat]
    exact hmem

end Steps

end Fuel.Inference
