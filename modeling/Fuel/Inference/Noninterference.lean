import Fuel.Inference.PagedRuns

/-!
# Co-tenants cannot influence a session

In every run of the paged scheduler in which no prefix is taken from a session
reported in `errored` and no restore fails in a device write, a session that was never
reported itself has generated, at each moment, the first tokens of what the
single-session loop generates from its request. Without these conditions it need not: a forward that fails after the pool
has grown leaves a cell nobody wrote, and `register_prefix` hands it on; and a restore
that fails half-way leaves the session running over cells that were not written back.
-/

namespace Fuel.Inference

open Fuel Method KvPool PagedDecodeModel PagedSessionScheduler List Option

variable {V L P : Type}

/-! ## Runs -/

/-- Prompts begin with what they share, donors were not reported, and restores write back. -/
def PagedWorld.Intact (w : PagedWorld V L P) (c : PagedCall P) : Prop :=
  w.Shares c ∧ w.DonorIntact c ∧ w.WritesBack c

instance (w : PagedWorld V L P) (c : PagedCall P) : Decidable (w.Intact c) :=
  inferInstanceAs (Decidable (_ ∧ _))

section Runs

variable {m : PagedDecodeModel V L P} {geom : KvGeometry} {zero : V} {w w' : PagedWorld V L P}

theorem Kept.step (h : Kept m geom w) (hbs : 0 < geom.blockSize) {c : PagedCall P}
    (hc : w.Intact c) (hstep : w.step m c = some w') : Kept m geom w' := by
  obtain ⟨t, ht⟩ := h
  cases c with
  | submit sub => exact ht.submit hbs hc.1 hstep
  | registerPrefix donor k => exact ht.registerPrefix hbs hc.2.1 hstep
  | releasePrefix id => exact ht.releasePrefix hbs hstep
  | evictSession id => exact ht.evictSession hbs hstep
  | restoreSession id fault => exact ht.restoreSession hbs hc.2.2 hstep
  | setPolicy policy =>
    cases hstep
    exact ⟨t, ht.configure policy w.sched.plan⟩
  | setPlan plan =>
    cases hstep
    exact ⟨t, ht.configure w.sched.policy plan⟩
  | setPriority id priority => exact ht.setPriority hstep
  | step =>
    obtain ⟨q, hq, rfl⟩ := map_eq_some_iff.mp hstep
    exact (ht.step hbs hq).settled
  | stepBatched maxBatch =>
    obtain ⟨q, hq, rfl⟩ := map_eq_some_iff.mp hstep
    exact (ht.stepBatched hbs hq).settled
  | reapFinished => exact ht.reapFinished hbs hstep

theorem Kept.new (m : PagedDecodeModel V L P) (geom : KvGeometry) (zero : V) :
    Kept m geom (.new geom zero) := by
  refine ⟨.new geom zero, rfl, ⟨_, .new geom zero⟩, fun _ => Fed.nil m, nodup_nil,
    nodup_nil, ?_, ?_, ?_, ?_⟩
  · intro s hs
    cases hs
  · intro s hs
    cases hs
  · rintro id (hmem | hmem | hmem) <;> cases hmem
  · intro s hs
    cases hs

theorem PagedWorld.Reached.kept (h : Reached m geom zero PagedWorld.Intact w)
    (hbs : 0 < geom.blockSize) : Kept m geom w := by
  induction h with
  | new => exact Kept.new m geom zero
  | call _ hc hstep ih => exact Kept.step ih hbs hc hstep

/-! ## Blocks of no cells

With a block size of 0 every admission divides by zero, so there is no session
at all. -/

/-- No sessions, and blocks of no cells. -/
structure Barren (sched : PagedSessionScheduler V L P) : Prop where
  sessions : sched.sessions = []
  blockSize : sched.pool.core.geom.blockSize = 0
  wf : Wf sched.pool.core

namespace Barren

variable {sched : PagedSessionScheduler V L P} (h : Barren sched)

include h

/-- A call of the pool that keeps its geometry. -/
theorem repool (core : KvBlockPool) (hgeom : core.geom = sched.pool.core.geom) (hw : Wf core)
    (cells : PhysBlockId → Nat → V) : Barren { sched with pool := ⟨core, cells⟩ } :=
  ⟨h.sessions, by rw [hgeom]; exact h.blockSize, hw⟩

theorem locate_err (id : SessionId) : locate id sched = .err (.unknownSession id) sched := by
  rcases locate_cases sched id with ⟨idx, s, -, hidx, -⟩ | herr
  · rw [h.sessions] at hidx
    cases hidx
  · exact herr

theorem admitSession (handle : SessionHandle) (prompt : List UInt32) (strategy : SamplingStrategy)
    (eosIds : Option (List UInt32)) (maxNew start : Nat) :
    ∃ why, admitSession handle prompt strategy eosIds maxNew start sched
      = .abort why := by
  unfold PagedSessionScheduler.admitSession addUsizeIn usizeResult divCeil
  rw [bind_run, get_run, Outcome.andThen_ok, bind_run]
  simp only [h.blockSize, if_true]
  split_ifs
  · exact ⟨_, rfl⟩
  · exact ⟨_, rfl⟩

/-- An admission that does not return a session. -/
inductive Refuses : Outcome PagedError (PagedSessionScheduler V L P) SessionId → Prop
  | err {sched' : PagedSessionScheduler V L P} (e : PagedError) :
      Barren sched' → Refuses (.err e sched')
  | abort (why : Abort) : Refuses (.abort why)

theorem opened : ∃ handle sched', Barren sched' ∧
    onPool (L := L) (P := P) (DeviceKvPool.onCore openSession) sched = .ok handle sched' := by
  have hopened : Barren { sched with pool := ⟨sched.pool.core.opened, sched.pool.cells⟩ } :=
    h.repool sched.pool.core.opened rfl (opened_wf h.wf) _
  exact ⟨_, _, hopened, rfl⟩

theorem reject (handle : SessionHandle) (e : PagedError) : Refuses ((do
      onPool (DeviceKvPool.onCore (KvPool.discard .debug handle))
      fail e : PagedM V L P SessionId) sched) := by
  obtain ⟨core, hrun, hw, hrest, -⟩ := discard_spec h.wf handle
  simp only [bind_run, onPool, DeviceKvPool.onCore, hrun, Outcome.andThen_ok, fail_run]
  exact .err e (h.repool core hrest.geom hw _)

theorem submitWith (sub : Submission P) (strategy : SamplingStrategy) :
    Refuses (PagedSessionScheduler.submitWith sub strategy sched) := by
  have habort : ∀ {sched : PagedSessionScheduler V L P}, Barren sched →
      ∀ handle start, Refuses (PagedSessionScheduler.admitSession handle sub.prompt strategy
        sub.eosIds sub.maxNew start sched) := by
    intro sched h handle start
    obtain ⟨why, hwhy⟩ := h.admitSession handle sub.prompt strategy sub.eosIds sub.maxNew start
    rw [hwhy]
    exact .abort why
  obtain ⟨handle, sched₁, h₁, hopen⟩ := h.opened
  unfold PagedSessionScheduler.submitWith
  cases sub.shared with
  | none =>
    simp only [addSession]
    split_ifs
    · exact .err _ h
    · exact .err _ h
    · rw [bind_run, hopen]
      exact habort h₁ handle 0
  | some id =>
    simp only [addSessionSharingPrefix]
    split_ifs
    · exact .err _ h
    · exact .err _ h
    rw [bind_run, hopen, Outcome.andThen_ok, bind_run]
    have hspec := splicePrefixFrom_spec h₁.wf id handle
    simp only [attempt, onPool, DeviceKvPool.onCore]
    generalize splicePrefixFrom .debug id handle sched₁.pool.core = out at hspec
    cases hspec with
    | arith _ => exact .abort _
    | refused e => exact h₁.reject handle _
    | @ok n core hok =>
      obtain ⟨o, u, t, ps, -, hsp, -⟩ := hok
      have h₂ := h₁.repool core hsp.rest.geom hsp.wf sched₁.pool.cells
      rw [Outcome.andThen_ok]
      dsimp only
      split_ifs
      · exact h₂.reject handle _
      · exact habort h₂ handle n

theorem submit (m : PagedDecodeModel V L P) (sub : Submission P) :
    Refuses (PagedSessionScheduler.submit m sub sched) := by
  unfold PagedSessionScheduler.submit
  cases sub.sampling with
  | strategy s => exact h.submitWith sub s
  | params p =>
    simp only [withParams]
    cases m.admitParams p with
    | error msg => exact .err _ h
    | ok s =>
      have hspec := h.submitWith sub s
      simp only [bind_run]
      generalize PagedSessionScheduler.submitWith sub s sched = o at hspec
      cases hspec with
      | err e h' => exact .err e h'
      | abort why => exact .abort why

theorem ready (phase : SessionPhase) : sched.readyIn phase = [] := by
  refine eq_nil_iff_forall_not_mem.mpr ?_
  intro i hi
  obtain ⟨s, hs, -⟩ := mem_readyIn.mp hi
  rw [h.sessions] at hs
  cases hs

theorem prefillPass (m : PagedDecodeModel V L P) :
    PagedQuantum.prefillPass m ⟨sched, {}⟩ = some ⟨sched, {}⟩ := by
  rw [PagedQuantum.prefillPass, h.ready]
  rfl

omit h

theorem Refuses.after {o : Outcome PagedError (PagedSessionScheduler V L P) SessionId}
    {ok : SessionId → Roster P → Roster P} (ho : Refuses o) (hstep : w.after o ok = some w') :
    Barren w'.sched := by
  cases ho with
  | err e h =>
    cases hstep
    exact h
  | abort why => cases hstep

theorem releasePrefix (h : Barren w.sched) {id : PrefixId}
    (hstep : w.step m (.releasePrefix id) = some w') : Barren w'.sched := by
  have hspec := releasePrefix_spec h.wf id
  simp only [PagedWorld.step, PagedSessionScheduler.releasePrefix, onPool, DeviceKvPool.onCore]
    at hstep
  generalize KvPool.releasePrefix .debug id w.sched.pool.core = out at hspec hstep
  cases hspec with
  | arith _ => cases hstep
  | refused e =>
    cases hstep
    exact h
  | @ok _ core hok =>
    obtain ⟨o, -, hw, hrest, -⟩ := hok
    cases hstep
    exact h.repool core hrest.geom hw _

theorem step (h : Barren w.sched) {c : PagedCall P} (hstep : w.step m c = some w') :
    Barren w'.sched := by
  cases c with
  | submit sub =>
    unfold PagedWorld.step at hstep
    exact (h.submit m sub).after hstep
  | releasePrefix id => exact h.releasePrefix hstep
  | step =>
    simp only [PagedWorld.step, PagedSessionScheduler.step, h.prefillPass, bind_eq_bind,
      bind_some, collectDecodeReady, h.ready] at hstep
    cases hstep
    exact h
  | stepBatched maxBatch =>
    have hgroups : w.sched.groups [] = [] := by
      unfold PagedSessionScheduler.groups
      cases w.sched.policy <;> simp
    simp only [PagedWorld.step, PagedSessionScheduler.stepBatched, h.prefillPass,
      bind_eq_bind, bind_some, collectDecodeReady, h.ready, hgroups] at hstep
    cases hstep
    exact h
  | reapFinished =>
    simp only [PagedWorld.step, reapFinished, h.sessions] at hstep
    cases hstep
    exact ⟨rfl, h.blockSize, h.wf⟩
  | setPolicy policy =>
    cases hstep
    exact ⟨h.sessions, h.blockSize, h.wf⟩
  | setPlan plan =>
    cases hstep
    exact ⟨h.sessions, h.blockSize, h.wf⟩
  | registerPrefix donor k =>
    simp only [PagedWorld.step, PagedSessionScheduler.registerPrefix, bind_run, h.locate_err]
      at hstep
    cases hstep
    exact h
  | evictSession id =>
    simp only [PagedWorld.step, evictSession, bind_run, h.locate_err] at hstep
    cases hstep
    exact h
  | restoreSession id fault =>
    simp only [PagedWorld.step, restoreSession, bind_run, h.locate_err]
      at hstep
    cases hstep
    exact h
  | setPriority id priority =>
    simp only [PagedWorld.step, setPriority, bind_run, h.locate_err] at hstep
    cases hstep
    exact h

end Barren

/-- Where there is a session, there are blocks with cells, and the invariant holds. -/
theorem PagedWorld.Reached.kept_of_session (h : Reached m geom zero PagedWorld.Intact w)
    {s : PagedSession V L P} (hs : s ∈ w.sched.sessions) : 0 < geom.blockSize ∧ Kept m geom w := by
  rcases Nat.eq_zero_or_pos geom.blockSize with hzero | hbs
  · have hbarren : Barren w.sched := by
      clear hs
      induction h with
      | new => exact ⟨rfl, hzero, (inv_new geom).wf⟩
      | call _ _ hstep ih => exact ih.step hstep
    rw [hbarren.sessions] at hs
    cases hs
  · exact ⟨hbs, h.kept hbs⟩

/-- A call advances no session that is suspended or has finished. -/
theorem Kept.idle_count (h : Kept m geom w) (hbs : 0 < geom.blockSize) {c : PagedCall P}
    (hstep : w.step m c = some w') {s : PagedSession V L P} (hs : s ∈ w.sched.sessions)
    (hidle : Idle s) : w'.log.advanced.count s.id = w.log.advanced.count s.id := by
  obtain ⟨t, ht⟩ := h
  have hafter : ∀ {α : Type} {o : Outcome PagedError (PagedSessionScheduler V L P) α}
      {ok : α → Roster P → Roster P}, w.after o ok = some w' → w'.log = w.log := by
    intro α o ok h
    cases o <;> cases h <;> rfl
  have hstepped : ∀ {q : PagedQuantum V L P}, Stepped m geom w.roster w.log w.sched q →
      (w.reported q).log.advanced.count s.id = w.log.advanced.count s.id := by
    intro q hq
    obtain ⟨i, hi⟩ := mem_iff_getElem?.mp hs
    have hnot := (hq.idle i s hi hidle).2
    show (w.log.advanced ++ q.report.advanced).count s.id = _
    rw [count_append, count_eq_zero_of_not_mem fun hmem => hnot (.inl hmem), Nat.add_zero]
  cases c
  case step =>
    obtain ⟨q, hq, rfl⟩ := map_eq_some_iff.mp hstep
    exact hstepped (ht.step hbs hq)
  case stepBatched maxBatch =>
    obtain ⟨q, hq, rfl⟩ := map_eq_some_iff.mp hstep
    exact hstepped (ht.stepBatched hbs hq)
  case reapFinished =>
    obtain ⟨r, -, rfl⟩ := map_eq_some_iff.mp hstep
    rfl
  all_goals
    simp only [PagedWorld.step] at hstep
    rw [hafter hstep]

/-- Whatever the other sessions do, a session that was never reported in `errored` has generated
where the single-session loop of its request starts, and all of it when it has finished; it was
reported in `advanced` once per token and in `finished` when it finished; no call advances it while
it is suspended or finished; and reaping returns its prompt and all that the loop generates. -/
theorem cotenants_cannot_influence (h : PagedWorld.Reached m geom zero PagedWorld.Intact w)
    {s : PagedSession V L P} (hs : s ∈ w.sched.sessions) (hok : s.id ∉ w.log.failed) :
    ∃ r, w.roster.requests s.id = some r ∧ s.tokens = r.prompt ++ s.newTokens ∧
      s.newTokens <+: m.generate r ∧ (s.phase = .finished → s.newTokens = m.generate r) ∧
      w.log.advanced.count s.id = s.newTokens.length ∧
      w.log.finished.count s.id = (if s.phase = .finished then 1 else 0) ∧
      (∀ c w', w.step m c = some w' → s.suspended ≠ none ∨ s.phase = .finished →
        w'.log.advanced.count s.id = w.log.advanced.count s.id) ∧
      (∀ out sched', w.sched.reapFinished = some (out, sched') → s.phase = .finished →
        (s.id, r.prompt ++ m.generate r) ∈ out) := by
  obtain ⟨hbs, hkept⟩ := h.kept_of_session hs
  have hidle : ∀ c w', w.step m c = some w' → s.suspended ≠ none ∨ s.phase = .finished →
      w'.log.advanced.count s.id = w.log.advanced.count s.id :=
    fun c w' hstep => Kept.idle_count hkept hbs hstep hs
  obtain ⟨t, ht⟩ := hkept
  obtain ⟨hh, -, r, hr, hfollows⟩ := ht.healthy hs hok
  refine ⟨r, hr, hfollows.serves.tokens, hfollows.generated, hfollows.generated_all,
    hh.counted.advanced, hh.counted.finished, hidle, ?_⟩
  intro out sched' hreap hfin
  obtain ⟨res, hres, heq⟩ := map_eq_some_iff.mp hreap
  rw [← ht.dev] at hres
  obtain ⟨hout, -⟩ := reapLoop_spec hbs ht.sound ht.issued hres
  have hout' : out = res.1 := (congrArg Prod.fst heq).symm
  rw [hout', hout, ← hfollows.generated_all hfin, ← hfollows.serves.tokens]
  exact mem_map.mpr ⟨s, mem_filter.mpr ⟨hs, by simpa using hfin⟩, rfl⟩

end Runs

/-! ## A small model -/

/-- The cell of a token is the token, and the logits are the sum of all cells; tokens from 5 on are
out of the vocabulary. -/
def sumModel : PagedDecodeModel UInt32 UInt32 Unit where
  unsupported := none
  forward := fun cache token =>
    if token < 5 then .ok (token, (cache.foldl (· + ·) token) % 5)
    else .error "index_select: index out of bounds"
  fault := fun _ => none
  writeFault := fun _ => none
  describe := fun _ => "paged forward failed"
  sampleNext := fun _ _ logits _ rng => (.ok logits, rng)
  admitParams := fun _ => .ok .greedy
  seed := fun _ => 0

/-- Sixteen blocks of one token. -/
def tokenGeom : KvGeometry := ⟨1, 16, 1, 1, 1, 1⟩

/-- A request without a shared prefix, or with one. -/
def ask (shared : Option PrefixId) (prompt : List UInt32) (maxNew : Nat) : PagedCall Unit :=
  .submit ⟨shared, prompt, .strategy .greedy, none, maxNew⟩

/-- A session is evicted while another one, that shares its first token, goes on. -/
theorem shared_session_generates_its_loop :
    ∃ w s r, PagedWorld.Reached sumModel tokenGeom 0 PagedWorld.Intact w ∧
      s ∈ w.sched.sessions ∧ w.roster.requests s.id = some r ∧ r.prompt = [1, 2] ∧
      s.newTokens.length = 3 ∧ s.newTokens = sumModel.generate r := by
  have hrun : (match (PagedWorld.new tokenGeom 0).run sumModel PagedWorld.Intact
        [ask none [1, 3] 5, .step, .registerPrefix 0 1, .evictSession 0, ask (some ⟨0⟩) [1, 2] 3,
          .step, .restoreSession 0 DeviceKvPool.noFault, .step] with
      | none => false
      | some w => match w.sched.sessions[1]? with
        | none => false
        | some s => decide (s.id ∉ w.log.failed) && decide (s.newTokens.length = 3) &&
            decide (s.phase = .finished) &&
            decide ((w.roster.requests s.id).map Request.prompt = some [1, 2])) = true := by
    decide +kernel
  split at hrun
  · cases hrun
  rename_i w hw
  split at hrun
  · cases hrun
  rename_i s hs
  simp only [Bool.and_eq_true, decide_eq_true_eq] at hrun
  obtain ⟨⟨⟨hok, hlen⟩, hfin⟩, hprompt⟩ := hrun
  have hmem := mem_of_getElem? hs
  have hreached := PagedWorld.Reached.new.run hw
  obtain ⟨r, hr, -, -, hall, -⟩ := cotenants_cannot_influence hreached hmem hok
  rw [hr] at hprompt
  exact ⟨w, s, r, hreached, hmem, hr, some.inj hprompt, hlen, hall hfin⟩

/-- A session that was not reported has generated what the loop does not. -/
def Strays (w : PagedWorld UInt32 UInt32 Unit) : Prop :=
  ∃ s ∈ w.sched.sessions, s.id ∉ w.log.failed ∧
    ∃ r ∈ w.roster.requests s.id, ¬ s.newTokens <+: sumModel.generate r

instance (w : PagedWorld UInt32 UInt32 Unit) : Decidable (Strays w) :=
  inferInstanceAs (Decidable (∃ s ∈ _, _ ∧ ∃ r ∈ _, _))

/-- A donor whose only token is out of the vocabulary: its forward fails after the pool has grown by
the cell, and the session that shares this cell generates, where the loop does not. And a session
whose cells the device refuses to write back: it goes on over what another one left there. -/
theorem unwritten_cells_are_generated_from :
    (∃ w, PagedWorld.Reached sumModel tokenGeom 0 (fun w c => w.Shares c ∧ w.WritesBack c) w ∧
      Strays w) ∧
    ∃ w, PagedWorld.Reached sumModel tokenGeom 0 (fun w c => w.Shares c ∧ w.DonorIntact c) w ∧
      Strays w := by
  have hdonor : ((PagedWorld.new tokenGeom 0).run sumModel (fun w c => w.Shares c ∧ w.WritesBack c)
      [ask none [7] 1, .step, .registerPrefix 0 1, ask (some ⟨0⟩) [7, 2] 1, .step]).any
        fun w => Strays w := by
    decide +kernel
  have hrestore : ((PagedWorld.new tokenGeom 0).run sumModel
      (fun w c => w.Shares c ∧ w.DonorIntact c) [ask none [1, 3] 5, .step, .evictSession 0,
        ask none [2] 1, .step, .restoreSession 0 (fun _ => some "write failed"), .step]).any
        fun w => Strays w := by
    decide +kernel
  obtain ⟨w, hw, hstrays⟩ := (any_eq_true _ _).mp hdonor
  obtain ⟨w', hw', hstrays'⟩ := (any_eq_true _ _).mp hrestore
  exact ⟨⟨w, PagedWorld.Reached.new.run hw, of_decide_eq_true hstrays⟩,
    w', PagedWorld.Reached.new.run hw', of_decide_eq_true hstrays'⟩

end Fuel.Inference
