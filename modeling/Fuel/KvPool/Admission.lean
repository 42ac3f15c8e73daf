import Fuel.KvPool.Guarantees

/-!
# The KV block pool: admission math

`blocks_required` predicts from the fill level alone how many blocks an
`append` will take; `append` itself counts from the length of the table. The
two agree for a session whose table is as long as its fill level needs
(`InStep`). Every operation keeps all sessions in step except `splice`, which
does so exactly when the part of the last shared block the donor has not
filled still fits into the target's own last block (`SpliceFits`).
-/

namespace Fuel.KvPool

open Fuel Method List

/-! ## Tables in step -/

/-- `t` has exactly the blocks its fill level needs. -/
def InStep (blockSize : Nat) (t : BlockTable) : Prop :=
  t.slots.length = (t.filledTokens + blockSize - 1) / blockSize

variable {n f : Nat} {pool : KvBlockPool}

theorem eq_ceil_iff {bs : Nat} (hbs : 0 < bs) :
    n = (f + bs - 1) / bs ↔ f ≤ n * bs ∧ n * bs < f + bs := by
  have hle : n ≤ (f + bs - 1) / bs ↔ n * bs ≤ f + bs - 1 := Nat.le_div_iff_mul_le hbs
  have hlt : (f + bs - 1) / bs < n + 1 ↔ f + bs - 1 < (n + 1) * bs :=
    Nat.div_lt_iff_lt_mul hbs
  have hmul : (n + 1) * bs = n * bs + bs := Nat.succ_mul n bs
  omega

section Tables

variable {bs : Nat} {t : BlockTable}

theorem inStep_iff (hbs : 0 < bs) :
    InStep bs t ↔ t.filledTokens ≤ t.slots.length * bs ∧
      t.slots.length * bs < t.filledTokens + bs :=
  eq_ceil_iff hbs

variable {k : Nat} {ps : List PhysBlockId}

theorem inStep_full (hbs : 0 < bs) {slots : List Slot} (hk : slots.length = k) :
    InStep bs ⟨slots, k * bs⟩ := by
  rw [inStep_iff hbs]
  simp only [hk]
  omega

/-- A session without blocks has no tokens. -/
theorem InStep.filled_eq_zero (h : InStep bs t) (hbs : 0 < bs) (hempty : t.slots = []) :
    t.filledTokens = 0 := by
  have := ((inStep_iff hbs).mp h).1
  simpa [hempty] using this

/-- `append` from a table in step. -/
theorem InStep.append (h : InStep bs t) (hbs : 0 < bs) {n : Nat}
    (hps : ps.length = newBlocksFor t bs n) : InStep bs (t.extend ps (t.filledTokens + n)) := by
  have hmono : (t.filledTokens + bs - 1) / bs ≤ (t.filledTokens + n + bs - 1) / bs :=
    Nat.div_le_div_right (by omega)
  unfold InStep at *
  unfold newBlocksFor at hps
  simp only [BlockTable.extend, length_append, length_map]
  omega

/-- Whole blocks onto a table without a partial last block. -/
theorem InStep.extend_full (hbs : 0 < bs) (h : InStep bs t) {m : Nat} (hm : t.filledTokens = m * bs)
    (hk : ps.length = k) : InStep bs (t.extend ps (t.filledTokens + k * bs)) := by
  have hlen : t.slots.length = m := by
    have := (inStep_iff hbs).mp h
    rw [hm] at this
    have h1 : m ≤ t.slots.length := Nat.le_of_mul_le_mul_right this.1 hbs
    have h2 : t.slots.length < m + 1 := by
      refine Nat.lt_of_mul_lt_mul_right (a := bs) ?_
      rw [Nat.succ_mul]
      exact this.2
    omega
  rw [hm, ← Nat.add_mul]
  exact inStep_full hbs (by simp [hlen, hk])

/-- Blocks the target has no tokens for, plus the donor's unfilled tail. -/
def spliceGap (bs hi : Nat) (u t : BlockTable) : Nat :=
  (t.slots.length * bs - t.filledTokens) + (hi * bs - u.filledTokens)

/-- **A splice keeps the target in step** exactly when the two partial blocks
together leave less than a block unfilled. -/
theorem splice_inStep_iff (hbs : 0 < bs) {u : BlockTable} (hu : InStep bs u) (ht : InStep bs t)
    {lo hi : Nat} (hs : Spans u lo hi ps) :
    InStep bs (t.extend ps (t.filledTokens + spliceFill u lo hi bs)) ↔
      hi ≤ lo ∨ spliceGap bs hi u t < bs := by
  obtain ⟨hu1, hu2⟩ := (inStep_iff hbs).mp hu
  obtain ⟨ht1, ht2⟩ := (inStep_iff hbs).mp ht
  have hlen := hs.length
  have hle := hs.le
  rw [inStep_iff hbs]
  simp only [BlockTable.extend, length_append, length_map, hlen, spliceFill,
    spliceGap]
  rcases Nat.lt_or_ge lo hi with hlt | hge
  · -- a non-empty range: the donor has filled more than the skipped blocks
    have hbound : hi * bs ≤ u.slots.length * bs := Nat.mul_le_mul_right bs hs.bound
    have hlo : lo * bs + bs ≤ hi * bs := by
      rw [← Nat.succ_mul]
      exact Nat.mul_le_mul_right bs hlt
    have hsum : (t.slots.length + (hi - lo)) * bs
        = t.slots.length * bs + (hi * bs - lo * bs) := by
      rw [Nat.add_mul, Nat.sub_mul]
    have hspan : (hi - lo) * bs = hi * bs - lo * bs := Nat.sub_mul hi lo bs
    rw [hsum, hspan]
    omega
  · have h0 : hi - lo = 0 := by omega
    simp only [h0, Nat.zero_mul, Nat.zero_min, Nat.add_zero]
    exact ⟨fun _ => .inl hge, fun _ => ⟨ht1, ht2⟩⟩

end Tables

/-! ## Every session in step -/

/-- Every open session is in step. -/
def AllInStep (pool : KvBlockPool) : Prop :=
  ∀ s t, pool.tables.lookup s = some t → InStep pool.geom.blockSize t

/-- Any call but `restore`, and a `splice` only when it fits. -/
def SpliceFits (w : World) : Cmd → Prop
  | .splice src dst lo hi => ∀ u t, w.pool.tables.lookup src = some u →
      w.pool.tables.lookup dst = some t →
      hi ≤ lo ∨ spliceGap w.pool.geom.blockSize hi u t < w.pool.geom.blockSize
  | .restore _ _ => False
  | _ => True

theorem SpliceFits.notRestore {w : World} {c : Cmd} (h : SpliceFits w c) :
    c.notRestore = true := by
  cases c with
  | restore s h' => exact absurd h id
  | _ => rfl

namespace AllInStep

variable {pool pool' : KvBlockPool} (h : AllInStep pool)

include h

variable {s : SessionHandle} {t : BlockTable} {k : Nat} {ps : List PhysBlockId}

theorem onSession {t' : BlockTable} (ho : OnSession s t t' pool pool')
    (ht : InStep pool.geom.blockSize t → InStep pool.geom.blockSize t') : AllInStep pool' := by
  intro s' u hu
  rw [ho.rest.geom]
  by_cases hs : s' = s
  · subst hs
    obtain rfl : u = t' := Option.mem_unique hu ho.after
    exact ht (h s' t ho.before)
  · rw [ho.others s' hs] at hu
    exact h s' u hu

theorem sameTables (hg : pool'.geom = pool.geom) (ht : pool'.tables = pool.tables) :
    AllInStep pool' := by
  intro s t hs
  rw [hg]
  rw [ht] at hs
  exact h s t hs

theorem closed (hg : pool'.geom = pool.geom) (ht : pool'.tables = pool.tables.erase s) :
    AllInStep pool' := by
  intro s' t hs
  rw [ht] at hs
  rw [hg]
  exact h s' t (AssocMap.lookup_of_erase hs).2

variable (hbs : 0 < pool.geom.blockSize)

include hbs

theorem opened : AllInStep pool.opened := by
  intro s t hs
  rcases AssocMap.lookup_of_insert hs with ⟨-, rfl⟩ | ⟨-, hs⟩
  · show InStep pool.geom.blockSize ⟨[], 0⟩
    rw [inStep_iff hbs]
    simpa using hbs
  · exact h s t hs

theorem registered (hr : Registered k ps pool pool') : AllInStep pool' := by
  intro s t hs
  rw [hr.geom]
  by_cases hc : s = ⟨pool.nextSession⟩
  · subst hc
    obtain rfl : t = _ := Option.mem_unique hs hr.owner
    exact inStep_full hbs (by simp [hr.count])
  · rw [hr.others s hc] at hs
    exact h s t hs

/-- Whole filled blocks shared with an empty session. -/
theorem splicedPrefix {src dst : SessionHandle} {u : BlockTable}
    (hs : Spliced src dst 0 k u t ps pool pool') (hempty : t.slots = [])
    (hfull : k * pool.geom.blockSize ≤ u.filledTokens) : AllInStep pool' := by
  refine h.onSession hs.toOnSession fun ht => ?_
  rw [splice_inStep_iff hbs (h src u hs.donor) ht hs.spans]
  right
  have := ht.filled_eq_zero hbs hempty
  unfold spliceGap
  rw [hempty, this, length_nil, Nat.zero_mul]
  omega

/-- One returned call keeps every session in step, a `splice` if it fits. -/
theorem effect {issued : List SessionHandle} {c : Cmd} {r : Reply}
    (hc : SpliceFits ⟨pool, issued⟩ c) (he : Effect pool c r pool') : AllInStep pool' := by
  cases he with
  | openSession => exact h.opened hbs
  | cowKeep | commitKeep => exact h
  | append on _ count => exact h.onSession on fun ht => ht.append hbs count
  | evict _ ev =>
    refine h.onSession ev.toOnSession fun ht => ?_
    unfold InStep at *
    rwa [ev.length, ev.filled]
  | discard _ rest tables => exact h.closed rest.geom tables
  | splice hs =>
    refine h.onSession hs.toOnSession fun ht => ?_
    rw [splice_inStep_iff hbs (h _ _ hs.donor) ht hs.spans]
    exact hc _ _ hs.donor hs.before
  | splicePrefix hs hempty hfull => exact h.splicedPrefix hbs hs hempty hfull
  | splicePrefixFrom _ hs hempty hfull => exact h.splicedPrefix hbs hs hempty hfull
  | cowReplace _ _ _ on =>
    refine h.onSession on fun ht => ?_
    unfold InStep at *
    simpa using ht
  | registerPrefix hr => exact h.registered hbs hr
  | releasePrefix _ _ rest tables => exact h.closed rest.geom tables
  | allocShifted hok on _ count =>
    refine h.onSession on fun ht => ?_
    obtain ⟨m, hm⟩ := Nat.dvd_of_mod_eq_zero hok.aligned
    exact ht.extend_full hbs (m := m) (by rw [hm, Nat.mul_comm]) count
  | commit => exact h.sameTables rfl rfl
  | lookupChain _ touched => exact h.sameTables touched.sessions.geom touched.sessions.tables
  | @spliceCachedChain dst _ t ps pool₁ _ touched hempty on =>
    have hg := touched.sessions.geom
    refine (h.sameTables hg touched.sessions.tables).onSession on fun ht => ?_
    rw [hg]
    refine inStep_full hbs ?_
    rw [hempty]
    simp
  | releaseCached _ same => exact h.sameTables same.geom same.tables

omit hbs

theorem refused (c : Cmd) : AllInStep (c.refused pool) := by
  cases c with
  | registerPrefix donor k => exact h.sameTables rfl rfl
  | _ => exact h

omit h

theorem new (geom : KvGeometry) : AllInStep (.new geom) := by
  intro s t hs
  simp [KvBlockPool.new] at hs

end AllInStep

/-! ## Prediction and allocation -/

/-- `blocks_required` on an in-range request. -/
theorem blocksRequired_run (build : Build) (hlt : f + n < 2 ^ 64) (hbs : 0 < pool.geom.blockSize) :
    blocksRequired build f n pool = .ok ((f + n + pool.geom.blockSize - 1) / pool.geom.blockSize
      - (f + pool.geom.blockSize - 1) / pool.geom.blockSize) pool := by
  have hmono : (f + pool.geom.blockSize - 1) / pool.geom.blockSize
      ≤ (f + n + pool.geom.blockSize - 1) / pool.geom.blockSize :=
    Nat.div_le_div_right (by omega)
  have hwant : (f + n + pool.geom.blockSize - 1) / pool.geom.blockSize < f + n + 1 := by
    refine Nat.div_lt_of_lt_mul ?_
    have := Nat.le_mul_of_pos_left (f + n) hbs
    rw [Nat.mul_add]
    omega
  simp only [blocksRequired, bind_run, get_run, Outcome.andThen_ok, addUsizeIn_of_lt hlt, pure_run,
    blocksFor, divCeil, if_neg hbs.ne', subUsizeIn_of_le hmono (by omega)]

/-- What `append` does against the prediction `r`: it runs out of blocks
exactly when fewer than `r` are free, and otherwise takes `r`. -/
structure Predicts (build : Build) (pool : KvBlockPool) (s : SessionHandle) (n r : Nat) : Prop where
  fails : (∃ need avail pool', append build s n pool = .err (.outOfBlocks need avail) pool') ↔
    pool.freeBlocks < r
  takes : ∀ pool', append build s n pool = .ok () pool' → pool'.freeBlocks + r = pool.freeBlocks
  succeeds : r ≤ pool.freeBlocks → ∃ pool', append build s n pool = .ok () pool'

theorem predicts_of_inStep (build : Build) (hw : Wf pool) {s : SessionHandle} {t : BlockTable}
    (ht : pool.tables.lookup s = some t) (hin : InStep pool.geom.blockSize t)
    (hbs : 0 < pool.geom.blockSize) (hlt : t.filledTokens + n < 2 ^ 64) :
    ∃ r, blocksRequired build t.filledTokens n pool = .ok r pool ∧ Predicts build pool s n r := by
  refine ⟨_, blocksRequired_run build hlt hbs, ?_⟩
  rw [← hin]
  -- from here on the prediction is literally what `append` computes
  change Predicts build pool s n (newBlocksFor t pool.geom.blockSize n)
  have hfits : ¬ Overflows (append .debug s n pool) → append build s n pool = append .debug s n pool :=
    fun h => Fits.checked (m := (append · s n)) (fun _ => h) (append_unchecked s n)
  rcases append_cases hw ht hlt hbs.ne' with ⟨hfew, hrun⟩ | ⟨hroom, pool', ps, hrun, _, htaken, hps⟩
  · rw [hrun] at hfits
    have hrun := hfits id
    refine ⟨⟨fun _ => hfew, fun _ => ⟨_, _, _, hrun⟩⟩, fun pool' h => ?_, fun h => ?_⟩
    · rw [hrun] at h
      cases h
    · exact absurd hfew (Nat.not_lt.mpr h)
  rw [hrun] at hfits
  have hrun := hfits id
  refine ⟨⟨fun ⟨need, avail, pool'', h⟩ => ?_, fun h => ?_⟩, fun pool'' h => ?_,
    fun _ => ⟨pool', hrun⟩⟩
  · rw [hrun] at h
    cases h
  · exact absurd h (Nat.not_lt.mpr hroom)
  · rw [hrun] at h
    cases h
    unfold KvBlockPool.freeBlocks
    rw [htaken, ← hps]
    simp

/-- **Admission math agrees with allocation** in every run without `restore`
that overflows nothing and whose splices all fit: every open session is in
step and `blocks_required` predicts its `append`s; and a splice from such a
state keeps every session in step exactly when it fits. -/
theorem admission_matches_allocation {build : Build} {geom : KvGeometry} (hbs : 0 < geom.blockSize)
    {w : World} (hr : Reach build (Unwrapped build SpliceFits) geom w) :
    (∀ s t, w.pool.tables.lookup s = some t → InStep geom.blockSize t ∧ ∀ n,
      (t.filledTokens + n < 2 ^ 64 → ∃ r,
        blocksRequired build t.filledTokens n w.pool = .ok r w.pool ∧ Predicts build w.pool s n r) ∧
      (2 ^ 64 ≤ t.filledTokens + n → build = .debug →
        blocksRequired build t.filledTokens n w.pool = .abort .addOverflow ∧
        append build s n w.pool = .abort .addOverflow)) ∧
    (∀ src dst lo hi pool', Fits build (splice · src dst lo hi) w.pool →
      splice build src dst lo hi w.pool = .ok () pool' →
        (SpliceFits w (.splice src dst lo hi) ↔ AllInStep pool')) := by
  have hr := hr.checked
  obtain ⟨hi, hg⟩ := Reach.inv (fun w c hc => SpliceFits.notRestore hc) hr
  have hall : Inv w.pool ∧ w.pool.geom = geom ∧ AllInStep w.pool := by
    refine Steps.invariant (I := fun w => Inv w.pool ∧ w.pool.geom = geom ∧ AllInStep w.pool)
      ?_ hr ⟨inv_new geom, rfl, .new geom⟩
    rintro w c w' ⟨hi, hg, hs⟩ hc hstep
    have hnr := SpliceFits.notRestore hc
    refine ⟨World.step_inv hi hnr hstep, (World.step_geom hi hnr hstep).trans hg, ?_⟩
    rcases World.step_effect hi hnr hstep with ⟨r, he, _⟩ | ⟨hp, _⟩
    · exact hs.effect (by rwa [hg]) hc he
    · rw [hp]
      exact hs.refused c
  have hin := hall.2.2
  have hbs' : 0 < w.pool.geom.blockSize := by rwa [hg]
  refine ⟨fun s t ht => ⟨hg ▸ hin s t ht, fun n => ⟨fun hlt => ?_, ?_⟩⟩,
    fun src dst lo hi' pool' hfits hrun => ?_⟩
  · exact predicts_of_inStep build hi.wf ht (hin s t ht) hbs' hlt
  · rintro hge rfl
    have hover := Nat.not_lt.mpr hge
    simp only [blocksRequired, append, bind_run, get_run, Outcome.andThen_ok, table_run ht,
      addUsizeIn_overflow hover, abort_run, Outcome.andThen_abort, and_self]
  have hspec := splice_spec hi.wf src dst lo hi'
  rw [← hfits.checked (splice_unchecked src dst lo hi'), hrun] at hspec
  obtain ⟨u, t, ps, hs⟩ := hspec.of_ok
  have hiff := splice_inStep_iff hbs' (hin src u hs.donor) (hin dst t hs.before) hs.spans
  constructor
  · intro hfit
    exact hin.onSession hs.toOnSession fun _ => hiff.mpr (hfit u t hs.donor hs.before)
  · intro hin' u' t' hu' ht'
    obtain rfl : u' = u := Option.mem_unique hu' hs.donor
    obtain rfl : t' = t := Option.mem_unique ht' hs.before
    have := hin' dst _ hs.after
    rw [hs.rest.geom] at this
    exact hiff.mp this

/-- Six tokens in two blocks: the next three need one more. -/
theorem admission_after_append :
    ∃ w t, (World.new smallGeom).run .debug [.openSession, .append ⟨0⟩ 6] = some w ∧
      w.pool.tables.lookup ⟨0⟩ = some t ∧ t.filledTokens = 6 ∧ InStep 4 t ∧
      ∃ r, blocksRequired .debug 6 3 w.pool = .ok r w.pool ∧ Predicts .debug w.pool ⟨0⟩ 3 r := by
  have h : ((World.new smallGeom).run .debug [.openSession, .append ⟨0⟩ 6]).any fun w =>
      (w.pool.tables.lookup ⟨0⟩).map BlockTable.filledTokens = some 6 := by
    decide +kernel
  obtain ⟨w, hrun, h⟩ := (Option.any_eq_true _ _).mp h
  obtain ⟨t, ht, hfill⟩ := Option.map_eq_some_iff.mp (of_decide_eq_true h)
  have hreach : Reach .debug SpliceFits smallGeom w := by
    refine Steps.of_run (fun c hc w => ?_) hrun
    simp only [mem_cons, not_mem_nil, or_false] at hc
    rcases hc with rfl | rfl <;> trivial
  obtain ⟨hin, hpred⟩ := (admission_matches_allocation (by decide) hreach.unwrapped).1 ⟨0⟩ t ht
  refine ⟨w, t, hrun, ht, hfill, hin, ?_⟩
  have := (hpred 3).1 (by rw [hfill]; decide)
  rwa [hfill] at this

/-- One token shared onto a session that has one token: two blocks, two
tokens. `blocks_required` asks for a block for the next three; `append` takes
none. And a fill level that wraps, in a build without overflow checks: one
block, no tokens. -/
theorem admission_off_after_partial_splice :
    (∃ w t pool₁ pool₂, (World.new smallGeom).run .debug [.openSession, .append ⟨0⟩ 1, .openSession,
        .append ⟨1⟩ 1, .splice ⟨0⟩ ⟨1⟩ 0 1] = some w ∧
      w.pool.tables.lookup ⟨1⟩ = some t ∧ t.slots.length = 2 ∧ t.filledTokens = 2 ∧
      blocksRequired .debug 2 3 w.pool = .ok 1 pool₁ ∧ append .debug ⟨1⟩ 3 w.pool = .ok () pool₂ ∧
      pool₂.freeBlocks = w.pool.freeBlocks) ∧
    ∃ w t, (World.new smallGeom).run .release [.openSession, .append ⟨0⟩ 1,
        .append ⟨0⟩ (2 ^ 64 - 1)] = some w ∧
      w.pool.tables.lookup ⟨0⟩ = some t ∧ t.slots.length = 1 ∧ t.filledTokens = 0 := by
  have h : ((World.new smallGeom).run .debug [.openSession, .append ⟨0⟩ 1, .openSession,
      .append ⟨1⟩ 1, .splice ⟨0⟩ ⟨1⟩ 0 1]).any fun w => (w.pool.tables.lookup ⟨1⟩).any fun t =>
        (blocksRequired .debug 2 3 w.pool).any fun r _ =>
          (append .debug ⟨1⟩ 3 w.pool).any fun _ pool₂ => t.slots.length = 2 ∧ t.filledTokens = 2 ∧
            r = 1 ∧ pool₂.freeBlocks = w.pool.freeBlocks := by
    decide +kernel
  have h' : ((World.new smallGeom).run .release [.openSession, .append ⟨0⟩ 1,
      .append ⟨0⟩ (2 ^ 64 - 1)]).any fun w => (w.pool.tables.lookup ⟨0⟩).any fun t =>
        t.slots.length = 1 ∧ t.filledTokens = 0 := by
    decide +kernel
  obtain ⟨w, hrun, h⟩ := (Option.any_eq_true _ _).mp h
  obtain ⟨t, ht, h⟩ := (Option.any_eq_true _ _).mp h
  obtain ⟨r, pool₁, hreq, h⟩ := Outcome.any_eq_true.mp h
  obtain ⟨_, pool₂, happ, h⟩ := Outcome.any_eq_true.mp h
  obtain ⟨hlen, hfill, rfl, hfree⟩ := of_decide_eq_true h
  obtain ⟨w', hrun', h'⟩ := (Option.any_eq_true _ _).mp h'
  obtain ⟨t', ht', h'⟩ := (Option.any_eq_true _ _).mp h'
  exact ⟨⟨w, t, pool₁, pool₂, hrun, ht, hlen, hfill, hreq, happ, hfree⟩, w', t', hrun', ht',
    of_decide_eq_true h'⟩

end Fuel.KvPool
