import Fuel.KvPool.Specs

/-!
# The KV block pool: specifications of the content index

The operations of `block_index.rs`, with overflow checks, from a pool whose
counts are exact. They write the index and the counts; only `splice_cached_chain` also writes a
session's table.
-/

namespace Fuel.KvPool

open Fuel Method KvBlockPool Outcome

/-! ## Frames -/

/-- The sessions, the registry and the counters are the same. -/
structure SameSessions (pool pool' : KvBlockPool) : Prop where
  geom : pool'.geom = pool.geom
  tables : pool'.tables = pool.tables
  nextSession : pool'.nextSession = pool.nextSession
  prefixes : pool'.prefixes = pool.prefixes
  nextPrefix : pool'.nextPrefix = pool.nextPrefix

/-- Everything but the time stamps of the index and its statistics is the
same. -/
structure Touched (pool pool' : KvBlockPool) : Prop where
  rest : { pool with cached := ∅, tick := 0, cacheStats := {} }
    = { pool' with cached := ∅, tick := 0, cacheStats := {} }
  blocks : ∀ h, (pool'.cached.lookup h).map CachedBlock.block
    = (pool.cached.lookup h).map CachedBlock.block

namespace Touched

variable {pool pool' pool'' : KvBlockPool}

theorem refl (pool : KvBlockPool) : Touched pool pool := ⟨rfl, fun _ => rfl⟩

variable (h : Touched pool pool')

include h

theorem trans (h' : Touched pool' pool'') : Touched pool pool'' :=
  ⟨h.rest.trans h'.rest, fun x => (h'.blocks x).trans (h.blocks x)⟩

theorem sessions : SameSessions pool pool' :=
  ⟨(congrArg geom h.rest).symm, (congrArg tables h.rest).symm,
    (congrArg nextSession h.rest).symm,
    (congrArg prefixes h.rest).symm,
    (congrArg nextPrefix h.rest).symm⟩

theorem free : pool'.free = pool.free :=
  (congrArg KvBlockPool.free h.rest).symm

theorem refcount : pool'.refcount = pool.refcount :=
  (congrArg KvBlockPool.refcount h.rest).symm

theorem isCached (p : PhysBlockId) : pool'.isCached p = pool.isCached p := by
  rw [Bool.eq_iff_iff, isCached_iff, isCached_iff]
  exact exists_congr fun x => by rw [h.blocks x]

end Touched

section Index

variable {pool : KvBlockPool}

/-! ## Committing and releasing -/

/-- The pool after `p` has been entered under `hash`. -/
def KvBlockPool.committed (pool : KvBlockPool) (p : PhysBlockId) (hash : BlockHash) :
    KvBlockPool :=
  { pool with
    refcount := pool.refcount.set p (pool.refcount.getD p 0 + 1)
    tick := pool.tick + 1
    cached := pool.cached.insert hash ⟨p, pool.tick + 1⟩
    cachedByBlock := pool.cachedByBlock.insert p hash
    cacheStats := { pool.cacheStats with commits := pool.cacheStats.commits + 1 } }

theorem committed_sessions (pool : KvBlockPool) (p : PhysBlockId) (hash : BlockHash) :
    SameSessions pool (pool.committed p hash) := ⟨rfl, rfl, rfl, rfl, rfl⟩

/-- `commit_block` on a full resident block: entered, unless the hash or the
block is already there. -/
theorem commitBlock_spec (hw : Wf pool) (s : SessionHandle) (i : Nat) (hash : BlockHash) :
    (commitBlock .debug s i hash pool).AllOrNothing pool fun b pool' => ∃ t p,
      pool.tables.lookup s = some t ∧ t.slots[i]? = some (.resident p) ∧
      (i + 1) * pool.geom.blockSize ≤ t.filledTokens ∧ Wf pool' ∧
      ((b = false ∧ pool' = pool) ∨
        (b = true ∧ pool.cached.lookup hash = none ∧ pool.cachedByBlock.lookup p = none ∧
          pool' = pool.committed p hash)) := by
  unfold commitBlock
  rw [bind_run, get_run, andThen_ok, bind_run]
  refine (table_reads s pool).read fun t ht => ?_
  rw [bind_run]
  refine (okOr_reads _ _ pool).read fun slot hslot => ?_
  cases slot with
  | externalized => exact .refused _
  | resident p =>
    refine (addUsizeIn_reads _ _ pool).read fun next ⟨hnext, _⟩ => ?_
    refine (mulUsizeIn_reads _ _ pool).read fun last ⟨hlast, _⟩ => ?_
    split
    · exact .refused _
    rename_i hfull
    have hfull : (i + 1) * pool.geom.blockSize ≤ t.filledTokens := by
      rw [← hnext, ← hlast]
      exact Nat.not_lt.mp hfull
    split
    · exact .ok ⟨t, p, ht, hslot, hfull, hw, .inl ⟨rfl, rfl⟩⟩
    rename_i hnew
    have hpos := hw.slot_pos ht (List.mem_of_getElem? hslot)
    have hlt := hw.lt_length hpos
    have hhash : pool.cached.lookup hash = none := by
      by_contra hc
      exact hnew (.inl (Option.isSome_iff_ne_none.mpr hc))
    have hblock : pool.cachedByBlock.lookup p = none := by
      by_contra hc
      exact hnew (.inr (Option.isSome_iff_ne_none.mpr hc))
    rw [bind_run, refcountAt_run hlt, andThen_ok, bind_run]
    by_cases hfits : pool.refcount.getD p 0 + 1 < 2 ^ 32
    · simp only [addU32In, if_pos hfits, bind_run, pure_run, andThen_ok, setRefcount_run hlt, get_run,
        set_run]
      exact .ok ⟨t, p, ht, hslot, hfull, (hw.bump hpos).commit hhash hblock _ _,
        .inr ⟨rfl, hhash, hblock, rfl⟩⟩
    · rw [addU32In, if_neg hfits]
      exact .arith rfl

/-- The entry goes, and with it the reference it held. -/
theorem releaseCached_spec (hw : Wf pool) (hash : BlockHash) :
    (releaseCached .debug hash pool).AllOrNothing pool fun _ pool' => ∃ e,
      pool.cached.lookup hash = some e ∧ Wf pool' ∧ SameSessions pool pool' ∧
      pool'.cached = pool.cached.erase hash ∧
      pool'.cachedByBlock = pool.cachedByBlock.erase e.block ∧ pool'.tick = pool.tick := by
  unfold releaseCached
  rw [bind_run, get_run, andThen_ok, bind_run]
  refine (okOr_reads _ _ pool).read fun e he => ?_
  rw [bind_run, set_run, andThen_ok]
  obtain ⟨pool', hrun, hw', hr, htab⟩ := dropRef_returns (hw.release he
    { pool.cacheStats with evictions := pool.cacheStats.evictions + 1 })
  rw [hrun]
  exact .ok ⟨e, he, hw', ⟨hr.geom, htab, hr.nextSession, hr.prefixes, hr.nextPrefix⟩,
    hr.cached, hr.cachedByBlock, hr.tick⟩

/-! ## Looking a chain up -/

/-- The hit loop only moves time stamps, and what it finds is cached. -/
theorem lookupHits_spec (hashes : List BlockHash) (pool : KvBlockPool) (hw : Wf pool) :
    Wf (lookupHits hashes pool).2 ∧ Touched pool (lookupHits hashes pool).2 ∧
      ∀ p ∈ (lookupHits hashes pool).1, pool.isCached p = true := by
  induction hashes generalizing pool with
  | nil => exact ⟨hw, .refl pool, by simp [lookupHits]⟩
  | cons h rest ih =>
    unfold lookupHits
    cases he : pool.cached.lookup h with
    | none => exact ⟨hw, .refl pool, by simp⟩
    | some e =>
      have hstep : Touched pool { pool with
          tick := pool.tick + 1
          cached := pool.cached.insert h ⟨e.block, pool.tick + 1⟩ } := by
        refine ⟨rfl, fun x => ?_⟩
        rw [AssocMap.lookup_insert_ite]
        by_cases hx : x = h
        · subst hx
          simp [he]
        · simp [hx]
      obtain ⟨hw', ht', hhits⟩ := ih _ (hw.touch he (pool.tick + 1))
      refine ⟨hw', hstep.trans ht', fun p hp => ?_⟩
      rcases List.mem_cons.mp hp with rfl | hp
      · exact isCached_iff.mpr ⟨h, by simp [he]⟩
      · rw [← hstep.isCached]
        exact hhits p hp

theorem lookupChain_spec (hw : Wf pool) (hashes : List BlockHash) :
    ∃ pool', lookupChain hashes pool = .ok (lookupHits hashes pool).1 pool' ∧
      Wf pool' ∧ Touched pool pool' ∧
      ∀ p ∈ (lookupHits hashes pool).1, pool.isCached p = true := by
  obtain ⟨hw', ht, hhits⟩ := lookupHits_spec hashes pool hw
  exact ⟨_, rfl, hw'.withStats _, ht.trans ⟨rfl, fun _ => rfl⟩, hhits⟩

/-- The cached chain is shared with an empty session, block by block. -/
theorem spliceCachedChain_spec (hw : Wf pool) (dst : SessionHandle)
    (hashes : List BlockHash) :
    (spliceCachedChain .debug dst hashes pool).AllOrNothing pool fun n pool' => ∃ t ps pool₁,
      lookupChain hashes pool = .ok ps pool₁ ∧ Touched pool pool₁ ∧ t.slots = [] ∧
      OnSession dst t (t.extend ps (ps.length * pool.geom.blockSize)) pool₁ pool' ∧
      pool'.free = pool.free ∧ n = ps.length * pool.geom.blockSize ∧
      ∀ p ∈ ps, pool.isCached p = true := by
  unfold spliceCachedChain
  rw [bind_run]
  refine (table_reads dst pool).read fun t ht => ?_
  by_cases hempty : t.slots = []
  case neg =>
    rw [if_pos hempty]
    exact .refused _
  obtain ⟨pool₁, hlook, hw₁, htouch, hhits⟩ := lookupChain_spec hw hashes
  rw [if_neg (not_not_intro hempty), bind_run, hlook, andThen_ok, bind_run]
  have ht₁ : pool₁.tables.lookup dst = some t := by
    rw [htouch.sessions.tables]
    exact ht
  refine ((shareSlots_spec hw₁ ht₁ fun p hp => ?_).andThen fun _ pool₂ hsh => ?_).allOrNothing pool
  · rw [htouch.refcount]
    exact hw.cached_pos (hhits p hp)
  have hgeom : pool₂.geom = pool.geom := hsh.rest.geom.trans htouch.sessions.geom
  rw [bind_run, get_run, andThen_ok, bind_run, hgeom]
  by_cases hlim : (lookupHits hashes pool).1.length * pool.geom.blockSize < 2 ^ 64
  · rw [mulUsizeIn_of_lt hlim, pure_run, andThen_ok, bind_run, tableMut_run hsh.after, andThen_ok]
    exact .ok ⟨t, _, pool₁, rfl, htouch, hempty, hsh.toOnSession.fill _,
      hsh.free.trans htouch.free, rfl, hhits⟩
  · rw [mulUsizeIn_overflow hlim]
    exact .overflow (.inr rfl)

end Index

end Fuel.KvPool
