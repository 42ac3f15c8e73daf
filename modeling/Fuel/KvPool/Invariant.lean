import Fuel.KvPool.IndexSpecs

/-!
# The KV block pool: one call, and whole runs

`Effect pool c r pool'` collects the operation specifications: what the call
`c` may do when it returns `Ok`, with overflow checks. Every invariant of the pool over runs without
`restore` is shown once per constructor of `Effect` and then carried along
runs by `Steps.invariant`.
-/

namespace Fuel.KvPool

open Fuel Method

/-- The session a call evicts blocks of. -/
def Cmd.evicts : Cmd → Option SessionHandle
  | .evict s | .evictBlocks s _ | .evictRange s _ _ => some s
  | _ => none

theorem Cmd.sessions_of_evicts {c : Cmd} {s : SessionHandle} (h : c.evicts = some s) :
    c.sessions = [s] := by
  cases c <;> cases h <;> rfl

/-- What a call that returns `Ok` does, by operation. -/
inductive Effect (pool : KvBlockPool) : Cmd → Reply → KvBlockPool → Prop
  | openSession : Effect pool .openSession (.session ⟨pool.nextSession⟩) pool.opened
  | append {s n t ps pool'}
      (on : OnSession s t (t.extend ps (t.filledTokens + n)) pool pool')
      (taken : pool.free = pool'.free ++ ps.reverse)
      (count : ps.length = newBlocksFor t pool.geom.blockSize n)
      (size : pool.geom.blockSize ≠ 0) :
      Effect pool (.append s n) .unit pool'
  | evict {c s r t t' pool'} (call : c.evicts = some s) (ev : Evicted s t t' pool pool') :
      Effect pool c (.report r) pool'
  | discard {s pool'} (wf : Wf pool') (rest : SameRest pool pool')
      (tables : pool'.tables = pool.tables.erase s) : Effect pool (.discard s) .unit pool'
  | splice {src dst lo hi u t ps pool'} (h : Spliced src dst lo hi u t ps pool pool') :
      Effect pool (.splice src dst lo hi) .unit pool'
  | splicePrefix {src dst k u t ps pool'} (h : Spliced src dst 0 k u t ps pool pool')
      (empty : t.slots = []) (full : k * pool.geom.blockSize ≤ u.filledTokens) :
      Effect pool (.splicePrefix src dst k) (.tokens (k * pool.geom.blockSize)) pool'
  | cowKeep {s i p} : Effect pool (.cowBreak s i) (.block p) pool
  | cowReplace {s i t p q pool'} (slot : t.slots[i]? = some (.resident p))
      (shared : 1 < pool.refcount.getD p 0) (taken : pool.free = pool'.free ++ [q])
      (on : OnSession s t { t with slots := t.slots.set i (.resident q) } pool pool') :
      Effect pool (.cowBreak s i) (.block q) pool'
  | registerPrefix {donor k ps pool'} (h : Registered k ps pool pool') :
      Effect pool (.registerPrefix donor k) (.prefixId ⟨pool.nextPrefix⟩) pool'
  | releasePrefix {id o pool'} (entry : pool.prefixes.lookup id = some o) (wf : Wf pool')
      (rest : SameRest { pool with prefixes := pool.prefixes.erase id } pool')
      (tables : pool'.tables = pool.tables.erase o.owner) :
      Effect pool (.releasePrefix id) .unit pool'
  | splicePrefixFrom {id o dst u t ps pool'} (entry : pool.prefixes.lookup id = some o)
      (h : Spliced o.owner dst 0 o.prefixBlocks u t ps pool pool') (empty : t.slots = [])
      (full : o.prefixBlocks * pool.geom.blockSize ≤ u.filledTokens) :
      Effect pool (.splicePrefixFrom id dst)
        (.tokens (o.prefixBlocks * pool.geom.blockSize)) pool'
  | allocShifted {id dst o d u pool'} {src ps : List PhysBlockId}
      (ok : ShiftedAllocOk id dst o d u pool)
      (on : OnSession dst d
        (d.extend ps (d.filledTokens + o.prefixBlocks * pool.geom.blockSize)) pool pool')
      (taken : pool.free = pool'.free ++ ps.reverse) (count : ps.length = o.prefixBlocks) :
      Effect pool (.allocShiftedPrefixSlots id dst) (.shifted d.filledTokens (src.zip ps)) pool'
  | commitKeep {s i hash} : Effect pool (.commitBlock s i hash) (.committed false) pool
  | commit {s i hash p} (wf : Wf (pool.committed p hash)) :
      Effect pool (.commitBlock s i hash) (.committed true) (pool.committed p hash)
  | lookupChain {hashes ps pool'} (wf : Wf pool') (touched : Touched pool pool') :
      Effect pool (.lookupChain hashes) (.blocks ps) pool'
  | spliceCachedChain {dst hashes t ps pool₁ pool'} (touched : Touched pool pool₁)
      (empty : t.slots = [])
      (on : OnSession dst t (t.extend ps (ps.length * pool.geom.blockSize)) pool₁ pool') :
      Effect pool (.spliceCachedChain dst hashes)
        (.tokens (ps.length * pool.geom.blockSize)) pool'
  | releaseCached {hash pool'} (wf : Wf pool') (same : SameSessions pool pool') :
      Effect pool (.releaseCached hash) .unit pool'

/-- The state a refused call leaves: the one it found, up to the session
counter for `register_prefix`. -/
def Cmd.refused : Cmd → KvBlockPool → KvBlockPool
  | .registerPrefix _ _, pool => pool.skipSession
  | _, pool => pool

/-- The invariant of the pool: exact counts, and registered owners that
still hold their blocks. -/
structure Inv (pool : KvBlockPool) : Prop where
  wf : Wf pool
  owners : OwnersHold pool

/-! ## One call -/

section Exec

variable {pool : KvBlockPool}

/-- A call that returns a reply computed from the operation's result. -/
theorem reply_spec {α : Type} {m : PoolM α} {s₀ : KvBlockPool}
    {Q : α → KvBlockPool → Prop} {c : Cmd} {f : α → Reply}
    (h : (m pool).AllOrNothing s₀ Q) (hf : ∀ a pool', Q a pool' → Effect pool c (f a) pool') :
    ((m pool).andThen fun a pool' => .ok (f a) pool').AllOrNothing s₀ (Effect pool c) :=
  h.andThen fun a pool' hq => .ok (hf a pool' hq)

/-- **What a call can do.** From exact counts, every operation but `restore`
has its effect, or refuses and changes nothing, or aborts in the arithmetic
on the caller's numbers — or in the `expect` of `alloc_shifted_prefix_slots`,
if an owner has lost a slot. -/
theorem exec_cases (hw : Wf pool) {c : Cmd} (hc : c.notRestore = true) :
    (c.exec .debug pool).AllOrNothing (c.refused pool) (Effect pool c) ∨
      (c.exec .debug pool = .abort .expectFailed ∧ ¬ OwnersHold pool) := by
  cases c with
  | openSession => exact .inl (.ok .openSession)
  | append s n =>
    exact .inl (reply_spec (append_spec hw s n)
      fun _ _ ⟨_, _, on, taken, count, size⟩ => .append on taken count size)
  | evict s => exact .inl (reply_spec (evict_spec hw s) fun _ _ ⟨_, _, ev⟩ => .evict rfl ev)
  | evictBlocks s is =>
    exact .inl (reply_spec (evictBlocks_spec hw s is) fun _ _ ⟨_, _, ev⟩ => .evict rfl ev)
  | evictRange s lo hi =>
    exact .inl (reply_spec (evictRange_spec hw s lo hi) fun _ _ ⟨_, _, ev⟩ => .evict rfl ev)
  | restore s h => simp [Cmd.notRestore] at hc
  | discard s =>
    obtain ⟨pool', hrun, hw', hr, htab⟩ := discard_spec hw s
    have : Cmd.exec .debug (.discard s) pool = .ok .unit pool' := by simp [Cmd.exec, hrun]
    rw [this]
    exact .inl (.ok (.discard hw' hr htab))
  | splice src dst lo hi =>
    exact .inl (reply_spec (splice_spec hw src dst lo hi) fun _ _ ⟨_, _, _, h⟩ => .splice h)
  | splicePrefix src dst k =>
    refine .inl (reply_spec (splicePrefix_spec hw src dst k) ?_)
    rintro _ _ ⟨_, _, _, h, empty, full, _, rfl⟩
    exact .splicePrefix h empty full
  | cowBreak s i =>
    refine .inl (reply_spec (cowBreak_spec hw s i) ?_)
    rintro q pool' ⟨t, p, _, hslot, ⟨_, _, rfl⟩ | ⟨hrc, taken, _, on⟩⟩
    · exact .cowKeep
    · exact .cowReplace hslot hrc taken on
  | registerPrefix donor k =>
    refine .inl (reply_spec (registerPrefix_spec hw donor k) ?_)
    rintro _ _ ⟨rfl, ps, h⟩
    exact .registerPrefix h
  | releasePrefix id =>
    exact .inl (reply_spec (releasePrefix_spec hw id)
      fun _ _ ⟨_, entry, hw', hr, htab⟩ => .releasePrefix entry hw' hr htab)
  | splicePrefixFrom id dst =>
    refine .inl (reply_spec (splicePrefixFrom_spec hw id dst) ?_)
    rintro _ _ ⟨_, _, _, _, entry, h, empty, full, rfl⟩
    exact .splicePrefixFrom entry h empty full
  | allocShiftedPrefixSlots id dst =>
    rcases allocShiftedPrefixSlots_cases hw id dst with h | ⟨hrun, hno⟩
    · left
      refine reply_spec (f := fun r : Nat × List (PhysBlockId × PhysBlockId) =>
        .shifted r.1 r.2) h ?_
      rintro _ _ ⟨_, _, _, src, ps, hok, rfl, _, on, taken, count⟩
      exact .allocShifted hok on taken count
    · exact .inr ⟨by simp [Cmd.exec, hrun], hno⟩
  | commitBlock s i hash =>
    refine .inl (reply_spec (commitBlock_spec hw s i hash) ?_)
    rintro b pool' ⟨_, p, _, _, _, hw', ⟨rfl, rfl⟩ | ⟨rfl, _, _, rfl⟩⟩
    · exact .commitKeep
    · exact .commit hw'
  | lookupChain hashes =>
    obtain ⟨pool', hrun, hw', ht, _⟩ := lookupChain_spec hw hashes
    have : Cmd.exec .debug (.lookupChain hashes) pool
        = .ok (.blocks (lookupHits hashes pool).1) pool' := by simp [Cmd.exec, hrun]
    rw [this]
    exact .inl (.ok (.lookupChain hw' ht))
  | spliceCachedChain dst hashes =>
    refine .inl (reply_spec (spliceCachedChain_spec hw dst hashes) ?_)
    rintro _ _ ⟨_, _, _, _, ht, empty, on, _, rfl, _⟩
    exact .spliceCachedChain ht empty on
  | releaseCached hash =>
    exact .inl (reply_spec (releaseCached_spec hw hash)
      fun _ _ ⟨_, _, hw', hs, _⟩ => .releaseCached hw' hs)

/-- While the owners hold their blocks, arithmetic is all that can abort. -/
theorem exec_spec (hi : Inv pool) {c : Cmd} (hc : c.notRestore = true) :
    (c.exec .debug pool).AllOrNothing (c.refused pool) (Effect pool c) := by
  rcases exec_cases hi.wf hc with h | ⟨_, hno⟩
  · exact h
  · exact absurd hi.owners hno

end Exec

/-! ## The invariant is kept -/

section Preservation

variable {pool pool' : KvBlockPool} {c : Cmd} {r : Reply} (t : BlockTable)

/-- `t'` has `t`'s slots, none of them externalized, and perhaps more. -/
structure Grows (t t' : BlockTable) : Prop where
  length : t.slots.length ≤ t'.slots.length
  resident : Slot.externalized ∉ t.slots → Slot.externalized ∉ t'.slots

theorem Grows.refl : Grows t t := ⟨Nat.le_refl _, id⟩

theorem Grows.extend (ps : List PhysBlockId) (n : Nat) :
    Grows t (t.extend ps n) := by
  refine ⟨by simp [BlockTable.extend], fun h hmem => ?_⟩
  rcases List.mem_append.mp hmem with hmem | hmem
  · exact h hmem
  · simp at hmem

theorem Grows.set (i : Nat) (q : PhysBlockId) :
    Grows t { t with slots := t.slots.set i (.resident q) } := by
  refine ⟨by simp, fun h hmem => ?_⟩
  rcases List.mem_or_eq_of_mem_set hmem with hmem | hmem
  · exact h hmem
  · simp at hmem

theorem isPrefixOwner_of_lookup {id : PrefixId} {o : PrefixOwner}
    (h : pool.prefixes.lookup id = some o) : pool.isPrefixOwner o.owner = true := by
  unfold KvBlockPool.isPrefixOwner
  rw [AssocMap.any_values_iff (q := fun x : PrefixOwner => x.owner == o.owner)]
  exact ⟨id, o, h, by simp⟩

namespace OwnersHold

variable (h : OwnersHold pool)

include h

/-- No entry is added, the counters do not go back, and each owner's table
only grows. -/
theorem of_grows
    (hpre : ∀ id o, pool'.prefixes.lookup id = some o → pool.prefixes.lookup id = some o)
    (hs : pool.nextSession ≤ pool'.nextSession) (hp : pool.nextPrefix ≤ pool'.nextPrefix)
    (htab : ∀ id o t', pool.prefixes.lookup id = some o →
      pool'.tables.lookup o.owner = some t' →
      ∃ t, pool.tables.lookup o.owner = some t ∧ Grows t t') : OwnersHold pool' := by
  refine ⟨fun id o ho => ?_, fun id o ho => ?_, fun id o t' ho ht' => ?_⟩
  · exact Nat.lt_of_lt_of_le (h.minted id o (hpre id o ho)) hs
  · exact Nat.lt_of_lt_of_le (h.fresh id o (hpre id o ho)) hp
  · obtain ⟨t, ht, hg⟩ := htab id o t' (hpre id o ho) ht'
    obtain ⟨hk, hres⟩ := h.holds id o t (hpre id o ho) ht
    exact ⟨Nat.le_trans hk hg.length, hg.resident hres⟩

theorem onSession {s : SessionHandle} {t t' : BlockTable} (ho : OnSession s t t' pool pool')
    (hg : pool.isPrefixOwner s = true → Grows t t') : OwnersHold pool' := by
  refine h.of_grows (fun id o hl => by rwa [ho.rest.prefixes] at hl)
    (Nat.le_of_eq ho.rest.nextSession.symm) (Nat.le_of_eq ho.rest.nextPrefix.symm) ?_
  intro id o t'' hl ht''
  by_cases hs : o.owner = s
  · subst hs
    obtain rfl : t'' = t' := Option.mem_unique ht'' ho.after
    exact ⟨t, ho.before, hg (isPrefixOwner_of_lookup hl)⟩
  · rw [ho.others _ hs] at ht''
    exact ⟨t'', ht'', .refl t''⟩

theorem sameSessions (hs : SameSessions pool pool') : OwnersHold pool' := by
  refine h.of_grows (fun id o hl => by rwa [hs.prefixes] at hl)
    (Nat.le_of_eq hs.nextSession.symm) (Nat.le_of_eq hs.nextPrefix.symm) ?_
  intro id o t' _ ht'
  rw [hs.tables] at ht'
  exact ⟨t', ht', .refl t'⟩

/-- Closing a session takes no slot from an open one. -/
theorem closed {s : SessionHandle}
    (hpre : ∀ id o, pool'.prefixes.lookup id = some o → pool.prefixes.lookup id = some o)
    (hn : pool'.nextSession = pool.nextSession) (hp : pool'.nextPrefix = pool.nextPrefix)
    (htab : pool'.tables = pool.tables.erase s) : OwnersHold pool' := by
  refine h.of_grows hpre (Nat.le_of_eq hn.symm) (Nat.le_of_eq hp.symm) ?_
  intro id o t' _ ht'
  rw [htab, AssocMap.lookup_erase_ite] at ht'
  by_cases hs : o.owner = s
  · simp [hs] at ht'
  · rw [if_neg hs] at ht'
    exact ⟨t', ht', .refl t'⟩

/-- An owner's handle is not the next one. -/
theorem owner_ne {id : PrefixId} {o : PrefixOwner} (hl : pool.prefixes.lookup id = some o) :
    o.owner ≠ ⟨pool.nextSession⟩ := by
  intro hc
  have := h.minted id o hl
  rw [hc] at this
  exact Nat.lt_irrefl _ this

theorem opened : OwnersHold pool.opened := by
  refine h.of_grows (fun id o hl => hl) (Nat.le_succ _) (Nat.le_refl _) ?_
  intro id o t' hl ht'
  rcases AssocMap.lookup_of_insert ht' with ⟨hc, -⟩ | ⟨-, ht'⟩
  · exact absurd hc (h.owner_ne hl)
  · exact ⟨t', ht', .refl t'⟩

theorem skipSession : OwnersHold pool.skipSession :=
  h.of_grows (fun _ _ hl => hl) (Nat.le_succ _) (Nat.le_refl _)
    fun _ _ t' _ ht' => ⟨t', ht', .refl t'⟩

theorem registered {k : Nat} {ps : List PhysBlockId} (hr : Registered k ps pool pool') :
    OwnersHold pool' := by
  -- an entry of the new registry is the new one or an old one
  have hcases : ∀ id o, pool'.prefixes.lookup id = some o →
      (id = ⟨pool.nextPrefix⟩ ∧ o = ⟨⟨pool.nextSession⟩, k⟩) ∨
        pool.prefixes.lookup id = some o := by
    intro id o hl
    rw [hr.prefixes] at hl
    exact (AssocMap.lookup_of_insert hl).imp_right And.right
  refine ⟨fun id o hl => ?_, fun id o hl => ?_, fun id o t hl ht => ?_⟩
  · rw [hr.nextSession]
    rcases hcases id o hl with ⟨_, rfl⟩ | hold
    · exact Nat.lt_succ_self _
    · exact Nat.lt_succ_of_lt (h.minted id o hold)
  · rw [hr.nextPrefix]
    rcases hcases id o hl with ⟨rfl, _⟩ | hold
    · exact Nat.lt_succ_self _
    · exact Nat.lt_succ_of_lt (h.fresh id o hold)
  rcases hcases id o hl with ⟨_, rfl⟩ | hold
  · obtain rfl : t = _ := Option.mem_unique ht hr.owner
    simp [hr.count]
  · rw [hr.others _ (h.owner_ne hold)] at ht
    exact h.holds id o t hold ht

omit h

theorem new (geom : KvGeometry) : OwnersHold (.new geom) := by
  refine ⟨?_, ?_, ?_⟩ <;> simp [KvBlockPool.new]

end OwnersHold

/-- The geometry of a pool never changes. -/
theorem Effect.geom (h : Effect pool c r pool') : pool'.geom = pool.geom := by
  cases h with
  | openSession | cowKeep | commitKeep | commit => rfl
  | append on => exact on.rest.geom
  | evict _ ev => exact ev.rest.geom
  | cowReplace _ _ _ on | allocShifted _ on => exact on.rest.geom
  | discard _ rest => exact rest.geom
  | releasePrefix _ _ rest => exact rest.geom
  | splice h | splicePrefix h => exact h.rest.geom
  | splicePrefixFrom _ h => exact h.rest.geom
  | registerPrefix h => exact h.geom
  | lookupChain _ touched => exact touched.sessions.geom
  | spliceCachedChain touched _ on => exact on.rest.geom.trans touched.sessions.geom
  | releaseCached _ same => exact same.geom

/-- Every returned call keeps the counts exact. -/
theorem Effect.wf (hw : Wf pool) (h : Effect pool c r pool') : Wf pool' := by
  cases h with
  | openSession => exact opened_wf hw
  | cowKeep | commitKeep => exact hw
  | append on => exact on.wf
  | evict _ ev => exact ev.wf
  | cowReplace _ _ _ on | allocShifted _ on => exact on.wf
  | spliceCachedChain _ _ on => exact on.wf
  | discard wf | commit wf | lookupChain wf | releaseCached wf => exact wf
  | releasePrefix _ wf => exact wf
  | splice h | splicePrefix h => exact h.wf
  | splicePrefixFrom _ h => exact h.wf
  | registerPrefix h => exact h.wf

/-- Every returned call leaves the owners their blocks. -/
theorem Effect.owners (hi : OwnersHold pool) (h : Effect pool c r pool') : OwnersHold pool' := by
  cases h with
  | openSession => exact hi.opened
  | cowKeep | commitKeep => exact hi
  | append on => exact hi.onSession on fun _ => .extend _ _ _
  | evict _ ev => exact hi.onSession ev.toOnSession fun h => ev.own h ▸ .refl _
  | cowReplace _ _ _ on => exact hi.onSession on fun _ => .set _ _ _
  | allocShifted _ on => exact hi.onSession on fun _ => .extend _ _ _
  | spliceCachedChain touched _ on =>
    exact (hi.sameSessions touched.sessions).onSession on fun _ => .extend _ _ _
  | discard _ rest tables =>
    exact hi.closed (fun _ _ hl => by rwa [rest.prefixes] at hl) rest.nextSession
      rest.nextPrefix tables
  | commit => exact hi.sameSessions (committed_sessions _ _ _)
  | lookupChain _ touched => exact hi.sameSessions touched.sessions
  | releaseCached _ same => exact hi.sameSessions same
  | @releasePrefix id _ _ _ _ rest tables =>
    refine hi.closed (fun id' o hl => ?_) rest.nextSession rest.nextPrefix tables
    rw [rest.prefixes] at hl
    have hl : (pool.prefixes.erase id).lookup id' = some o := hl
    rw [AssocMap.lookup_erase_ite] at hl
    by_cases hid : id' = id
    · simp [hid] at hl
    · rwa [if_neg hid] at hl
  | splice h | splicePrefix h => exact hi.onSession h.toOnSession fun _ => .extend _ _ _
  | splicePrefixFrom _ h => exact hi.onSession h.toOnSession fun _ => .extend _ _ _
  | registerPrefix h => exact hi.registered h

theorem Effect.inv (hi : Inv pool) (h : Effect pool c r pool') : Inv pool' :=
  ⟨h.wf hi.wf, h.owners hi.owners⟩

theorem AccountsFor.refused (hw : Wf pool) (c : Cmd) : Wf (c.refused pool) := by
  cases c with
  | registerPrefix donor k =>
    exact { hw with sessions := fun s t ht => Nat.lt_succ_of_lt (hw.sessions s t ht) }
  | _ => exact hw

theorem Inv.refused (hi : Inv pool) (c : Cmd) : Inv (c.refused pool) := by
  refine ⟨hi.wf.refused c, ?_⟩
  cases c with
  | registerPrefix donor k => exact hi.owners.skipSession
  | _ => exact hi.owners

theorem inv_new (geom : KvGeometry) : Inv (.new geom) := ⟨wf_new geom, .new geom⟩

end Preservation

/-! ## Whole runs -/

/-- A call that returned, from a pool that satisfies the invariant: its
effect, or nothing. -/
theorem World.step_effect {w w' : World} {c : Cmd} (hi : Inv w.pool)
    (hc : c.notRestore = true) (h : w.step .debug c = some w') :
    (∃ r, Effect w.pool c r w'.pool ∧ w'.issued = w.issued ++ r.issued) ∨
      (w'.pool = c.refused w.pool ∧ w'.issued = w.issued) := by
  have hspec := exec_spec hi hc
  rcases World.step_eq_some h with ⟨r, hr, hiss⟩ | ⟨e, he, hiss⟩
  · rw [hr] at hspec
    exact .inl ⟨r, hspec.of_ok, hiss⟩
  · rw [he] at hspec
    exact .inr ⟨hspec.of_err, hiss⟩

theorem World.step_inv {w w' : World} {c : Cmd} (hi : Inv w.pool)
    (hc : c.notRestore = true) (h : w.step .debug c = some w') : Inv w'.pool := by
  rcases World.step_effect hi hc h with ⟨r, he, _⟩ | ⟨hp, _⟩
  · exact he.inv hi
  · rw [hp]
    exact hi.refused c

theorem Cmd.refused_geom (c : Cmd) (pool : KvBlockPool) : (c.refused pool).geom = pool.geom := by
  cases c <;> rfl

theorem World.step_geom {w w' : World} {c : Cmd} (hi : Inv w.pool)
    (hc : c.notRestore = true) (h : w.step .debug c = some w') : w'.pool.geom = w.pool.geom := by
  rcases World.step_effect hi hc h with ⟨r, he, _⟩ | ⟨hp, _⟩
  · exact he.geom
  · rw [hp, Cmd.refused_geom]

/-- **Every state reached without `restore` satisfies the invariant**,
whatever else restricts the calls. -/
theorem Reach.inv {allowed : World → Cmd → Prop} {geom : KvGeometry} {w : World}
    (hallowed : ∀ w c, allowed w c → c.notRestore = true) (h : Reach .debug allowed geom w) :
    Inv w.pool ∧ w.pool.geom = geom := by
  refine Steps.invariant (I := fun w => Inv w.pool ∧ w.pool.geom = geom) ?_ h
    ⟨inv_new geom, rfl⟩
  rintro w c w' ⟨hi, hg⟩ hc hs
  exact ⟨World.step_inv hi (hallowed w c hc) hs,
    (World.step_geom hi (hallowed w c hc) hs).trans hg⟩

end Fuel.KvPool
