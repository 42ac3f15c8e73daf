import Fuel.KvPool.Invariant

/-!
# The KV block pool: refused calls

Every operation checks before it writes: the session it grows is open, and
there are as many free blocks as it takes. So a call that returns `Err` has
written nothing, in either build and whatever the reference counts hold;
`register_prefix`, which opens a session first, closes it again. Only that last
step looks at the history: the handle it opened must not have been in use.
-/

namespace Fuel.KvPool

open Fuel Method KvBlockPool Outcome

/-- Handles not issued yet name no session. -/
def Fresh (pool : KvBlockPool) : Prop :=
  ∀ n, pool.nextSession ≤ n → pool.tables.lookup ⟨n⟩ = none

/-- What a call that grows `s` by `n` blocks has checked. -/
structure Ready (s : SessionHandle) (n : Nat) (pool : KvBlockPool) : Prop where
  isOpen : (pool.tables.lookup s).isSome
  free : n ≤ pool.free.length
  fresh : Fresh pool

section Writes

variable {build : Build} {pool : KvBlockPool} {s : SessionHandle} {n : Nat}

theorem ready_of_lookup {t : BlockTable} (ht : pool.tables.lookup s = some t)
    (hn : n ≤ pool.free.length) (h : Fresh pool) : Ready s n pool :=
  ⟨by rw [ht]; rfl, hn, h⟩

theorem setRefcount_proceeds {P : KvBlockPool → Prop} (p : PhysBlockId) (rc : Nat)
    (h : ∀ counts, P { pool with refcount := counts }) :
    (setRefcount p rc pool).Proceeds fun _ => P := by
  unfold setRefcount
  rw [bind_run, get_run, andThen_ok]
  split
  · exact h _
  · trivial

theorem refcountAt_proceeds {P : KvBlockPool → Prop} (h : P pool) (p : PhysBlockId) :
    (refcountAt p pool).Proceeds fun _ => P := index_proceeds _ _ h

namespace Ready

theorem withRefcount (h : Ready s n pool) (counts : List Nat) :
    Ready s n { pool with refcount := counts } := ⟨h.isOpen, h.free, h.fresh⟩

theorem tableMut (h : Ready s n pool) (f : BlockTable → BlockTable) :
    (tableMut s f pool).Proceeds fun _ => Ready s n := by
  obtain ⟨t, ht⟩ := Option.isSome_iff_exists.mp h.isOpen
  rw [tableMut_run ht]
  refine ⟨by simp, h.free, fun m hm => ?_⟩
  have hne : (⟨m⟩ : SessionHandle) ≠ s := by
    rintro rfl
    rw [h.fresh m hm] at ht
    cases ht
  rw [AssocMap.lookup_insert_ite, if_neg hne]
  exact h.fresh m hm

theorem setSlot (h : Ready s n pool) (i : Nat) (slot : Slot) :
    (setSlot s i slot pool).Proceeds fun _ => Ready s n := by
  obtain ⟨t, ht⟩ := Option.isSome_iff_exists.mp h.isOpen
  unfold KvPool.setSlot
  rw [bind_run, table_run ht, andThen_ok]
  split
  · exact h.tableMut _
  · trivial

theorem addFilled (h : Ready s n pool) (tokens : Nat) :
    (addFilled build s tokens pool).Proceeds fun _ => Ready s n := by
  obtain ⟨t, ht⟩ := Option.isSome_iff_exists.mp h.isOpen
  unfold KvPool.addFilled
  rw [bind_run, table_run ht, andThen_ok, bind_run]
  exact (usizeResult_proceeds h ..).andThen fun _ _ h => h.tableMut _

theorem takeFree (h : Ready s (n + 1) pool) : (takeFree pool).Proceeds fun _ => Ready s n := by
  unfold KvPool.takeFree
  rw [bind_run, get_run, andThen_ok]
  cases hlast : pool.free.getLast? with
  | none =>
    have := h.free
    rw [List.getLast?_eq_none_iff.mp hlast] at this
    exact absurd this (Nat.not_succ_le_zero n)
  | some p =>
    refine ⟨h.isOpen, ?_, h.fresh⟩
    have := h.free
    simp only [List.length_dropLast]
    omega

theorem allocSlot (h : Ready s (n + 1) pool) : (allocSlot s pool).Proceeds fun _ => Ready s n :=
  h.takeFree.andThen fun p _ h => (setRefcount_proceeds p 1 h.withRefcount).andThen
    fun _ _ h => (h.tableMut _).andThen fun _ _ h => h

theorem shareSlot (h : Ready s n pool) (p : PhysBlockId) :
    (shareSlot build s p pool).Proceeds fun _ => Ready s n :=
  (refcountAt_proceeds h p).andThen fun _ _ h => (addU32In_proceeds h ..).andThen
    fun rc _ h => (setRefcount_proceeds p rc h.withRefcount).andThen fun _ _ h => h.tableMut _

theorem shareSlots (h : Ready s n pool) (ps : List PhysBlockId) :
    ((forM ps fun p => KvPool.shareSlot build s p) pool).Proceeds fun _ => Ready s n :=
  forM_proceeds (fun _ => Ready s n) (fun _ p _ h => h.shareSlot p) ps h

theorem cowReplace (h : Ready s 1 pool) (i : Nat) (p : PhysBlockId) :
    (cowReplace build s i p pool).Proceeds fun _ => Ready s 0 :=
  h.takeFree.andThen fun q _ h => (setRefcount_proceeds q 1 h.withRefcount).andThen
    fun _ _ h => (refcountAt_proceeds h p).andThen fun _ _ h => (subU32In_proceeds h ..).andThen
      fun rc _ h => (setRefcount_proceeds p rc h.withRefcount).andThen
        fun _ _ h => (h.setSlot i _).andThen fun _ _ h => h

end Ready

namespace Fresh

theorem dropRef (h : Fresh pool) (p : PhysBlockId) :
    (dropRef build p pool).Proceeds fun _ => Fresh := by
  refine (refcountAt_proceeds h p).andThen fun _ _ h => (subU32In_proceeds h ..).andThen
    fun rc _ h => (setRefcount_proceeds (P := Fresh) p rc fun _ => h).andThen fun _ _ h => ?_
  split
  · exact h
  · exact h

theorem discard (h : Fresh pool) (s : SessionHandle) :
    (discard build s pool).Proceeds fun _ => Fresh := by
  unfold KvPool.discard
  rw [bind_run, get_run, andThen_ok]
  cases pool.tables.lookup s with
  | none => exact h
  | some t =>
    refine forM_proceeds (fun _ => Fresh) ?_ t.slots fun n hn => ?_
    · intro _ slot pool h
      cases slot with
      | resident p => exact h.dropRef p
      | externalized => exact h
    · have := h n hn
      rw [AssocMap.lookup_erase_ite]
      split
      · rfl
      · exact this

theorem evictBlock (h : Fresh pool) (s : SessionHandle) (owner : Bool) (r : EvictReport) (i : Nat) :
    (evictBlock s owner r i pool).Proceeds fun _ => Fresh := by
  unfold KvPool.evictBlock
  rw [bind_run, get_run, andThen_ok, bind_run]
  cases ht : pool.tables.lookup s with
  | none => trivial
  | some t =>
    refine (index_proceeds (P := (· = pool)) t.slots i rfl).andThen ?_
    rintro slot _ rfl
    cases slot with
    | externalized => exact h
    | resident p =>
      refine (refcountAt_proceeds (ready_of_lookup ht (Nat.zero_le _) h) p).andThen fun rc _ h => ?_
      split
      · refine (setRefcount_proceeds p 0 h.withRefcount).andThen fun _ pool' h => ?_
        have hpushed : Ready s 0 { pool' with free := pool'.free ++ [p] } :=
          ⟨h.isOpen, Nat.zero_le _, h.fresh⟩
        exact (hpushed.setSlot i .externalized).andThen fun _ _ h => h.fresh
      · exact h.fresh

end Fresh

end Writes

/-! ## Each operation -/

section Operations

variable {build : Build} {pool : KvBlockPool} (h : Fresh pool)

include h

theorem append_transacts (s : SessionHandle) (n : Nat) :
    (append build s n pool).Transacts pool fun _ => Fresh := by
  unfold append
  refine (table_reads s pool).transacts.read fun t ht => ?_
  refine Proceeds.read (usizeResult_proceeds rfl ..) fun total => ?_
  refine Proceeds.read (divCeil_proceeds rfl ..) fun want => ?_
  by_cases hroom : want - t.slots.length > pool.free.length
  · rw [if_pos hroom]
    exact rfl
  rw [if_neg hroom]
  have hready : Ready s (List.range (want - t.slots.length)).length pool :=
    ready_of_lookup ht (by rw [List.length_range]; exact Nat.not_lt.mp hroom) h
  refine Proceeds.transacts ?_ pool
  refine (forM_proceeds (Ready s) (fun _ _ _ h => ?_) _ hready).andThen fun _ _ h => ?_
  · exact h.allocSlot.andThen fun _ _ h => h
  · exact (h.tableMut _).mono fun _ _ h => h.fresh

theorem evictBlocks_transacts (s : SessionHandle) (indices : List Nat) :
    (evictBlocks s indices pool).Transacts pool fun _ => Fresh := by
  unfold evictBlocks
  refine (validateBlockIndices_reads indices).transacts.read fun _ _ => ?_
  refine Proceeds.transacts ?_ pool
  exact foldlM_proceeds (fun _ => Fresh) (fun _ r i _ h => h.evictBlock s _ r i) indices _ h

theorem evict_transacts (s : SessionHandle) :
    (evict s pool).Transacts pool fun _ => Fresh := by
  unfold evict
  exact (table_reads s pool).transacts.read fun t _ => evictBlocks_transacts h s _

theorem evictRange_transacts (s : SessionHandle) (lo hi : Nat) :
    (evictRange s lo hi pool).Transacts pool fun _ => Fresh := by
  unfold evictRange
  split
  · exact rfl
  · exact evictBlocks_transacts h s _

theorem splice_transacts (src dst : SessionHandle) (lo hi : Nat) :
    (splice build src dst lo hi pool).Transacts pool fun _ => Fresh := by
  unfold splice
  refine (okOr_reads _ _ pool).transacts.read fun t ht => ?_
  refine (validateAndCollectShared_reads src lo hi).transacts.read fun shared _ => ?_
  refine Proceeds.read (usizeResult_proceeds rfl ..) fun span => ?_
  refine Proceeds.read (usizeResult_proceeds rfl ..) fun skipped => ?_
  have hready : Ready dst 0 pool := ready_of_lookup ht (Nat.zero_le _) h
  exact ((hready.shareSlots _).andThen fun _ _ h =>
    (h.addFilled _).mono fun _ _ h => h.fresh).transacts pool

theorem cowBreak_transacts (s : SessionHandle) (i : Nat) :
    (cowBreak build s i pool).Transacts pool fun _ => Fresh := by
  unfold cowBreak
  refine (table_reads s pool).transacts.read fun t ht => ?_
  rcases t.slots[i]? with _ | p | _
  · exact rfl
  · refine Proceeds.read (refcountAt_proceeds rfl p) fun rc => ?_
    split
    · exact h
    rw [bind_run, get_run, andThen_ok]
    split
    · exact rfl
    rename_i hfree
    have hready : Ready s 1 pool := ready_of_lookup ht (List.length_pos_iff.mpr hfree) h
    exact ((hready.cowReplace i p).mono fun _ _ h => h.fresh).transacts pool
  · exact rfl

theorem splicePrefix_transacts (src dst : SessionHandle) (k : Nat) :
    (splicePrefix build src dst k pool).Transacts pool fun _ => Fresh := by
  unfold splicePrefix
  refine (table_reads dst pool).transacts.read fun d _ => ?_
  split
  · exact rfl
  refine (table_reads src pool).transacts.read fun t _ => ?_
  split
  · exact rfl
  refine Proceeds.read (usizeResult_proceeds rfl ..) fun tokens => ?_
  split
  · exact rfl
  · exact (splice_transacts h src dst 0 k).andThen fun _ _ h => h

theorem opened_fresh : Fresh pool.opened := by
  intro n hn
  have hlt : pool.nextSession < n := hn
  have hne : (⟨n⟩ : SessionHandle) ≠ ⟨pool.nextSession⟩ := by
    intro heq
    exact absurd (congrArg SessionHandle.id heq) (Nat.ne_of_gt hlt)
  show (pool.tables.insert ⟨pool.nextSession⟩ ⟨[], 0⟩).lookup ⟨n⟩ = none
  rw [AssocMap.lookup_insert_ite, if_neg hne]
  exact h n (Nat.le_of_lt hlt)

/-- A session that was just opened is closed again: the counter is all that moved. -/
theorem registerPrefix_transacts (donor : SessionHandle) (k : Nat) :
    (registerPrefix build donor k pool).Transacts pool.skipSession fun _ => Fresh := by
  have hsplice : (splicePrefix build donor ⟨pool.nextSession⟩ k pool.opened).Transacts _ _ :=
    splicePrefix_transacts (opened_fresh h) donor ⟨pool.nextSession⟩ k
  unfold registerPrefix
  rw [bind_run, openSession_run, andThen_ok, bind_run, attempt]
  generalize splicePrefix build donor ⟨pool.nextSession⟩ k pool.opened = o at hsplice
  cases o with
  | ok tokens pool' => exact hsplice
  | err e pool' =>
    obtain rfl : pool' = pool.opened := hsplice
    have herase : (pool.tables.insert ⟨pool.nextSession⟩ ⟨[], 0⟩).erase ⟨pool.nextSession⟩
        = pool.tables := AssocMap.erase_insert_new (h _ (Nat.le_refl _)) _
    simp [discard, opened, skipSession, herase, Transacts]
  | abort why => trivial

theorem releasePrefix_transacts (id : PrefixId) :
    (releasePrefix build id pool).Transacts pool fun _ => Fresh := by
  unfold releasePrefix
  refine (okOr_reads _ _ pool).transacts.read fun o _ => ?_
  exact (Fresh.discard (by exact h) o.owner).transacts pool

theorem splicePrefixFrom_transacts (id : PrefixId) (dst : SessionHandle) :
    (splicePrefixFrom build id dst pool).Transacts pool fun _ => Fresh := by
  unfold splicePrefixFrom
  exact (okOr_reads _ _ pool).transacts.read fun o _ => splicePrefix_transacts h o.owner dst _

omit h in
theorem validateShiftedPrefixAlloc_transacts (id : PrefixId) (dst : SessionHandle) :
    (validateShiftedPrefixAlloc build id dst pool).Transacts pool fun r pool' => pool' = pool ∧
      ((pool.tables.lookup dst).isSome ∧ (∃ u, pool.tables.lookup r.2.owner = some u) ∧
        r.2.prefixBlocks ≤ pool.free.length) := by
  unfold validateShiftedPrefixAlloc
  refine (table_reads dst pool).transacts.read fun d hd => ?_
  refine (remUsize_reads _ _ pool).transacts.read fun r _ => ?_
  split
  · exact rfl
  refine (okOr_reads _ _ pool).transacts.read fun o _ => ?_
  refine (table_reads o.owner pool).transacts.read fun u hu => ?_
  refine Proceeds.read (usizeResult_proceeds rfl ..) fun tokens => ?_
  split
  · exact rfl
  split
  · exact rfl
  rename_i hroom
  exact ⟨rfl, by rw [hd]; rfl, ⟨u, hu⟩, Nat.not_lt.mp hroom⟩

theorem allocShiftedPrefixSlots_transacts (id : PrefixId) (dst : SessionHandle) :
    (allocShiftedPrefixSlots build id dst pool).Transacts pool fun _ => Fresh := by
  unfold allocShiftedPrefixSlots
  refine (validateShiftedPrefixAlloc_transacts id dst).read ?_
  rintro ⟨m, o⟩ ⟨hopen, ⟨u, hu⟩, hroom⟩
  simp only [bind_run, get_run, andThen_ok]
  rcases mapM_residentBlock hu o.prefixBlocks with ⟨src, hsrc, _, hlen⟩ | ⟨hsrc, _⟩
  · rw [hsrc, andThen_ok]
    have hready : Ready dst src.length pool := ⟨hopen, by rwa [hlen], h⟩
    refine Proceeds.transacts ?_ pool
    refine (foldlM_proceeds (Ready dst) (fun _ _ _ _ h => ?_) src [] hready).andThen fun _ _ h => ?_
    · exact h.allocSlot.andThen fun _ _ h => h
    · exact (usizeResult_proceeds h ..).andThen fun _ _ h => (h.addFilled _).andThen
        fun _ _ h => h.fresh
  · rw [hsrc]
    trivial

theorem commitBlock_transacts (s : SessionHandle) (i : Nat) (hash : BlockHash) :
    (commitBlock build s i hash pool).Transacts pool fun _ => Fresh := by
  unfold commitBlock
  refine (table_reads s pool).transacts.read fun t _ => ?_
  refine (okOr_reads _ _ pool).transacts.read fun slot _ => ?_
  cases slot with
  | externalized => exact rfl
  | resident p =>
    refine Proceeds.read (usizeResult_proceeds rfl ..) fun next => ?_
    refine Proceeds.read (usizeResult_proceeds rfl ..) fun last => ?_
    split
    · exact rfl
    split
    · exact h
    · refine Proceeds.transacts ?_ pool
      exact (refcountAt_proceeds h p).andThen fun _ _ h => (addU32In_proceeds h ..).andThen
        fun rc _ h => (setRefcount_proceeds (P := Fresh) p rc fun _ => h).andThen fun _ _ h => h

omit h in
/-- A lookup moves time stamps and statistics. -/
theorem lookupHits_sessions (hashes : List BlockHash) (pool : KvBlockPool) :
    (lookupHits hashes pool).2.tables = pool.tables ∧
      (lookupHits hashes pool).2.nextSession = pool.nextSession := by
  induction hashes generalizing pool with
  | nil => exact ⟨rfl, rfl⟩
  | cons x rest ih =>
    unfold lookupHits
    cases pool.cached.lookup x with
    | none => exact ⟨rfl, rfl⟩
    | some e => exact ih _

omit h in
theorem lookupChain_proceeds (hashes : List BlockHash) (pool : KvBlockPool) :
    (lookupChain hashes pool).Proceeds fun _ pool' =>
      pool'.tables = pool.tables ∧ pool'.nextSession = pool.nextSession :=
  lookupHits_sessions hashes pool

theorem lookupChain_fresh (hashes : List BlockHash) :
    (lookupChain hashes pool).Proceeds fun _ => Fresh := by
  refine (lookupChain_proceeds hashes pool).mono fun _ pool' ⟨ht, hn⟩ => ?_
  unfold Fresh
  rw [ht, hn]
  exact h

omit h in
theorem lookupChain_ready {s : SessionHandle} (hashes : List BlockHash) (h : Ready s 0 pool) :
    (lookupChain hashes pool).Proceeds fun _ => Ready s 0 := by
  refine (lookupChain_proceeds hashes pool).mono fun _ pool' ⟨ht, hn⟩ => ?_
  refine ⟨by rw [ht]; exact h.isOpen, Nat.zero_le _, ?_⟩
  unfold Fresh
  rw [ht, hn]
  exact h.fresh

theorem spliceCachedChain_transacts (dst : SessionHandle) (hashes : List BlockHash) :
    (spliceCachedChain build dst hashes pool).Transacts pool fun _ => Fresh := by
  unfold spliceCachedChain
  refine (table_reads dst pool).transacts.read fun t ht => ?_
  split
  · exact rfl
  refine Proceeds.transacts ?_ pool
  refine (lookupChain_ready hashes (ready_of_lookup ht (Nat.zero_le _) h)).andThen
    fun blocks _ h => (h.shareSlots blocks).andThen fun _ _ h => ?_
  exact (usizeResult_proceeds h ..).andThen fun _ _ h => (h.tableMut _).andThen fun _ _ h => h.fresh

theorem releaseCached_transacts (hash : BlockHash) :
    (releaseCached build hash pool).Transacts pool fun _ => Fresh := by
  unfold releaseCached
  refine (okOr_reads _ _ pool).transacts.read fun e _ => ?_
  refine Proceeds.transacts ?_ pool
  exact Fresh.dropRef (by exact h) _

end Operations

/-! ## Whole runs -/

/-- **A refused call has written nothing**, whatever the counts hold. -/
theorem exec_transacts {build : Build} {pool : KvBlockPool} (h : Fresh pool) {c : Cmd}
    (hc : c.notRestore = true) :
    (c.exec build pool).Transacts (c.refused pool) fun _ => Fresh := by
  cases c with
  | restore s handle => cases hc
  | openSession => exact opened_fresh h
  | append s n => exact (append_transacts h s n).andThen fun _ _ h => h
  | evict s => exact (evict_transacts h s).andThen fun _ _ h => h
  | evictBlocks s is => exact (evictBlocks_transacts h s is).andThen fun _ _ h => h
  | evictRange s lo hi => exact (evictRange_transacts h s lo hi).andThen fun _ _ h => h
  | discard s => exact ((Fresh.discard h s).transacts pool).andThen fun _ _ h => h
  | splice src dst lo hi => exact (splice_transacts h src dst lo hi).andThen fun _ _ h => h
  | splicePrefix src dst k => exact (splicePrefix_transacts h src dst k).andThen fun _ _ h => h
  | cowBreak s i => exact (cowBreak_transacts h s i).andThen fun _ _ h => h
  | registerPrefix donor k => exact (registerPrefix_transacts h donor k).andThen fun _ _ h => h
  | releasePrefix id => exact (releasePrefix_transacts h id).andThen fun _ _ h => h
  | splicePrefixFrom id dst => exact (splicePrefixFrom_transacts h id dst).andThen fun _ _ h => h
  | allocShiftedPrefixSlots id dst =>
    exact (allocShiftedPrefixSlots_transacts h id dst).andThen fun _ _ h => h
  | commitBlock s i hash => exact (commitBlock_transacts h s i hash).andThen fun _ _ h => h
  | lookupChain hashes => exact lookupChain_fresh h hashes
  | spliceCachedChain dst hashes =>
    exact (spliceCachedChain_transacts h dst hashes).andThen fun _ _ h => h
  | releaseCached hash => exact (releaseCached_transacts h hash).andThen fun _ _ h => h

theorem Fresh.refused {pool : KvBlockPool} (h : Fresh pool) (c : Cmd) : Fresh (c.refused pool) := by
  cases c with
  | registerPrefix donor k => exact fun n hn => h n (Nat.le_of_succ_le hn)
  | _ => exact h

theorem Reach.fresh {build : Build} {geom : KvGeometry} {w : World}
    (h : Reach build NoRestore geom w) : Fresh w.pool := by
  refine Steps.invariant (I := fun w => Fresh w.pool) ?_ h fun _ _ => rfl
  intro w c w' hfresh hc hstep
  have hspec : (c.exec build w.pool).Transacts _ _ := exec_transacts hfresh hc
  rcases World.step_eq_some hstep with ⟨r, hr, _⟩ | ⟨e, he, _⟩
  · rw [hr] at hspec
    exact hspec
  · rw [he] at hspec
    rw [show w'.pool = c.refused w.pool from hspec]
    exact hfresh.refused c

/-- **Refused calls are atomic.** In every state reached without `restore`, in
either build, a call that returns `Err` leaves the pool as it found it; only
`register_prefix` may have advanced the session counter. -/
theorem refused_call_changes_nothing {build : Build} {geom : KvGeometry} {w : World}
    (hr : Reach build NoRestore geom w) {c : Cmd} (hc : c.notRestore = true) {e : KvAllocError}
    {pool' : KvBlockPool} (he : c.exec build w.pool = .err e pool') :
    ((∀ donor k, c ≠ .registerPrefix donor k) → pool' = w.pool) ∧
      (∀ donor k, c = .registerPrefix donor k →
        pool' = { w.pool with nextSession := w.pool.nextSession + 1 }) := by
  have hspec : (c.exec build w.pool).Transacts _ _ := exec_transacts hr.fresh hc
  rw [he] at hspec
  have hstate : pool' = c.refused w.pool := hspec
  refine ⟨fun hne => ?_, fun donor k hreg => ?_⟩
  · rw [hstate]
    cases c with
    | registerPrefix donor k => exact absurd rfl (hne donor k)
    | _ => rfl
  · subst hreg
    exact hstate

/-- Two sessions share a block, and a prefix of one more block than the
donor has is refused. -/
theorem refused_register_changes_nothing :
    ∃ w pool', (World.new smallGeom).run .debug [.openSession, .append ⟨0⟩ 4, .openSession,
        .splice ⟨0⟩ ⟨1⟩ 0 1] = some w ∧ w.pool.refcount = [2, 0, 0, 0] ∧
      (Cmd.registerPrefix ⟨0⟩ 2).exec .debug w.pool = .err .badSpliceRange pool' ∧
      pool' = { w.pool with nextSession := 3 } := by
  have h : ((World.new smallGeom).run .debug [.openSession, .append ⟨0⟩ 4, .openSession,
      .splice ⟨0⟩ ⟨1⟩ 0 1]).any fun w => w.pool.refcount = [2, 0, 0, 0] ∧ w.pool.nextSession = 2 ∧
        (Cmd.registerPrefix ⟨0⟩ 2).exec .debug w.pool matches .err .badSpliceRange _ := by
    decide +kernel
  obtain ⟨w, hrun, h⟩ := (Option.any_eq_true _ _).mp h
  obtain ⟨hcount, hnext, h⟩ := of_decide_eq_true h
  split at h
  · rename_i pool' herr
    refine ⟨w, pool', hrun, hcount, herr, ?_⟩
    rw [(refused_call_changes_nothing (c := .registerPrefix ⟨0⟩ 2)
      (Steps.of_run_noRestore rfl hrun) rfl herr).2 ⟨0⟩ 2 rfl, hnext]
  · cases h

end Fuel.KvPool
