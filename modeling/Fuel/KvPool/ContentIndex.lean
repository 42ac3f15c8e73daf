import Fuel.KvPool.Restore

/-!
# The KV block pool: coherence of the content index

A block behind a content hash is immutable as long as the hash is in the
index: the index holds a counted reference, so the block is never free and
never the private block a writer is handed.
-/

namespace Fuel.KvPool

open Fuel Method

section Coherence

variable {pool pool' : KvBlockPool}

/-- What a copy-on-write break hands out is one session's alone. -/
theorem cowBreak_private (hw : Wf pool) {s : SessionHandle} {i : Nat} {q : PhysBlockId}
    (hrun : cowBreak .debug s i pool = .ok q pool') :
    pool'.slotRefs q = 1 ∧ pool'.isCached q = false := by
  have hspec := cowBreak_spec hw s i
  rw [hrun] at hspec
  -- in both cases `q` is counted once, and this session's slot is the one
  have hone : ∃ t, Wf pool' ∧ pool'.refcount.getD q 0 ≤ 1 ∧
      pool'.tables.lookup s = some t ∧ Slot.resident q ∈ t.slots := by
    obtain ⟨t, p, ht, hslot, ⟨rfl, hrc, rfl⟩ | ⟨_, _, hone, ho⟩⟩ := hspec.of_ok
    · exact ⟨t, hw, hrc, ht, List.mem_of_getElem? hslot⟩
    · have hi := lt_of_getElem? hslot
      exact ⟨_, ho.wf, Nat.le_of_eq hone, ho.after, List.mem_set hi _⟩
  obtain ⟨t, hw', hrc, ht, hmem⟩ := hone
  have hpos := slotRefs_pos ht hmem
  have hrefs := hw'.refs q
  rw [List.count_nil] at hrefs
  refine ⟨by omega, ?_⟩
  by_contra hc
  have hcached : pool'.isCached q = true := by simpa using hc
  rw [KvBlockPool.indexRefs, if_pos hcached] at hrefs
  omega

/-- The call fills slots only with blocks it took off the end of the free
list, which are in the index neither before nor after it, or that the caller
remembered. -/
def TakesUncached (remembered : List PhysBlockId) (pool pool' : KvBlockPool) : Prop :=
  ∃ ps : List PhysBlockId, pool.free = pool'.free ++ ps.reverse ∧
    (∀ p ∈ ps, pool.isCached p = false ∧ pool'.isCached p = false) ∧
    Fills (ps ++ remembered) pool pool'

theorem takesUncached (hw : Wf pool) {ps remembered : List PhysBlockId}
    (htaken : pool.free = pool'.free ++ ps.reverse) (hsame : SameRest pool pool')
    (hfills : Fills (ps ++ remembered) pool pool') : TakesUncached remembered pool pool' := by
  refine ⟨ps, htaken, fun p hp => ?_, hfills⟩
  have hfree : p ∈ pool.free := by simp [htaken, hp]
  have hun := (hw.free_unreferenced hfree).2
  refine ⟨hun, ?_⟩
  unfold KvBlockPool.isCached at *
  rwa [hsame.cached]

theorem OnSession.fills {s : SessionHandle} {t : BlockTable} {ps : List PhysBlockId} {fill : Nat}
    (ho : OnSession s t (t.extend ps fill) pool pool') : Fills (ps ++ []) pool pool' := by
  intro s' t' i p ht' hp
  by_cases hs : s' = s
  · subst hs
    rw [ho.after] at ht'
    cases ht'
    by_cases hi : i < t.slots.length
    · rw [BlockTable.extend, List.getElem?_append_left hi] at hp
      exact .inr ⟨t, ho.before, hp⟩
    · rw [BlockTable.extend, List.getElem?_append_right (Nat.not_lt.mp hi)] at hp
      left
      simpa using List.mem_of_getElem? hp
  · rw [ho.others s' hs] at ht'
    exact .inr ⟨t', ht', hp⟩

end Coherence

/-- **The content index is coherent** in every state reached without
`restore` and without overflow: its two maps are inverse, a cached block is
counted and not free, no copy-on-write break hands out a cached or a shared
block, and no allocation, `restore` included, takes a cached one. -/
theorem content_index_coherent {build : Build} {geom : KvGeometry} {w : World}
    (hr : Reach build (Unwrapped build NoRestore) geom w) :
    (∀ h p, (w.pool.cached.lookup h).map CachedBlock.block = some p ↔
      w.pool.cachedByBlock.lookup p = some h) ∧
    (∀ h e, w.pool.cached.lookup h = some e →
      (∃ n, w.pool.refcount[e.block]? = some n ∧ 1 ≤ n) ∧ e.block ∉ w.pool.free) ∧
    (∀ s i q pool', Fits build (cowBreak · s i) w.pool → cowBreak build s i w.pool = .ok q pool' →
      pool'.slotRefs q = 1 ∧ pool'.isCached q = false) ∧
    (∀ s n pool', Fits build (append · s n) w.pool → append build s n w.pool = .ok () pool' →
      TakesUncached [] w.pool pool') ∧
    (∀ id dst r pool', Fits build (allocShiftedPrefixSlots · id dst) w.pool →
      allocShiftedPrefixSlots build id dst w.pool = .ok r pool' → TakesUncached [] w.pool pool') ∧
    (∀ s h pool', restore s h w.pool = .ok () pool' →
      TakesUncached (h.residentSlots.map Prod.snd) w.pool pool') := by
  have hi := (Reach.inv (fun _ _ hc => hc) hr.checked).1
  have hw := hi.wf
  refine ⟨hw.inverse, fun h e he => ?_, fun s i q pool' hfits hrun => ?_, ?_, ?_, ?_⟩
  · have hc : w.pool.isCached e.block = true := isCached_iff.mpr ⟨h, by simp [he]⟩
    have hpos := hw.cached_pos hc
    exact ⟨⟨_, getElem?_of_getD (hw.lt_length hpos) rfl, hpos⟩, hw.not_free_of_pos hpos⟩
  · rw [hfits.checked (cowBreak_unchecked s i)] at hrun
    exact cowBreak_private hw hrun
  · intro s n pool' hfits hrun
    have hspec := append_spec hw s n
    rw [← hfits.checked (append_unchecked s n), hrun] at hspec
    obtain ⟨t, ps, ho, htaken, _⟩ := hspec.of_ok
    exact takesUncached hw htaken ho.rest ho.fills
  · intro id dst r pool' hfits hrun
    have hspec := allocShiftedPrefixSlots_spec hw hi.owners id dst
    rw [← hfits.checked (allocShiftedPrefixSlots_unchecked id dst), hrun] at hspec
    obtain ⟨o, d, u, src, ps, _, _, _, ho, htaken, _⟩ := hspec.of_ok
    exact takesUncached hw htaken ho.rest ho.fills
  · intro s h pool' hrun
    have hspec := restore_spec hw s h
    rw [hrun] at hspec
    obtain ⟨ps, hrf⟩ := hspec.of_ok
    exact takesUncached hw hrf.taken hrf.rest hrf.fills

/-- A session that commits its block and then wants to write it gets a fresh
one. -/
theorem cow_break_leaves_cached_block :
    ∃ w q pool', (World.new smallGeom).run .debug
        [.openSession, .append ⟨0⟩ 4, .commitBlock ⟨0⟩ 0 7] = some w ∧
      w.pool.cachedByBlock.lookup 0 = some 7 ∧ cowBreak .debug ⟨0⟩ 0 w.pool = .ok q pool' ∧
      q ≠ 0 ∧ pool'.slotRefs q = 1 ∧ pool'.isCached q = false := by
  have h : ((World.new smallGeom).run .debug
      [.openSession, .append ⟨0⟩ 4, .commitBlock ⟨0⟩ 0 7]).any fun w =>
        (cowBreak .debug ⟨0⟩ 0 w.pool).any fun q _ =>
          q ≠ 0 ∧ w.pool.cachedByBlock.lookup 0 = some 7 := by
    decide +kernel
  obtain ⟨w, hrun, h⟩ := (Option.any_eq_true _ _).mp h
  obtain ⟨q, pool', hcow, h⟩ := Outcome.any_eq_true.mp h
  obtain ⟨hq, hcached⟩ := of_decide_eq_true h
  exact ⟨w, q, pool', hrun, hcached, hcow, hq,
    (content_index_coherent (Steps.of_run_noRestore rfl hrun).unwrapped).2.2.1 ⟨0⟩ 0 q pool'
      fits_debug hcow⟩

/-- Where the count of a cached block has wrapped to one, a copy-on-write
break hands it out, with `2 ^ 32` slots still on it. -/
theorem cow_break_hands_out_cached_block :
    ∃ w t, Reach .release NoRestore oneBlock w ∧ w.pool.cachedByBlock.lookup 0 = some 7 ∧
      w.pool.tables.lookup ⟨0⟩ = some t ∧ t.slots = List.replicate (2 ^ 32) (.resident 0) ∧
      w.pool.refcount = [1] ∧ cowBreak .release ⟨0⟩ 0 w.pool = .ok 0 w.pool := by
  obtain ⟨filled, hreach⟩ := reach_cached_wrapped
  exact ⟨_, _, hreach, rfl, AList.lookup_insert _, rfl, rfl,
    cowBreak_holding cachedSeven ⟨0⟩ (by decide) (by decide)⟩

end Fuel.KvPool
