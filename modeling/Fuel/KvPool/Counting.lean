import Mathlib.Algebra.BigOperators.Group.Finset.Piecewise
import Fuel.KvPool.Specs

/-!
# The KV block pool: counting free blocks

A pool that is only ever reserved from — sessions opened, extended and
discarded, nothing shared and nothing cached — holds every block at most
once. Then the free blocks and the slots of the open tables add up to the
blocks of the pool.
-/

namespace Fuel.KvPool

open Fuel KvBlockPool AssocMap

/-- The blocks in the tables of the open sessions. -/
def KvBlockPool.slotsHeld (pool : KvBlockPool) : Nat :=
  total (fun t => t.slots.length) pool.tables

/-- Every block is in at most one slot, and in nothing else. -/
structure Unshared (pool : KvBlockPool) : Prop where
  once : ∀ p, pool.slotRefs p ≤ 1
  uncached : ∀ p, pool.indexRefs p = 0
  resident : ∀ s t, pool.tables.lookup s = some t → ∀ slot ∈ t.slots, ∃ p, slot = .resident p

section Sums

open Finset

theorem sum_count_resident {n : Nat} {slots : List Slot}
    (h : ∀ slot ∈ slots, ∃ p < n, slot = .resident p) :
    ∑ p ∈ range n, slots.count (.resident p) = slots.length := by
  induction slots with
  | nil => simp
  | cons slot slots ih =>
    obtain ⟨q, hq, rfl⟩ := h slot (by simp)
    have hrest := ih fun slot hslot => h slot (by simp [hslot])
    have hone : ∑ p ∈ range n, (if q = p then 1 else 0) = 1 := by
      rw [sum_ite_eq]
      simp [hq]
    have hhead : ∑ p ∈ range n, (if (Slot.resident q == Slot.resident p) = true then 1 else 0)
        = ∑ p ∈ range n, (if q = p then 1 else 0) := by
      apply sum_congr rfl
      intro p _
      simp
    simp only [List.count_cons, List.length_cons, sum_add_distrib, hrest, hhead, hone]

variable {pool : KvBlockPool}

/-- Every slot of every table is a reference to one block. -/
theorem sum_slotRefs {n : Nat}
    (h : ∀ s t, pool.tables.lookup s = some t → ∀ slot ∈ t.slots, ∃ p < n, slot = .resident p) :
    ∑ p ∈ range n, pool.slotRefs p = pool.slotsHeld := by
  have hentries : ∀ e ∈ pool.tables.entries, ∀ slot ∈ e.2.slots, ∃ p < n, slot = .resident p :=
    fun e he => h e.1 e.2 (mem_entries_iff.mpr he)
  show ∑ p ∈ range n, (pool.tables.entries.map fun e => slotRefsIn p e.2).sum
    = (pool.tables.entries.map fun e => e.2.slots.length).sum
  generalize pool.tables.entries = entries at hentries
  induction entries with
  | nil => simp
  | cons e entries ih =>
    simp only [List.map_cons, List.sum_cons, sum_add_distrib,
      ih fun e he => hentries e (by simp [he])]
    congr 1
    exact sum_count_resident (hentries e (by simp))

/-- The free list holds exactly the blocks without a reference. -/
theorem free_length_eq_card (hw : Wf pool) (hn : pool.geom.numBlocks < 2 ^ 32) : pool.free.length
      = ((range pool.geom.numBlocks).filter fun p => pool.refcount.getD p 0 = 0).card := by
  rw [← List.toFinset_card_of_nodup hw.freeNodup]
  congr 1
  ext p
  rw [List.mem_toFinset, mem_filter, mem_range]
  constructor
  · intro hp
    exact ⟨hw.freeLt p hp, hw.freeZero p hp⟩
  · intro hp
    apply hw.zeroFree p _ hp.2
    rw [Nat.mod_eq_of_lt hn]
    exact hp.1

/-- **Free blocks and held slots add up.** -/
theorem Unshared.free_add_slotsHeld (hu : Unshared pool) (hw : Wf pool)
    (hn : pool.geom.numBlocks < 2 ^ 32) :
    pool.free.length + pool.slotsHeld = pool.geom.numBlocks := by
  have hrefs : ∀ p, pool.refcount.getD p 0 = pool.slotRefs p := by
    intro p
    rw [hw.refs p, hu.uncached p]
    simp
  have hslots : ∀ s t, pool.tables.lookup s = some t → ∀ slot ∈ t.slots,
      ∃ p < pool.geom.numBlocks, slot = .resident p := by
    intro s t ht slot hslot
    obtain ⟨p, rfl⟩ := hu.resident s t ht slot hslot
    refine ⟨p, ?_, rfl⟩
    rw [← hw.len]
    exact hw.lt_length (hw.slot_pos ht hslot)
  rw [free_length_eq_card hw hn, ← sum_slotRefs hslots, card_filter]
  rw [← sum_add_distrib]
  -- every block counts once: as free, or for the one slot it is in
  calc ∑ p ∈ range pool.geom.numBlocks,
        ((if pool.refcount.getD p 0 = 0 then 1 else 0) + pool.slotRefs p)
      = ∑ p ∈ range pool.geom.numBlocks, 1 := by
        apply sum_congr rfl
        intro p _
        have hone := hu.once p
        rw [hrefs p]
        split
        · omega
        · omega
    _ = pool.geom.numBlocks := by rw [← card_eq_sum_ones, card_range]

end Sums

/-! ## Reserving and giving back -/

section Reserving

variable {pool pool' : KvBlockPool}

theorem Unshared.new (geom : KvGeometry) : Unshared (.new geom) where
  once := by
    intro p
    exact Nat.zero_le _
  uncached := by
    intro p
    rfl
  resident := by
    intro s t ht
    cases ht

theorem indexRefs_congr (h : pool'.cached = pool.cached) (p : PhysBlockId) :
    pool'.indexRefs p = pool.indexRefs p := by
  unfold indexRefs isCached
  rw [h]

theorem slotRefs_opened (hw : Wf pool) (p : PhysBlockId) :
    pool.opened.slotRefs p = pool.slotRefs p := by
  show total _ (pool.tables.insert _ _) = _
  rw [total_insert_new _ (hw.lookup_fresh (Nat.le_refl _))]
  simp [slotRefsIn, slotRefs]

theorem slotsHeld_opened (hw : Wf pool) : pool.opened.slotsHeld = pool.slotsHeld := by
  show total _ (pool.tables.insert _ _) = _
  rw [total_insert_new _ (hw.lookup_fresh (Nat.le_refl _))]
  simp [slotsHeld]

theorem Unshared.opened (hu : Unshared pool) (hw : Wf pool) : Unshared pool.opened where
  once := by
    intro p
    rw [slotRefs_opened hw]
    exact hu.once p
  uncached := hu.uncached
  resident := by
    intro s t ht
    rcases lookup_of_insert ht with ⟨-, rfl⟩ | ⟨-, ht⟩
    · simp
    · exact hu.resident s t ht

variable {s : SessionHandle}

/-- The tables a call on `s` leaves are those with `s`'s table replaced. -/
theorem OnSession.total_eq {t t' : BlockTable} (h : OnSession s t t' pool pool')
    (f : BlockTable → Nat) :
    total f pool'.tables + f t = total f pool.tables + f t' := by
  have hcongr : total f pool'.tables
      = total f (pool.tables.insert s t') := by
    apply total_congr
    intro a
    rw [lookup_insert_ite]
    split
    · rename_i ha
      rw [ha, h.after]
    · rename_i ha
      exact h.others a ha
  rw [hcongr]
  exact total_insert_old f h.before t'

/-- A reservation takes its blocks off the free list. -/
theorem Unshared.extended (hu : Unshared pool) (hw : Wf pool) {t : BlockTable}
    {ps : List PhysBlockId} {n : Nat} (h : OnSession s t (t.extend ps n) pool pool')
    (hfree : pool.free = pool'.free ++ ps.reverse) : Unshared pool' where
  once := by
    intro p
    have htotal := h.total_eq (slotRefsIn p)
    have hcount : slotRefsIn p (t.extend ps n)
        = slotRefsIn p t + ps.count p := by
      unfold slotRefsIn BlockTable.extend
      rw [List.count_append, List.count_map_of_injective]
      intro a b hab
      cases hab
      rfl
    have hone := hu.once p
    have hslots : pool'.slotRefs p + slotRefsIn p t
        = pool.slotRefs p + slotRefsIn p (t.extend ps n) := htotal
    by_cases hp : p ∈ ps
    · -- a free block has no reference yet
      have hmem : p ∈ pool.free := by
        rw [hfree]
        simp [hp]
      have hzero := hw.freeZero p hmem
      rw [hw.refs p] at hzero
      have hnodup : ps.Nodup := by
        have := hw.freeNodup
        rw [hfree] at this
        exact List.nodup_reverse.mp (List.nodup_append.mp this).2.1
      have := List.nodup_iff_count_le_one.mp hnodup p
      omega
    · have := List.count_eq_zero.mpr hp
      omega
  uncached := by
    intro p
    rw [indexRefs_congr h.rest.cached]
    exact hu.uncached p
  resident := by
    intro s' t' ht' slot hslot
    by_cases hs : s' = s
    · subst hs
      rw [h.after, Option.some.injEq] at ht'
      subst ht'
      rcases List.mem_append.mp hslot with hslot | hslot
      · exact hu.resident _ _ h.before slot hslot
      · obtain ⟨p, -, rfl⟩ := List.mem_map.mp hslot
        exact ⟨p, rfl⟩
    · rw [h.others s' hs] at ht'
      exact hu.resident _ _ ht' slot hslot

/-- A closed session takes its references with it. -/
theorem Unshared.closed (hu : Unshared pool) (hrest : SameRest pool pool')
    (htables : pool'.tables = pool.tables.erase s) : Unshared pool' where
  once := by
    intro p
    have hle : pool'.slotRefs p ≤ pool.slotRefs p := by
      unfold slotRefs
      rw [htables]
      cases ht : pool.tables.lookup s with
      | none => rw [erase_of_lookup_none ht]
      | some t =>
        have := total_erase (slotRefsIn p) ht
        omega
    exact Nat.le_trans hle (hu.once p)
  uncached := by
    intro p
    rw [indexRefs_congr hrest.cached]
    exact hu.uncached p
  resident := by
    intro s' t' ht'
    rw [htables] at ht'
    exact hu.resident _ _ (lookup_of_erase ht').2

end Reserving

end Fuel.KvPool
