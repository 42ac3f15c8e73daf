import Fuel.KvPool.Effects
import Fuel.Lib.Lists

/-!
# The KV block pool: operation specifications

One theorem per public operation, with overflow checks, from a pool whose
counts are exact. Each says what the call does when it returns `Ok`, and through `AllOrNothing` that
it changes nothing when it returns `Err` and aborts only in arithmetic on the
caller's numbers.
-/

namespace Fuel.KvPool

open Fuel Method List Outcome KvBlockPool

section Sessions

variable {pool : KvBlockPool}

/-! ## Session lifecycle -/

/-- The pool after `open`. -/
def KvBlockPool.opened (pool : KvBlockPool) : KvBlockPool :=
  { pool with
    nextSession := pool.nextSession + 1
    tables := pool.tables.insert ⟨pool.nextSession⟩ ⟨[], 0⟩ }

theorem openSession_run (pool : KvBlockPool) :
    openSession pool = .ok ⟨pool.nextSession⟩ pool.opened := rfl

theorem opened_wf (hw : Wf pool) : Wf pool.opened := hw.newTable

/-- Blocks a table of `t.slots` needs for `n` more tokens. -/
def newBlocksFor (t : BlockTable) (blockSize n : Nat) : Nat :=
  (t.filledTokens + n + blockSize - 1) / blockSize - t.slots.length

variable {t : BlockTable}

/-- `append` on an open session, its arithmetic in range: enough free blocks
decide between the two results. -/
theorem append_cases (hw : Wf pool) {s : SessionHandle} {n : Nat}
    (ht : pool.tables.lookup s = some t) (hlt : t.filledTokens + n < 2 ^ 64)
    (hbs : pool.geom.blockSize ≠ 0) : (pool.free.length < newBlocksFor t pool.geom.blockSize n ∧
      append .debug s n pool = .err (.outOfBlocks (newBlocksFor t pool.geom.blockSize n)
        pool.free.length) pool) ∨
    (newBlocksFor t pool.geom.blockSize n ≤ pool.free.length ∧
      ∃ pool' ps, append .debug s n pool = .ok () pool' ∧
        OnSession s t (t.extend ps (t.filledTokens + n)) pool pool' ∧
        pool.free = pool'.free ++ ps.reverse ∧
        ps.length = newBlocksFor t pool.geom.blockSize n) := by
  have hrun : append .debug s n pool
      = (if newBlocksFor t pool.geom.blockSize n > pool.free.length then
          fail (.outOfBlocks (newBlocksFor t pool.geom.blockSize n) pool.free.length)
        else do
          forM (List.range (newBlocksFor t pool.geom.blockSize n)) fun _ => do
            let _ ← allocSlot s
            pure ()
          tableMut s fun t' => { t' with filledTokens := t.filledTokens + n }) pool := by
    simp only [append, bind_run, get_run, andThen_ok, table_run ht,
      addUsizeIn_of_lt hlt, pure_run, blocksFor, divCeil, if_neg hbs]
    rfl
  rw [hrun]
  by_cases hf : newBlocksFor t pool.geom.blockSize n > pool.free.length
  · rw [if_pos hf]
    exact .inl ⟨hf, rfl⟩
  · rw [if_neg hf]
    obtain ⟨pool', ps, hloop, hlen, ha⟩ := allocSlots_return hw ht (Nat.not_lt.mp hf)
    refine .inr ⟨Nat.not_lt.mp hf, _, ps, ?_, ha.toOnSession.fill _, ha.taken, hlen⟩
    rw [bind_run, hloop, andThen_ok, tableMut_run ha.after]

theorem append_spec (hw : Wf pool) (s : SessionHandle) (n : Nat) :
    (append .debug s n pool).AllOrNothing pool fun _ pool' => ∃ t ps,
      OnSession s t (t.extend ps (t.filledTokens + n)) pool pool' ∧
      pool.free = pool'.free ++ ps.reverse ∧
      ps.length = newBlocksFor t pool.geom.blockSize n ∧ pool.geom.blockSize ≠ 0 := by
  cases ht : pool.tables.lookup s with
  | none =>
    have : append .debug s n pool = .err .unknownSession pool := by simp [append, table, ht]
    rw [this]
    exact .refused _
  | some t =>
    by_cases hlt : t.filledTokens + n < 2 ^ 64
    · by_cases hbs : pool.geom.blockSize = 0
      · have : append .debug s n pool = .abort .divideByZero := by
          simp [append, table_run ht, addUsizeIn_of_lt hlt, blocksFor, divCeil, hbs]
        rw [this]
        exact .arith rfl
      · rcases append_cases hw ht hlt hbs with ⟨_, hrun⟩ | ⟨_, pool', ps, hrun, h⟩
        · rw [hrun]
          exact .refused _
        · rw [hrun]
          exact .ok ⟨t, ps, h.1, h.2.1, h.2.2, hbs⟩
    · have : append .debug s n pool = .abort .addOverflow := by
        simp [append, table_run ht, addUsizeIn_overflow hlt]
      rw [this]
      exact .arith rfl

/-- Closing a session gives every reference of its table back. -/
theorem discard_spec (hw : Wf pool) (s : SessionHandle) :
    ∃ pool', discard .debug s pool = .ok () pool' ∧ Wf pool' ∧ SameRest pool pool' ∧
      pool'.tables = pool.tables.erase s := by
  cases ht : pool.tables.lookup s with
  | none =>
    refine ⟨pool, by simp [discard, ht], hw, .refl pool, ?_⟩
    rw [AssocMap.erase_of_lookup_none ht]
  | some t =>
    have hp := (hw.untable ht).repending t.slots (fun p => by simp)
    obtain ⟨pool', hrun, hw', hr, htab⟩ := dropSlots_return hp
    exact ⟨pool', by simp [discard, ht, hrun], hw', hr, htab⟩

/-! ## State externalization -/

/-- Some slots of `t` were externalized, and nothing else about it. -/
structure Evicts (t t' : BlockTable) : Prop where
  length : t'.slots.length = t.slots.length
  filled : t'.filledTokens = t.filledTokens
  resident : ∀ (i : Nat) (p : PhysBlockId),
    t'.slots[i]? = some (.resident p) → t.slots[i]? = some (.resident p)

theorem Evicts.refl (t : BlockTable) : Evicts t t := ⟨rfl, rfl, fun _ _ h => h⟩

theorem Evicts.trans {t' t'' : BlockTable} (h : Evicts t t') (h' : Evicts t' t'') : Evicts t t'' :=
  ⟨h'.length.trans h.length, h'.filled.trans h.filled,
    fun i p hp => h.resident i p (h'.resident i p hp)⟩

theorem Evicts.set (t : BlockTable) (i : Nat) :
    Evicts t { t with slots := t.slots.set i .externalized } := by
  refine ⟨by simp, rfl, fun j p hp => ?_⟩
  simp only [getElem?_set] at hp
  by_cases hij : i = j
  · simp [hij] at hp
  · simpa [hij] using hp

/-- Taking a slot out of a table leaves its reference pending. -/
theorem slotRefsIn_set {i : Nat} {old : Slot} (hi : t.slots[i]? = some old) (slot : Slot)
    (x : PhysBlockId) : slotRefsIn x { t with slots := t.slots.set i slot }
        + [old].count (.resident x)
      = slotRefsIn x t + [slot].count (.resident x) := by
  obtain ⟨hlt, hget⟩ := List.getElem?_eq_some_iff.mp hi
  have hc := count_set (a := slot) (b := Slot.resident x) hlt
  have hpos : [old].count (.resident x) ≤ t.slots.count (.resident x) := by
    apply List.Sublist.count_le
    rw [← hget]
    exact singleton_sublist.mpr (getElem_mem hlt)
  unfold slotRefsIn
  rw [hget] at hc
  simp only [count_singleton] at hpos ⊢
  rw [hc]
  omega

section EvictBlock

variable {s : SessionHandle} {t : BlockTable} {i : Nat} {p : PhysBlockId}
  (hw : Wf pool) (ht : pool.tables.lookup s = some t)

include ht

theorem evictBlock_externalized (hslot : t.slots[i]? = some .externalized) (owner : Bool)
    (r : EvictReport) : evictBlock s owner r i pool = .ok r pool := by
  simp [evictBlock, ht, index, hslot]

include hw

/-- A block referenced elsewhere, or an owner's, stays. -/
theorem evictBlock_shared (hslot : t.slots[i]? = some (.resident p)) {owner : Bool}
    (hrc : ¬ (pool.refcount.getD p 0 = 1 ∧ owner = false)) (r : EvictReport) :
    evictBlock s owner r i pool = .ok (r.share i p) pool := by
  have hlt := hw.lt_length (hw.slot_pos ht (mem_of_getElem? hslot))
  simp only [evictBlock, bind_run, get_run, andThen_ok, expect, ht, pure_run, index, hslot,
    refcountAt_run hlt, if_neg hrc]

/-- A block only this slot references goes back to the free list: the
reference leaves the table, then it is given up. -/
theorem evictBlock_exclusive (hslot : t.slots[i]? = some (.resident p))
    (hrc : pool.refcount.getD p 0 = 1) (r : EvictReport) :
    ∃ pool', evictBlock s false r i pool = .ok (r.free i) pool' ∧
      OnSession s t { t with slots := t.slots.set i .externalized } pool pool' ∧
      pool'.refcount = pool.refcount.set p 0 := by
  have hlt := hw.lt_length (hw.slot_pos ht (mem_of_getElem? hslot))
  have hmove : ∀ x, slotRefsIn x { t with slots := t.slots.set i .externalized }
      + [Slot.resident p].count (.resident x)
      = slotRefsIn x t + ([] : List Slot).count (.resident x) := by
    intro x
    simpa using slotRefsIn_set hslot .externalized x
  have hd := (hw.retable [.resident p] ht _ hmove).drop
  simp only [hrc, Nat.sub_self, ↓reduceIte] at hd
  have hi : i < t.slots.length := lt_of_getElem? hslot
  refine ⟨_, ?_, .of_insert ht hd, rfl⟩
  simp only [evictBlock, bind_run, get_run, andThen_ok, expect, ht, pure_run, index, hslot,
    refcountAt_run hlt, hrc, and_self, ↓reduceIte, setRefcount_run hlt]
  simp [pushFree, setSlot, table, tableMut, ht, hi]

/-- One iteration of `evict_blocks`: the slot is detached and its block
freed, or it stays as it is. -/
theorem evictBlock_returns (hi : i < t.slots.length) (owner : Bool) (r : EvictReport) :
    ∃ r' pool' t', evictBlock s owner r i pool = .ok r' pool' ∧
      OnSession s t t' pool pool' ∧ Evicts t t' ∧ (owner = true → t' = t) := by
  have hget := getElem?_eq_getElem hi
  cases hslot : t.slots[i] with
  | externalized =>
    rw [hslot] at hget
    exact ⟨r, pool, t, evictBlock_externalized ht hget owner r, .refl hw ht, .refl t, fun _ => rfl⟩
  | resident p =>
    rw [hslot] at hget
    by_cases hrc : pool.refcount.getD p 0 = 1 ∧ owner = false
    · obtain ⟨hone, rfl⟩ := hrc
      obtain ⟨pool', hrun, hon, -⟩ := evictBlock_exclusive hw ht hget hone r
      exact ⟨r.free i, pool', _, hrun, hon, .set t i, by simp⟩
    · exact ⟨r.share i p, pool, t, evictBlock_shared hw ht hget hrc r, .refl hw ht, .refl t,
        fun _ => rfl⟩

end EvictBlock

theorem validateBlockIndices_reads {s : SessionHandle} (indices : List Nat) :
    (validateBlockIndices s indices pool).AllOrNothing pool fun _ pool' =>
      pool' = pool ∧ ∃ t, pool.tables.lookup s = some t ∧
        ∀ i ∈ indices, i < t.slots.length := by
  unfold validateBlockIndices
  rw [bind_run]
  refine (table_reads s pool).read fun t ht => ?_
  refine (forM_reads (P := fun i => i < t.slots.length) indices fun i _ => ?_).mono
    fun _ _ ⟨hp, hall⟩ => ⟨hp, t, ht, hall⟩
  split
  · exact .refused _
  · rename_i hi
    exact .ok ⟨rfl, Nat.not_le.mp hi⟩

/-- Evictions only turn slots of one session into externalized ones, and
none of a prefix owner's. -/
structure Evicted (s : SessionHandle) (t t' : BlockTable) (pool pool' : KvBlockPool) : Prop
    extends OnSession s t t' pool pool', Evicts t t' where
  own : pool.isPrefixOwner s = true → t' = t

theorem evictBlocks_spec (hw : Wf pool) (s : SessionHandle) (indices : List Nat) :
    (evictBlocks s indices pool).AllOrNothing pool fun _ pool' => ∃ t t',
      Evicted s t t' pool pool' := by
  unfold evictBlocks
  rw [bind_run]
  refine (validateBlockIndices_reads indices).read fun _ ⟨t, ht, hall⟩ => ?_
  rw [bind_run, get_run, andThen_ok]
  obtain ⟨r, pool', hrun, t', hev⟩ := foldlM_returns
    (fun _ _ pool' => ∃ t', Evicted s t t' pool pool') indices
    (f := evictBlock s (pool.isPrefixOwner s)) (b := EvictReport.empty) (s := pool)
    (fun done i rest r pool' hl ⟨t', hev⟩ => by
      have hi : i < t'.slots.length := by
        rw [hev.length]
        exact hall i (by simp [hl])
      obtain ⟨r', pool'', t'', hrun, ho', he', howner'⟩ :=
        evictBlock_returns hev.wf hev.after hi (pool.isPrefixOwner s) r
      exact ⟨r', pool'', hrun, t'', hev.toOnSession.trans ho', hev.toEvicts.trans he',
        fun h => (howner' h).trans (hev.own h)⟩)
    ⟨t, .refl hw ht, .refl t, fun _ => rfl⟩
  rw [hrun]
  exact .ok ⟨t, t', hev⟩

theorem evict_spec (hw : Wf pool) (s : SessionHandle) :
    (evict s pool).AllOrNothing pool fun _ pool' => ∃ t t', Evicted s t t' pool pool' := by
  unfold evict
  rw [bind_run]
  exact (table_reads s pool).read fun t _ => evictBlocks_spec hw s _

theorem evictRange_spec (hw : Wf pool) (s : SessionHandle) (lo hi : Nat) :
    (evictRange s lo hi pool).AllOrNothing pool fun _ pool' => ∃ t t', Evicted s t t' pool pool' := by
  unfold evictRange
  split
  · exact .refused _
  · exact evictBlocks_spec hw s _

end Sessions

section Sharing

variable {pool : KvBlockPool}

/-! ## Cross-branch splice -/

variable {ps : List PhysBlockId} {t : BlockTable}

theorem collectResident_eq_some {slots : List Slot} :
    collectResident slots = some ps ↔ slots = ps.map .resident := by
  induction slots generalizing ps with
  | nil => cases ps <;> simp [collectResident]
  | cons slot rest ih =>
    cases slot with
    | externalized => cases ps <;> simp [collectResident]
    | resident p =>
      simp only [collectResident, Option.map_eq_some_iff]
      constructor
      · rintro ⟨qs, hqs, rfl⟩
        simp [ih.mp hqs]
      · intro h
        cases ps with
        | nil => simp at h
        | cons q qs =>
          simp only [map_cons, List.cons.injEq, Slot.resident.injEq] at h
          exact ⟨qs, ih.mpr h.2, by rw [h.1]⟩

/-- Slots `lo..hi` of `t` are exactly the blocks `ps`. -/
structure Spans (t : BlockTable) (lo hi : Nat) (ps : List PhysBlockId) : Prop where
  le : lo ≤ hi
  bound : hi ≤ t.slots.length
  slice : (t.slots.drop lo).take (hi - lo) = ps.map .resident

namespace Spans

variable {t : BlockTable} {lo hi : Nat} {ps : List PhysBlockId}

theorem length (h : Spans t lo hi ps) : ps.length = hi - lo := by
  have := congrArg List.length h.slice
  have := h.bound
  have := h.le
  simp at *
  omega

theorem mem (h : Spans t lo hi ps) {p : PhysBlockId} (hp : p ∈ ps) :
    Slot.resident p ∈ t.slots := by
  have : Slot.resident p ∈ (t.slots.drop lo).take (hi - lo) := by
    rw [h.slice]
    exact mem_map_of_mem hp
  exact mem_of_mem_drop (mem_of_mem_take this)

end Spans

theorem validateAndCollectShared_reads (src : SessionHandle) (lo hi : Nat) :
    (validateAndCollectShared src lo hi pool).AllOrNothing pool fun r pool' =>
      pool' = pool ∧ ∃ u, pool.tables.lookup src = some u ∧ Spans u lo hi r.1 ∧
        r.2 = u.filledTokens := by
  unfold validateAndCollectShared
  rw [bind_run]
  refine (table_reads src pool).read fun u hu => ?_
  split
  · exact .refused _
  · rename_i hr
    rw [bind_run]
    refine (okOr_reads _ _ pool).read fun ps hps => .ok ⟨rfl, u, hu, ?_, rfl⟩
    exact ⟨by omega, by omega, collectResident_eq_some.mp hps⟩

/-- Tokens are added to the fill level, unless the sum overflows. -/
theorem addFilled_spec {s : SessionHandle} (ht : pool.tables.lookup s = some t) (n : Nat) :
    (addFilled .debug s n pool).UnlessOverflow fun _ pool' => pool' = { pool with
      tables := pool.tables.insert s { t with filledTokens := t.filledTokens + n } } := by
  by_cases hlt : t.filledTokens + n < 2 ^ 64
  · simp only [addFilled, bind_run, table_run ht, andThen_ok, addUsizeIn_of_lt hlt, pure_run,
      tableMut_run ht]
    exact .ok rfl
  · simp only [addFilled, bind_run, table_run ht, andThen_ok, addUsizeIn_overflow hlt, abort_run,
      andThen_abort]
    exact .overflow (.inl rfl)

/-- How far `splice` raises the fill level: the part of the shared blocks
the donor has filled. -/
def spliceFill (u : BlockTable) (lo hi blockSize : Nat) : Nat :=
  min ((hi - lo) * blockSize) (u.filledTokens - lo * blockSize)

/-- `dst` got the blocks of `src`'s slots `lo..hi` at the end of its table. -/
structure Spliced (src dst : SessionHandle) (lo hi : Nat) (u t : BlockTable)
    (ps : List PhysBlockId) (pool pool' : KvBlockPool) : Prop
    extends OnSession dst t
      (t.extend ps (t.filledTokens + spliceFill u lo hi pool.geom.blockSize)) pool pool' where
  donor : pool.tables.lookup src = some u
  spans : Spans u lo hi ps
  free : pool'.free = pool.free

variable (hw : Wf pool)

include hw

/-- Once the checks have passed, only a sum can stop `splice`: a count's, or the fill level's. -/
theorem share_then_fill {dst : SessionHandle} (ht : pool.tables.lookup dst = some t)
    (hp : ∀ p ∈ ps, 0 < pool.refcount.getD p 0) (n : Nat) :
    (((forM ps fun p => shareSlot .debug dst p) pool).andThen fun _ pool₁ =>
      addFilled .debug dst n pool₁).UnlessOverflow fun _ pool' =>
        OnSession dst t (t.extend ps (t.filledTokens + n)) pool pool' ∧ pool'.free = pool.free := by
  refine (shareSlots_spec hw ht hp).andThen fun _ pool₁ hsh => ?_
  have hadd := addFilled_spec hsh.after n
  generalize addFilled .debug dst n pool₁ = out at hadd
  cases hadd with
  | ok heq =>
    subst heq
    exact .ok ⟨hsh.toOnSession.fill _, hsh.free⟩
  | overflow h => exact .overflow h

theorem splice_spec (src dst : SessionHandle) (lo hi : Nat) :
    (splice .debug src dst lo hi pool).AllOrNothing pool fun _ pool' => ∃ u t ps,
      Spliced src dst lo hi u t ps pool pool' := by
  unfold splice
  rw [bind_run, get_run, andThen_ok, bind_run]
  refine (okOr_reads _ _ pool).read fun t ht => ?_
  rw [bind_run]
  refine (validateAndCollectShared_reads src lo hi).read fun ⟨ps, filled⟩ ⟨u, hu, hs, hf⟩ => ?_
  subst hf
  simp only [bind_run]
  refine (mulUsizeIn_reads _ _ pool).read fun span ⟨hspan, _⟩ => ?_
  refine (mulUsizeIn_reads _ _ pool).read fun skipped ⟨hskip, _⟩ => ?_
  subst hspan hskip
  refine ((share_then_fill hw ht (fun p hp => hw.slot_pos hu (hs.mem hp)) _).allOrNothing pool).mono ?_
  rintro _ pool' ⟨hon, hfree⟩
  exact ⟨u, t, ps, hon, hu, hs, hfree⟩

/-- A fresh block takes `p`'s place in one table; `p` loses one reference
and keeps at least one. -/
theorem cowReplace_returns {s : SessionHandle} (ht : pool.tables.lookup s = some t) {i : Nat}
    {p q : PhysBlockId} (hslot : t.slots[i]? = some (.resident p))
    (hrc : 1 < pool.refcount.getD p 0) {fs : List PhysBlockId} (hf : pool.free = fs ++ [q]) :
    ∃ pool', cowReplace .debug s i p pool = .ok q pool' ∧ pool'.free = fs ∧
      pool'.refcount.getD q 0 = 1 ∧
      OnSession s t { t with slots := t.slots.set i (.resident q) } pool pool' := by
  have hplt := hw.lt_length (p := p) (by omega)
  have hqlt : q < pool.refcount.length := by
    rw [hw.len]
    exact hw.freeLt q (by rw [hf]; simp)
  have hqp : q ≠ p := by
    rintro rfl
    exact hw.not_free_of_pos (p := q) (by omega) (by rw [hf]; simp)
  -- `q` is minted, swapped for `p` in the table, and `p`'s reference given up
  have hd := ((hw.mint hf).retable [.resident p] ht
    { t with slots := t.slots.set i (.resident q) } (slotRefsIn_set hslot (.resident q))).drop
  have hgetp : (pool.refcount.set q 1).getD p 0 = pool.refcount.getD p 0 := by
    rw [getD_set hqlt, if_neg hqp.symm]
  simp only [hgetp] at hd
  rw [if_neg (by omega)] at hd
  have hgetq : ((pool.refcount.set q 1).set p (pool.refcount.getD p 0 - 1)).getD q 0 = 1 := by
    rw [getD_set (by simpa using hplt), if_neg hqp, getD_set hqlt, if_pos rfl]
  refine ⟨_, ?_, rfl, hgetq, .of_insert ht hd⟩
  have hi := lt_of_getElem? hslot
  have hsub : 1 ≤ pool.refcount[p] := by
    have := hrc
    rw [getD_eq_getElem?_getD, getElem?_eq_getElem hplt, Option.getD_some] at this
    omega
  simp [cowReplace, takeFree, hf, setRefcount, hqlt, refcountAt, index, hplt, hqp, subU32In,
    hsub, setSlot, table, ht, hi, tableMut]

/-- `cow_break` hands back the block it found, when nothing else refers to
it, or a fresh one that takes its place in this table. -/
theorem cowBreak_spec (s : SessionHandle) (i : Nat) :
    (cowBreak .debug s i pool).AllOrNothing pool fun q pool' => ∃ t p,
      pool.tables.lookup s = some t ∧ t.slots[i]? = some (.resident p) ∧
      ((q = p ∧ pool.refcount.getD p 0 ≤ 1 ∧ pool' = pool) ∨
        (1 < pool.refcount.getD p 0 ∧ pool.free = pool'.free ++ [q] ∧
          pool'.refcount.getD q 0 = 1 ∧
          OnSession s t { t with slots := t.slots.set i (.resident q) } pool pool')) := by
  unfold cowBreak
  rw [bind_run]
  refine (table_reads s pool).read fun t ht => ?_
  rcases hslot : t.slots[i]? with _ | p | _
  · exact .refused _
  · have hlt := hw.lt_length (hw.slot_pos ht (mem_of_getElem? hslot))
    simp only [bind_run, refcountAt_run hlt, andThen_ok]
    by_cases hrc : pool.refcount.getD p 0 ≤ 1
    · rw [if_pos hrc]
      exact .ok ⟨t, p, ht, hslot, .inl ⟨rfl, hrc, rfl⟩⟩
    rw [if_neg hrc, bind_run, get_run, andThen_ok]
    by_cases hfree : pool.free = []
    · rw [if_pos hfree]
      exact .refused _
    · rw [if_neg hfree]
      have hf := (dropLast_append_getLast hfree).symm
      obtain ⟨pool', hrun, hfs, hone, ho⟩ :=
        cowReplace_returns hw ht hslot (Nat.not_le.mp hrc) hf
      rw [hrun]
      exact .ok ⟨t, p, ht, hslot, .inr ⟨Nat.not_le.mp hrc, by rw [hfs, ← hf], hone, ho⟩⟩
  · exact .refused _

/-- `splice_prefix` shares `k` whole blocks with an empty session. -/
theorem splicePrefix_spec (src dst : SessionHandle) (k : Nat) :
    (splicePrefix .debug src dst k pool).AllOrNothing pool fun n pool' => ∃ u t ps,
      Spliced src dst 0 k u t ps pool pool' ∧ t.slots = [] ∧
      k * pool.geom.blockSize ≤ u.filledTokens ∧ k * pool.geom.blockSize < 2 ^ 64 ∧
      n = k * pool.geom.blockSize := by
  unfold splicePrefix
  rw [bind_run, get_run, andThen_ok, bind_run]
  refine (table_reads dst pool).read fun t ht => ?_
  by_cases hempty : t.slots = []
  case neg =>
    rw [if_pos hempty]
    exact .refused _
  rw [if_neg (not_not_intro hempty), bind_run]
  refine (table_reads src pool).read fun u hu => ?_
  split
  · exact .refused _
  rw [bind_run]
  refine (mulUsizeIn_reads _ _ pool).read fun tokens ⟨htok, hlim⟩ => ?_
  split
  · exact .refused _
  rw [bind_run]
  refine (splice_spec hw src dst 0 k).andThen fun _ pool' ⟨u', t', ps, h⟩ => ?_
  obtain rfl : u' = u := Option.mem_unique h.donor hu
  obtain rfl : t' = t := Option.mem_unique h.before ht
  exact .ok ⟨u', t', ps, h, hempty, by omega, hlim, htok⟩

/-- The whole prefix is shared when the donor has it, resident and filled, and the target is
empty, unless a count overflows. -/
theorem splicePrefix_shares {src dst : SessionHandle} {k : Nat} {u : BlockTable}
    (hu : pool.tables.lookup src = some u) (ht : pool.tables.lookup dst = some ⟨[], 0⟩)
    (hs : Spans u 0 k ps) (hfull : k * pool.geom.blockSize ≤ u.filledTokens)
    (hlim : k * pool.geom.blockSize < 2 ^ 64) :
    (splicePrefix .debug src dst k pool).UnlessOverflow fun n pool' => n = k * pool.geom.blockSize ∧
      pool'.tables.lookup dst = some ⟨ps.map .resident, k * pool.geom.blockSize⟩ := by
  have hshare := share_then_fill hw ht (fun p hp => hw.slot_pos hu (hs.mem hp))
    (k * pool.geom.blockSize)
  have hsplice : splice .debug src dst 0 k pool = ((forM ps fun p => shareSlot .debug dst p)
      pool).andThen fun _ pool₁ => addFilled .debug dst (k * pool.geom.blockSize) pool₁ := by
    have hrange : ¬ (0 > k ∨ k > u.slots.length) := by
      have := hs.bound
      omega
    have hcollect : collectResident ((u.slots.drop 0).take k) = some ps :=
      collectResident_eq_some.mpr hs.slice
    simp only [splice, bind_run, get_run, andThen_ok, ht, okOr_some, pure_run,
      validateAndCollectShared, table_run hu, if_neg hrange, hcollect, Nat.sub_zero,
      mulUsizeIn_of_lt hlim, mulUsizeIn_of_lt (show 0 * _ < 2 ^ 64 by simp), Nat.zero_mul,
      Nat.min_eq_left hfull]
  simp only [splicePrefix, bind_run, get_run, andThen_ok, table_run ht, table_run hu, ne_eq,
    not_true_eq_false, if_false, mulUsizeIn_of_lt hlim, pure_run, hsplice,
    if_neg (Nat.not_lt.mpr hs.bound), if_neg (Nat.not_lt.mpr hfull)]
  refine hshare.andThen fun _ pool' ⟨hon, _⟩ => .ok ⟨rfl, ?_⟩
  simpa [BlockTable.extend] using hon.after

end Sharing

section Prefixes

variable {pool : KvBlockPool}

/-! ## Prefix registry -/

/-- A refused `register_prefix` has advanced the session counter. -/
def KvBlockPool.skipSession (pool : KvBlockPool) : KvBlockPool :=
  { pool with nextSession := pool.nextSession + 1 }

/-- `donor`'s first `k` blocks are held by a new session, recorded under a
new prefix id. -/
structure Registered (k : Nat) (ps : List PhysBlockId) (pool pool' : KvBlockPool) : Prop where
  wf : Wf pool'
  count : ps.length = k
  owner : pool'.tables.lookup ⟨pool.nextSession⟩
    = some ⟨ps.map .resident, k * pool.geom.blockSize⟩
  others : ∀ s, s ≠ ⟨pool.nextSession⟩ → pool'.tables.lookup s = pool.tables.lookup s
  prefixes : pool'.prefixes
    = pool.prefixes.insert ⟨pool.nextPrefix⟩ ⟨⟨pool.nextSession⟩, k⟩
  nextPrefix : pool'.nextPrefix = pool.nextPrefix + 1
  nextSession : pool'.nextSession = pool.nextSession + 1
  geom : pool'.geom = pool.geom
  inRange : k * pool.geom.blockSize < 2 ^ 64

variable (hw : Wf pool) (id : PrefixId)

include hw

/-- Opening the owner and throwing it away again leaves only the counter. -/
theorem discard_opened : discard .debug ⟨pool.nextSession⟩ pool.opened = .ok () pool.skipSession := by
  have hfresh := hw.lookup_fresh (Nat.le_refl pool.nextSession)
  have herase : (pool.tables.insert ⟨pool.nextSession⟩ ⟨[], 0⟩).erase ⟨pool.nextSession⟩
      = pool.tables := AssocMap.erase_insert_new hfresh _
  simp [discard, opened, skipSession, herase]

/-- The owner is a new session that `splice_prefix` filled from the donor;
then the entry is written. -/
theorem registerPrefix_splices (donor : SessionHandle) (k : Nat) :
    (registerPrefix .debug donor k pool).AllOrNothing pool.skipSession fun id pool' =>
      id = ⟨pool.nextPrefix⟩ ∧ ∃ u ps pool₁,
        Spliced donor ⟨pool.nextSession⟩ 0 k u ⟨[], 0⟩ ps pool.opened pool₁ ∧
        k * pool.geom.blockSize ≤ u.filledTokens ∧ k * pool.geom.blockSize < 2 ^ 64 ∧
        pool' = { pool₁ with
          prefixes := pool.prefixes.insert ⟨pool.nextPrefix⟩ ⟨⟨pool.nextSession⟩, k⟩
          nextPrefix := pool.nextPrefix + 1 } := by
  unfold registerPrefix
  rw [bind_run, openSession_run, andThen_ok, bind_run]
  have hs := splicePrefix_spec (opened_wf hw) donor ⟨pool.nextSession⟩ k
  unfold attempt
  generalize splicePrefix .debug donor ⟨pool.nextSession⟩ k pool.opened = out at hs
  cases hs with
  | @ok _ pool' hok =>
    obtain ⟨u, t, ps, h, hempty, hfull, hlim, hn⟩ := hok
    have hlook : pool.opened.tables.lookup ⟨pool.nextSession⟩ = some ⟨[], 0⟩ := by
      simp [opened]
    obtain rfl : t = ⟨[], 0⟩ := Option.mem_unique h.before hlook
    have hnext : pool'.nextPrefix = pool.nextPrefix := h.rest.nextPrefix
    have hprefixes : pool'.prefixes = pool.prefixes := h.rest.prefixes
    refine .ok ⟨by rw [hnext], u, ps, pool', h, hfull, hlim, ?_⟩
    rw [hnext, hprefixes]
  | refused e =>
    simp only [andThen_ok, bind_run, discard_opened hw, fail_run]
    exact .refused e
  | arith harith => exact .arith harith

theorem registerPrefix_spec (donor : SessionHandle) (k : Nat) :
    (registerPrefix .debug donor k pool).AllOrNothing pool.skipSession fun id pool' =>
      id = ⟨pool.nextPrefix⟩ ∧ ∃ ps, Registered k ps pool pool' := by
  refine (registerPrefix_splices hw donor k).mono ?_
  rintro id pool' ⟨hid, u, ps, pool₁, h, hfull, hlim, rfl⟩
  refine ⟨hid, ps, h.wf.withPrefixes _ _, by simpa using h.spans.length, ?_, ?_, rfl, rfl,
    h.rest.nextSession, h.rest.geom, hlim⟩
  · have hfill : spliceFill u 0 k pool.opened.geom.blockSize = k * pool.geom.blockSize := by
      have : pool.opened.geom = pool.geom := rfl
      rw [this]
      unfold spliceFill
      rw [Nat.sub_zero, Nat.zero_mul, Nat.sub_zero]
      exact Nat.min_eq_left hfull
    rw [show (tables _) = pool₁.tables from rfl, h.after, hfill]
    simp [BlockTable.extend]
  · intro s hs
    refine (h.others s hs).trans ?_
    simp [opened, hs]

/-- The registry entry goes and its owner session is closed. -/
theorem releasePrefix_spec :
    (releasePrefix .debug id pool).AllOrNothing pool fun _ pool' => ∃ o,
      pool.prefixes.lookup id = some o ∧ Wf pool' ∧
      SameRest { pool with prefixes := pool.prefixes.erase id } pool' ∧
      pool'.tables = pool.tables.erase o.owner := by
  unfold releasePrefix
  rw [bind_run, get_run, andThen_ok, bind_run]
  refine (okOr_reads _ _ pool).read fun o ho => ?_
  rw [bind_run, set_run, andThen_ok]
  obtain ⟨pool', hrun, hw', hr, htab⟩ :=
    discard_spec (hw.withPrefixes (pool.prefixes.erase id) pool.nextPrefix) o.owner
  rw [hrun]
  exact .ok ⟨o, ho, hw', hr, htab⟩

theorem splicePrefixFrom_spec (dst : SessionHandle) :
    (splicePrefixFrom .debug id dst pool).AllOrNothing pool fun n pool' => ∃ o u t ps,
      pool.prefixes.lookup id = some o ∧
      Spliced o.owner dst 0 o.prefixBlocks u t ps pool pool' ∧ t.slots = [] ∧
      o.prefixBlocks * pool.geom.blockSize ≤ u.filledTokens ∧
      n = o.prefixBlocks * pool.geom.blockSize := by
  unfold splicePrefixFrom
  rw [bind_run, get_run, andThen_ok, bind_run]
  refine (okOr_reads _ _ pool).read fun o ho => ?_
  exact (splicePrefix_spec hw o.owner dst o.prefixBlocks).mono
    fun n pool' ⟨u, t, ps, h, hempty, hfull, _, hn⟩ => ⟨o, u, t, ps, ho, h, hempty, hfull, hn⟩

omit hw

/-- What `validate_shifted_prefix_alloc` has checked when it returns. -/
structure ShiftedAllocOk (id : PrefixId) (dst : SessionHandle) (o : PrefixOwner)
    (d u : BlockTable) (pool : KvBlockPool) : Prop where
  target : pool.tables.lookup dst = some d
  aligned : d.filledTokens % pool.geom.blockSize = 0
  blockSize : pool.geom.blockSize ≠ 0
  registered : pool.prefixes.lookup id = some o
  owner : pool.tables.lookup o.owner = some u
  filled : o.prefixBlocks * pool.geom.blockSize ≤ u.filledTokens
  noOverflow : o.prefixBlocks * pool.geom.blockSize < 2 ^ 64
  room : o.prefixBlocks ≤ pool.free.length

theorem validateShiftedPrefixAlloc_reads (dst : SessionHandle) :
    (validateShiftedPrefixAlloc .debug id dst pool).AllOrNothing pool fun r pool' =>
      pool' = pool ∧ ∃ d u, ShiftedAllocOk id dst r.2 d u pool ∧ r.1 = d.filledTokens := by
  unfold validateShiftedPrefixAlloc
  rw [bind_run, get_run, andThen_ok, bind_run]
  refine (table_reads dst pool).read fun d hd => ?_
  rw [bind_run]
  refine (remUsize_reads _ _ pool).read fun r ⟨hr, hbs⟩ => ?_
  split
  · exact .refused _
  rw [bind_run]
  refine (okOr_reads _ _ pool).read fun o ho => ?_
  rw [bind_run]
  refine (table_reads o.owner pool).read fun u hu => ?_
  rw [bind_run]
  refine (mulUsizeIn_reads _ _ pool).read fun tokens ⟨htok, hlim⟩ => ?_
  split
  · exact .refused _
  rename_i hfull
  split
  · exact .refused _
  rename_i hroom
  rw [htok] at hfull
  exact .ok ⟨rfl, d, u, ⟨hd, by omega, hbs, ho, hu, Nat.not_lt.mp hfull, hlim,
    Nat.not_lt.mp hroom⟩, rfl⟩

/-- The registered owners still hold their blocks: while an owner session is
open, it has at least its `prefix_blocks` slots and none is externalized. -/
structure OwnersHold (pool : KvBlockPool) : Prop where
  minted : ∀ id o, pool.prefixes.lookup id = some o → o.owner.id < pool.nextSession
  fresh : ∀ id o, pool.prefixes.lookup id = some o → id.id < pool.nextPrefix
  holds : ∀ id o t, pool.prefixes.lookup id = some o → pool.tables.lookup o.owner = some t →
    o.prefixBlocks ≤ t.slots.length ∧ Slot.externalized ∉ t.slots

/-- Reading the first `k` slots of a session: the blocks behind them, if all
are resident, or the `expect` panic. -/
theorem mapM_residentBlock {s : SessionHandle} {t : BlockTable}
    (ht : pool.tables.lookup s = some t) (k : Nat) :
    (∃ ps, ((List.range k).mapM fun i => (expect (pool.residentBlock s i) : PoolM PhysBlockId))
        pool = .ok ps pool ∧ t.slots.take k = ps.map .resident ∧ ps.length = k) ∨
      (((List.range k).mapM fun i => (expect (pool.residentBlock s i) : PoolM PhysBlockId))
        pool = .abort .expectFailed ∧ (k ≤ t.slots.length → Slot.externalized ∈ t.slots)) := by
  induction k with
  | zero => exact .inl ⟨[], rfl, rfl, rfl⟩
  | succ k ih =>
    rw [range_succ, mapM_append]
    rcases ih with ⟨ps, hrun, htake, hlen⟩ | ⟨hrun, hext⟩
    · rcases hslot : t.slots[k]? with _ | p | _
      · have hexp : pool.residentBlock s k = none := by
          simp [residentBlock, ht, hslot]
        refine .inr ⟨by simp [hrun, hexp, mapM_cons], fun hk => ?_⟩
        have := List.getElem?_eq_none_iff.mp hslot
        omega
      · have hexp : pool.residentBlock s k = some p := by
          simp [residentBlock, ht, hslot]
        refine .inl ⟨ps ++ [p], by simp [hrun, hexp, mapM_cons], ?_, by simp [hlen]⟩
        rw [take_add_one, htake, hslot]
        simp
      · have hexp : pool.residentBlock s k = none := by
          simp [residentBlock, ht, hslot]
        exact .inr ⟨by simp [hrun, hexp, mapM_cons],
          fun _ => mem_of_getElem? hslot⟩
    · exact .inr ⟨by simp [hrun], fun hk => hext (by omega)⟩

/-- What `alloc_shifted_prefix_slots` does when it returns: fresh private
blocks for the whole prefix, paired with their sources. -/
def ShiftedAlloc (id : PrefixId) (dst : SessionHandle) (pool : KvBlockPool)
    (r : Nat × List (PhysBlockId × PhysBlockId)) (pool' : KvBlockPool) : Prop :=
  ∃ o d u, ∃ src ps : List PhysBlockId,
    ShiftedAllocOk id dst o d u pool ∧ r = (d.filledTokens, src.zip ps) ∧
    u.slots.take o.prefixBlocks = src.map .resident ∧
    OnSession dst d (d.extend ps (d.filledTokens + o.prefixBlocks * pool.geom.blockSize))
      pool pool' ∧
    pool.free = pool'.free ++ ps.reverse ∧ ps.length = o.prefixBlocks

/-- Only the `expect` on the owner's slots stands between the checks and the
effect. -/
theorem allocShiftedPrefixSlots_cases (hw : Wf pool) (id : PrefixId) (dst : SessionHandle) :
    (allocShiftedPrefixSlots .debug id dst pool).AllOrNothing pool (ShiftedAlloc id dst pool) ∨
      (allocShiftedPrefixSlots .debug id dst pool = .abort .expectFailed ∧ ¬ OwnersHold pool) := by
  unfold allocShiftedPrefixSlots
  rw [bind_run]
  have hval : (validateShiftedPrefixAlloc .debug id dst pool).AllOrNothing pool _ :=
    validateShiftedPrefixAlloc_reads id dst
  generalize validateShiftedPrefixAlloc .debug id dst pool = out at hval
  cases hval with
  | refused e => exact .inl (.refused e)
  | arith harith => exact .inl (.arith harith)
  | @ok r pool' hvalid =>
    obtain ⟨m, o⟩ := r
    obtain ⟨hp, d, u, hok, hm⟩ := hvalid
    obtain rfl : pool = pool' := hp.symm
    subst hm
    rcases mapM_residentBlock hok.owner o.prefixBlocks with
      ⟨src, hsrc, htake, hlen⟩ | ⟨hsrc, hext⟩
    · left
      obtain ⟨pool', ps, hrun, hps, ha⟩ := allocPairs_return hw hok.target src
        (by rw [hlen]; exact hok.room)
      simp only [bind_run, get_run, andThen_ok, hsrc, hrun, mulUsizeIn_of_lt hok.noOverflow,
        pure_run]
      refine ((addFilled_spec ha.after _).andThen (Q := ShiftedAlloc id dst pool) ?_).allOrNothing pool
      rintro _ _ rfl
      exact .ok ⟨o, d, u, src, ps, hok, rfl, htake, ha.toOnSession.fill _, ha.taken, hps.trans hlen⟩
    · right
      refine ⟨by simp only [bind_run, get_run, andThen_ok, hsrc, andThen_abort],
        fun hown => ?_⟩
      obtain ⟨hk, hres⟩ := hown.holds id o u hok.registered hok.owner
      exact hres (hext hk)

/-- While the owners hold their blocks, the `expect` does not fire. -/
theorem allocShiftedPrefixSlots_spec (hw : Wf pool) (hown : OwnersHold pool) (id : PrefixId)
    (dst : SessionHandle) :
    (allocShiftedPrefixSlots .debug id dst pool).AllOrNothing pool (ShiftedAlloc id dst pool) := by
  rcases allocShiftedPrefixSlots_cases hw id dst with h | ⟨_, hno⟩
  · exact h
  · exact absurd hown hno

end Prefixes

end Fuel.KvPool
