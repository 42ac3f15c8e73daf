import Fuel.KvPool.Invariant
import Fuel.KvPool.Wrapping

/-!
# The KV block pool: accounting over runs

What the invariant gives a consumer of the pool in every state reached
without `restore` and without overflow: the reference counts and the free list
are exact — if the pool was built over fewer than `2 ^ 32` blocks, and not
otherwise.
-/

namespace Fuel.KvPool

open Fuel List

/-! ## Accounting -/

/-- The accounting a consumer relies on: every count is the number of
references there are, the free list is exactly the unreferenced blocks, and
so no block in use is free. -/
structure Accounted (pool : KvBlockPool) : Prop where
  blocks : pool.refcount.length = pool.geom.numBlocks
  counts : ∀ p, p < pool.geom.numBlocks →
    pool.refcount[p]? = some (pool.slotRefs p + pool.indexRefs p)
  nodup : pool.free.Nodup
  free : ∀ p, p ∈ pool.free ↔ pool.refcount[p]? = some 0
  held : ∀ s t p, pool.tables.lookup s = some t → .resident p ∈ t.slots → p ∉ pool.free
  cachedHeld : ∀ p, pool.isCached p = true → p ∉ pool.free

theorem getElem?_of_getD {l : List Nat} {p n : Nat} (hp : p < l.length)
    (h : l.getD p 0 = n) : l[p]? = some n := by
  rw [getD_eq_getElem?_getD, getElem?_eq_getElem hp] at h
  rw [getElem?_eq_getElem hp, ← h]
  rfl

/-- Below `2 ^ 32` blocks no id is lost in the cast, and exact counts are
all there is to the accounting. -/
theorem Wf.accounted {pool : KvBlockPool} (h : Wf pool) (hn : pool.geom.numBlocks < 2 ^ 32) :
    Accounted pool := by
  refine ⟨h.len, fun p hp => ?_, h.freeNodup, fun p => ⟨fun hf => ?_, fun hz => ?_⟩,
    fun s t p ht hp => h.not_free_of_pos (h.slot_pos ht hp),
    fun p hp => h.not_free_of_pos (h.cached_pos hp)⟩
  · have := h.refs p
    rw [count_nil, Nat.add_zero] at this
    exact getElem?_of_getD (by rwa [h.len]) this
  · exact getElem?_of_getD (by rw [h.len]; exact h.freeLt p hf) (h.freeZero p hf)
  · obtain ⟨hlt, hget⟩ := List.getElem?_eq_some_iff.mp hz
    rw [h.len] at hlt
    refine h.zeroFree p (by rwa [Nat.mod_eq_of_lt hn]) ?_
    rw [getD_eq_getElem?_getD, hz]
    rfl

/-- From `2 ^ 32` blocks on, the cast in `new` leaves the block
`num_blocks as u32` out of the free list although nothing refers to it. -/
theorem new_not_accounted {geom : KvGeometry} (hn : 2 ^ 32 ≤ geom.numBlocks) :
    ¬ Accounted (.new geom) := by
  intro h
  have hlt : geom.numBlocks % 2 ^ 32 < geom.numBlocks :=
    Nat.lt_of_lt_of_le (Nat.mod_lt _ (by decide)) hn
  have hzero : (KvBlockPool.new geom).refcount[geom.numBlocks % 2 ^ 32]? = some 0 := by
    show (List.replicate geom.numBlocks 0)[geom.numBlocks % 2 ^ 32]? = some 0
    rw [getElem?_replicate, if_pos hlt]
  have hfree : geom.numBlocks % 2 ^ 32 ∈ (List.range (geom.numBlocks % 2 ^ 32)).reverse :=
    (h.free _).mpr hzero
  rw [mem_reverse, mem_range] at hfree
  exact Nat.lt_irrefl _ hfree

/-- **Block accounting.** In every state reached without `restore` and
without overflow, in either build, the accounting is exact and no call
underflows a count, if and only if the pool has fewer than `2 ^ 32` blocks. -/
theorem block_accounting_iff (geom : KvGeometry) :
    (∀ build w, Reach build (Unwrapped build NoRestore) geom w → Accounted w.pool ∧
      ∀ c : Cmd, c.notRestore = true → c.exec .debug w.pool ≠ .abort .subOverflow) ↔
      geom.numBlocks < 2 ^ 32 := by
  constructor
  · intro h
    by_contra hn
    exact new_not_accounted (Nat.not_lt.mp hn) (h .debug (.new geom) .refl).1
  · intro hn build w hr
    obtain ⟨hi, hg⟩ := Reach.inv (fun _ _ hc => hc) hr.checked
    refine ⟨hi.wf.accounted (by rwa [hg]), fun c hc habort => ?_⟩
    have hspec := exec_spec hi hc
    rw [habort] at hspec
    exact absurd hspec.of_abort (by decide)

/-- A pool of `2 ^ 32` blocks starts with an empty free list; and one block,
referenced `2 ^ 32` times, has a count of zero once that count has wrapped. -/
theorem block_accounting_fails_at_two_pow_32 :
    (∃ geom : KvGeometry, 0 < geom.blockSize ∧ geom.numBlocks = 2 ^ 32 ∧
      (World.new geom).pool.free = [] ∧ (World.new geom).pool.refcount[0]? = some 0 ∧
      ¬ Accounted (World.new geom).pool) ∧
    ∃ w t, Reach .release NoRestore oneBlock w ∧ w.pool.tables.lookup ⟨0⟩ = some t ∧
      t.slots = replicate (2 ^ 32) (.resident 0) ∧ w.pool.refcount = [0] ∧ w.pool.free = [] ∧
      ¬ Accounted w.pool := by
  constructor
  · refine ⟨⟨1, 2 ^ 32, 16, 1, 64, 2⟩, by decide, rfl, ?_, ?_, ?_⟩
    · show (List.range (2 ^ 32 % 2 ^ 32)).reverse = []
      rw [Nat.mod_self]
      rfl
    · show (List.replicate (2 ^ 32) 0)[0]? = some 0
      rw [getElem?_replicate, if_pos (by decide)]
    · exact new_not_accounted (Nat.le_refl _)
  · let pool : KvBlockPool := ⟨oneBlock, [], [], ∅, 1, ∅, 0, ∅, ∅, 0, {}⟩
    have hrun : (World.new oneBlock).run .release [.openSession, .append ⟨0⟩ 1]
        = some ⟨pool.holding ⟨0⟩ 1 1 1, [⟨0⟩]⟩ := rfl
    obtain ⟨filled, hsteps⟩ := splices_holding pool ⟨0⟩ 1 1 1 NoRestore [⟨0⟩] (fun _ _ => rfl) 32
    rw [Nat.mul_one, Nat.mul_one] at hsteps
    refine ⟨_, _, (Steps.of_run_noRestore rfl hrun).trans hsteps, AList.lookup_insert _, rfl, rfl, rfl,
      fun h => ?_⟩
    exact absurd ((h.free 0).mpr rfl) List.not_mem_nil

end Fuel.KvPool
