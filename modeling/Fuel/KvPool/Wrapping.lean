import Fuel.KvPool.Run

/-!
# The KV block pool: counts that wrap

Without overflow checks a reference count is a number modulo `2 ^ 32`. A
session spliced onto itself doubles its slots, so a few calls leave more
references to a block than its count can hold.
-/

namespace Fuel.KvPool

open Fuel Method

/-- One block of one token. -/
def oneBlock : KvGeometry := ⟨1, 1, 1, 1, 1, 1⟩

/-- The pool with `n` slots of `s` on block 0 and `c` references counted, as far as a `u32` does. -/
def KvBlockPool.holding (pool : KvBlockPool) (s : SessionHandle) (n filled c : Nat) : KvBlockPool :=
  { pool with
    refcount := [c % 2 ^ 32]
    tables := pool.tables.insert s ⟨List.replicate n (.resident 0), filled⟩ }

section Doubling

variable (pool : KvBlockPool) (s : SessionHandle) (n filled c : Nat)

theorem shareSlot_holding :
    shareSlot .release s 0 (pool.holding s n filled c)
      = .ok () (pool.holding s (n + 1) filled (c + 1)) := by
  have hadd : (addU32In .release (c % 2 ^ 32) 1 : PoolM Nat) = pure ((c + 1) % 2 ^ 32) := by
    rw [← Nat.mod_add_mod]
    unfold addU32In
    split
    · rename_i h
      rw [Nat.mod_eq_of_lt h]
    · rfl
  simp [shareSlot, refcountAt, index, hadd, setRefcount, pushSlot, tableMut, okOr,
    KvBlockPool.holding, AList.insert_insert, List.replicate_succ', -Nat.reducePow]

theorem shareSlots_holding (m : Nat) :
    (forM (List.replicate m 0) (shareSlot .release s)) (pool.holding s n filled c)
      = .ok () (pool.holding s (n + m) filled (c + m)) := by
  induction m generalizing n c with
  | zero => rfl
  | succ m ih =>
    rw [List.replicate_succ, forM_cons_run, shareSlot_holding, Outcome.andThen_ok, ih,
      Nat.add_right_comm n, Nat.add_right_comm c]
    rfl

/-- A session spliced onto itself: twice the slots, whether or not the count can hold them. -/
theorem splice_holding : ∃ filled', splice .release s s 0 n (pool.holding s n filled c)
    = .ok () (pool.holding s (n + n) filled' (c + n)) := by
  have htable : ∀ m, (pool.holding s m filled c).tables.lookup s
      = some ⟨List.replicate m (.resident 0), filled⟩ := fun _ => AList.lookup_insert _
  have hcollect : ∀ n, collectResident (List.replicate n (.resident 0))
      = some (List.replicate n 0) := by
    intro n
    induction n with
    | zero => rfl
    | succ n ih => simp [List.replicate_succ, collectResident, ih]
  have hfill : ∀ m c' k, ∃ filled', addFilled .release s k (pool.holding s m filled c')
      = .ok () (pool.holding s m filled' c') := fun m c' k =>
    ⟨((filled + k : Nat) % 2 ^ 64 : Int).toNat, by
      simp [addFilled, table, tableMut, okOr, addUsizeIn, usizeResult_release,
        KvBlockPool.holding, AList.insert_insert]⟩
  unfold splice validateAndCollectShared
  simp only [bind_run, get_run, Outcome.andThen_ok, okOr, htable, table, pure_run,
    List.length_replicate, List.drop_zero, Nat.sub_zero, List.take_replicate, Nat.min_self, hcollect,
    mulUsizeIn, usizeResult_release, Nat.not_lt_zero, lt_irrefl, or_self, if_false, gt_iff_lt,
    shareSlots_holding]
  exact hfill _ _ _

theorem splices_holding (allowed : World → Cmd → Prop) (issued : List SessionHandle)
    (hallowed : ∀ pool n, allowed ⟨pool, issued⟩ (.splice s s 0 n)) (k : Nat) :
    ∃ filled', Steps .release allowed ⟨pool.holding s n filled c, issued⟩
      ⟨pool.holding s (2 ^ k * n) filled' (c + (2 ^ k - 1) * n), issued⟩ := by
  induction k with
  | zero => exact ⟨filled, by simpa using .refl⟩
  | succ k ih =>
    obtain ⟨f, hsteps⟩ := ih
    obtain ⟨f', hsplice⟩ := splice_holding pool s (2 ^ k * n) f (c + (2 ^ k - 1) * n)
    refine ⟨f', hsteps.tail ⟨.splice s s 0 (2 ^ k * n), hallowed _ _, ?_⟩⟩
    have hn : 2 ^ k * n + 2 ^ k * n = 2 ^ (k + 1) * n := by
      rw [← Nat.add_mul, ← Nat.two_mul, Nat.pow_succ']
    have hc : c + (2 ^ k - 1) * n + 2 ^ k * n = c + (2 ^ (k + 1) - 1) * n := by
      rw [Nat.add_assoc, ← Nat.add_mul, Nat.pow_succ]
      congr 2
      have := Nat.two_pow_pos k
      omega
    simp [World.step, Cmd.exec, hsplice, Reply.issued, hn, hc]

variable {n filled c} in
/-- A wrapped count of one makes a shared block look private. -/
theorem cowBreak_holding (hn : 0 < n) (hc : c % 2 ^ 32 ≤ 1) :
    cowBreak .release s 0 (pool.holding s n filled c) = .ok 0 (pool.holding s n filled c) := by
  have htable : (pool.holding s n filled c).tables.lookup s
      = some ⟨List.replicate n (.resident 0), filled⟩ := AList.lookup_insert _
  have hcount : refcountAt 0 (pool.holding s n filled c)
      = .ok (c % 2 ^ 32) (pool.holding s n filled c) := rfl
  simp only [cowBreak, table, bind_run, get_run, Outcome.andThen_ok, htable, okOr_some, pure_run,
    List.getElem?_replicate, if_pos hn, hcount, if_pos hc]

end Doubling

/-- Block 0 cached under hash 7, and no session. -/
def cachedSeven : KvBlockPool :=
  ⟨oneBlock, [], [], ∅, 1, ∅, 0, (∅ : AList _).insert 7 ⟨0, 1⟩, (∅ : AList _).insert 0 7, 1,
    { commits := 1 }⟩

/-- The session that committed the block holds it `2 ^ 32` times, and the count is one. -/
theorem reach_cached_wrapped : ∃ filled, Reach .release NoRestore oneBlock
    ⟨cachedSeven.holding ⟨0⟩ (2 ^ 32) filled (2 ^ 32 + 1), [⟨0⟩]⟩ := by
  have hrun : (World.new oneBlock).run .release [.openSession, .append ⟨0⟩ 1,
      .commitBlock ⟨0⟩ 0 7] = some ⟨cachedSeven.holding ⟨0⟩ 1 1 2, [⟨0⟩]⟩ := rfl
  obtain ⟨filled, hsteps⟩ :=
    splices_holding cachedSeven ⟨0⟩ 1 1 2 NoRestore [⟨0⟩] (fun _ _ => rfl) 32
  rw [Nat.mul_one, Nat.mul_one] at hsteps
  exact ⟨filled, (Steps.of_run_noRestore rfl hrun).trans hsteps⟩

end Fuel.KvPool
