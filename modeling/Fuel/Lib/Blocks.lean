import Fuel.Lib.DepGraph

/-!
# Scheduling whole blocks

A schedule cut into consecutive blocks can be rearranged block by block: the
blocks may come in any order that respects the dependencies between blocks.
The blocks' own dependency graph always points to earlier blocks, so it has no
cycle whatever the cuts.
-/

namespace Fuel.DepGraph

open Relation List

variable {α : Type*} [DecidableEq α]

/-- The blocks in the order `perm`. -/
def arrange (blocks : List (List α)) (perm : List Nat) : List α :=
  perm.flatMap fun i => (blocks[i]?).getD []

/-- The index of the block an element lies in. -/
def blockOf (blocks : List (List α)) (a : α) : Option Nat :=
  blocks.findIdx? fun b => decide (a ∈ b)

/-- The other blocks that block `i` reads from. -/
def blockDeps (deps : α → List α) (blocks : List (List α)) (i : Nat) : List Nat :=
  ((((blocks[i]?).getD []).flatMap deps).filterMap fun a =>
    (blockOf blocks a).filter fun j => decide (j ≠ i)).dedup

/-! ## Where elements lie -/

variable {blocks : List (List α)} {a : α} {i j : Nat} {deps : α → List α}

theorem blockOf_eq_some (h : blockOf blocks a = some i) : a ∈ (blocks[i]?).getD [] := by
  rw [blockOf, findIdx?_eq_some_iff_getElem] at h
  obtain ⟨hi, hmem, -⟩ := h
  rw [getElem?_eq_getElem hi]
  exact of_decide_eq_true hmem

theorem blockOf_lt (h : blockOf blocks a = some i) : i < blocks.length := by
  rw [blockOf, findIdx?_eq_some_iff_getElem] at h
  exact h.1

theorem exists_blockOf (h : a ∈ blocks.flatten) : ∃ i, blockOf blocks a = some i := by
  obtain ⟨b, hb, ha⟩ := mem_flatten.mp h
  rw [← Option.isSome_iff_exists, blockOf, findIdx?_isSome, any_eq_true]
  exact ⟨b, hb, decide_eq_true ha⟩

omit [DecidableEq α] in
theorem lt_of_mem_block (h : a ∈ (blocks[i]?).getD []) : i < blocks.length := by
  by_contra hge
  rw [getElem?_eq_none (Nat.le_of_not_lt hge)] at h
  cases h

omit [DecidableEq α] in
theorem mem_flatten_of_mem_block (h : a ∈ (blocks[i]?).getD []) : a ∈ blocks.flatten := by
  have hi := lt_of_mem_block h
  rw [getElem?_eq_getElem hi] at h
  exact mem_flatten.mpr ⟨_, getElem_mem hi, h⟩

omit [DecidableEq α] in
theorem block_sublist (blocks : List (List α)) (i : Nat) :
    ((blocks[i]?).getD []).Sublist blocks.flatten := by
  by_cases hi : i < blocks.length
  · rw [getElem?_eq_getElem hi]
    exact sublist_flatten_of_mem (getElem_mem hi)
  · rw [getElem?_eq_none (Nat.le_of_not_lt hi)]
    exact nil_sublist _

omit [DecidableEq α] in
/-- Elements of an earlier block come first. -/
theorem before_of_block_lt (hij : i < j) {b : α} (ha : a ∈ (blocks[i]?).getD [])
    (hb : b ∈ (blocks[j]?).getD []) : Before blocks.flatten a b := by
  have hj := lt_of_mem_block hb
  have hi : i < blocks.length := by omega
  have hsplit : blocks.flatten = (blocks.take j).flatten ++ (blocks.drop j).flatten := by
    rw [← flatten_append, take_append_drop]
  have ha' : a ∈ (blocks.take j).flatten := by
    rw [getElem?_eq_getElem hi] at ha
    refine mem_flatten.mpr ⟨blocks[i], ?_, ha⟩
    rw [mem_take_iff_getElem]
    exact ⟨i, by omega, rfl⟩
  have hb' : b ∈ (blocks.drop j).flatten := by
    rw [getElem?_eq_getElem hj] at hb
    refine mem_flatten.mpr ⟨blocks[j], ?_, hb⟩
    rw [drop_eq_getElem_cons hj]
    exact mem_cons_self
  have hsub : ([a] ++ [b]).Sublist ((blocks.take j).flatten ++ (blocks.drop j).flatten) :=
    (singleton_sublist.mpr ha').append (singleton_sublist.mpr hb')
  rw [Before, hsplit]
  exact hsub

omit [DecidableEq α] in
/-! ## Dependencies between blocks -/

theorem mem_blockDeps : j ∈ blockDeps deps blocks i ↔
      j ≠ i ∧ ∃ b ∈ (blocks[i]?).getD [], ∃ a ∈ deps b, blockOf blocks a = some j := by
  simp only [blockDeps, mem_dedup, mem_filterMap, mem_flatMap,
    Option.filter_eq_some_iff, decide_eq_true_eq]
  constructor
  · rintro ⟨a, ⟨b, hb, hab⟩, hj, hne⟩
    exact ⟨hne, b, hb, a, hab, hj⟩
  · rintro ⟨hne, b, hb, a, hab, hj⟩
    exact ⟨a, ⟨b, hb, hab⟩, hj, hne⟩

variable (hnd : blocks.flatten.Nodup)

include hnd

theorem blockOf_of_mem (h : a ∈ (blocks[i]?).getD []) : blockOf blocks a = some i := by
  obtain ⟨j, hj⟩ := exists_blockOf (mem_flatten_of_mem_block h)
  have hmem := blockOf_eq_some hj
  rcases Nat.lt_trichotomy i j with hij | rfl | hij
  · exact absurd (before_of_block_lt hij h hmem) (Before.irrefl hnd)
  · exact hj
  · exact absurd (before_of_block_lt hij hmem h) (Before.irrefl hnd)

variable (hsched : Schedules (fun b => (deps b).filter fun a => decide (a ∈ blocks.flatten)) blocks.flatten)

include hsched

/-- **A block reads from earlier blocks only.** -/
theorem blockDeps_lt (h : j ∈ blockDeps deps blocks i) : j < i := by
  obtain ⟨hne, b, hb, a, hab, hj⟩ := mem_blockDeps.mp h
  have ha := blockOf_eq_some hj
  by_contra hge
  have hlt : i < j := by omega
  have hba := before_of_block_lt hlt hb ha
  have hab' := hsched.before (mem_flatten_of_mem_block hb)
    (mem_filter.mpr ⟨hab, decide_eq_true (mem_flatten_of_mem_block ha)⟩)
  exact hab'.asymm hnd hba

theorem blockDeps_acyclic : Acyclic (blockDeps deps blocks) := by
  have hlt : ∀ {j i : Nat}, TransGen (Precedes (blockDeps deps blocks)) j i → j < i := by
    intro j i h
    induction h with
    | single h₁ => exact blockDeps_lt hnd hsched h₁
    | tail _ h₁ ih => exact Nat.lt_trans ih (blockDeps_lt hnd hsched h₁)
  exact fun i hi => Nat.lt_irrefl i (hlt hi)

theorem blockDeps_schedules_range :
    Schedules (blockDeps deps blocks) (List.range blocks.length) := by
  refine Schedules.of_before nodup_range ?_
  intro i hi j hj
  have hlt := blockDeps_lt hnd hsched hj
  have hj' : j ∈ List.range blocks.length :=
    mem_range.mpr (Nat.lt_trans hlt (mem_range.mp hi))
  rcases before_or_before hj' hi (Nat.ne_of_lt hlt) with h | h
  · exact h
  · have hpair := List.Pairwise.sublist h pairwise_lt_range
    have : i < j := by simpa using hpair
    omega

omit [DecidableEq α] hnd hsched in
/-- **A chain has one schedule.** -/
theorem eq_range_of_schedules {perm : List Nat} {n : Nat} {deps : Nat → List Nat}
    (hperm : perm.Perm (List.range n)) (hsched : Schedules deps perm)
    (hnext : ∀ i, i + 1 < n → i ∈ deps (i + 1)) : perm = List.range n := by
  have hnd : perm.Nodup := hperm.nodup_iff.mpr nodup_range
  have hbefore : ∀ {i j : Nat}, i < j → j < n → Before perm i j := by
    intro i j hij
    induction hij with
    | refl =>
      intro hj
      exact hsched.before (hperm.mem_iff.mpr (mem_range.mpr hj)) (hnext _ hj)
    | step _ ih =>
      intro hj
      exact (ih (by omega)).trans hnd
        (hsched.before (hperm.mem_iff.mpr (mem_range.mpr hj)) (hnext _ hj))
  have hsorted : perm.Pairwise (· ≤ ·) := by
    refine pairwise_iff_forall_sublist.mpr fun {a b} hab => Nat.le_of_not_lt fun hba => ?_
    exact Before.asymm hnd hab (hbefore hba (mem_range.mp (hperm.mem_iff.mp (Before.mem_left hab))))
  exact hperm.eq_of_pairwise' hsorted (pairwise_le_range)

/-! ## Rearranging -/

omit hnd

omit hsched

omit [DecidableEq α] in
/-- The blocks in their own order. -/
theorem arrange_range (blocks : List (List α)) :
    arrange blocks (List.range blocks.length) = blocks.flatten := by
  unfold arrange
  rw [flatMap_def]
  congr 1
  refine ext_getElem (by simp) fun i h₁ h₂ => ?_
  simp [getElem?_eq_getElem h₂]

omit [DecidableEq α] in
/-- All blocks, each once, is all elements. -/
theorem arrange_perm {perm : List Nat} (hperm : perm.Perm (List.range blocks.length)) :
    (arrange blocks perm).Perm blocks.flatten := by
  rw [← arrange_range blocks]
  exact hperm.flatMap_right _

/-- **Blocks in an order that respects the dependencies between blocks.** -/
theorem arrange_schedules {perm : List Nat} (hnd : blocks.flatten.Nodup)
    (hsched : Schedules (fun b => (deps b).filter fun a => decide (a ∈ blocks.flatten))
      blocks.flatten) (hperm : perm.Perm (List.range blocks.length))
    (hblocks : Schedules (blockDeps deps blocks) perm) :
    Schedules (fun b => (deps b).filter fun a => decide (a ∈ blocks.flatten))
      (arrange blocks perm) := by
  have hall := arrange_perm hperm
  refine Schedules.of_before (hall.nodup_iff.mpr hnd) ?_
  intro b hb a hab
  have hbf : b ∈ blocks.flatten := hall.mem_iff.mp hb
  have haf : a ∈ blocks.flatten := of_decide_eq_true (mem_filter.mp hab).2
  obtain ⟨i, hi⟩ := exists_blockOf hbf
  obtain ⟨j, hj⟩ := exists_blockOf haf
  have hbi := blockOf_eq_some hi
  have haj := blockOf_eq_some hj
  have hiperm : i ∈ perm := hperm.mem_iff.mpr (mem_range.mpr (blockOf_lt hi))
  by_cases hij : j = i
  · -- inside one block the old order is kept
    subst hij
    have hold := hsched.before hbf hab
    have hne : a ≠ b := by
      rintro rfl
      exact Before.irrefl hnd hold
    have hblock : Before ((blocks[j]?).getD []) a b := by
      rcases before_or_before haj hbi hne with h | h
      · exact h
      · exact absurd (h.of_sublist (block_sublist blocks j)) (hold.asymm hnd)
    exact hblock.of_sublist (sublist_flatten_of_mem (mem_map.mpr ⟨j, hiperm, rfl⟩))
  · -- a block comes after the blocks it reads from
    have hdep : j ∈ blockDeps deps blocks i :=
      mem_blockDeps.mpr ⟨hij, b, hbi, a, (mem_filter.mp hab).1, hj⟩
    have hji := hblocks.before hiperm hdep
    have hpair : ([a] ++ [b]).Sublist
        ([j, i].flatMap fun k => (blocks[k]?).getD []) := by
      simpa using (singleton_sublist.mpr haj).append (singleton_sublist.mpr hbi)
    exact hpair.trans (List.Sublist.flatMap hji _)

/-! ## Blocks that are chains -/

omit [DecidableEq α] in
/-- In a chain, what passes back along every link holds of the head if of a member. -/
theorem head_of_isChain {R : α → α → Prop} {P : α → Prop}
    (hstep : ∀ a b, R a b → P b → P a) {l : List α} (hl : l ≠ []) (hchain : l.IsChain R) {x : α}
    (hx : x ∈ l) (hP : P x) : P (l.head hl) := by
  induction l with
  | nil => exact absurd rfl hl
  | cons a l ih =>
    rw [head_cons]
    rcases mem_cons.mp hx with rfl | hx
    · exact hP
    · cases l with
      | nil => cases hx
      | cons b l =>
        have hb := ih (by simp) hchain.tail hx
        exact hstep a b hchain.rel hb

omit [DecidableEq α] in
/-- Every other member of a chain has a link before it. -/
theorem exists_link_of_isChain {R : α → α → Prop} {l : List α} (hl : l ≠ [])
    (hchain : l.IsChain R) {x : α} (hx : x ∈ l) (hhead : x ≠ l.head hl) : ∃ a ∈ l, R a x := by
  induction l with
  | nil => exact absurd rfl hl
  | cons a l ih =>
    rcases mem_cons.mp hx with rfl | hx
    · exact absurd rfl hhead
    · cases l with
      | nil => cases hx
      | cons b l =>
        by_cases hxb : x = b
        · exact ⟨a, mem_cons_self, hxb ▸ hchain.rel⟩
        · obtain ⟨c, hc, hcx⟩ := ih (by simp) hchain.tail hx hxb
          exact ⟨c, mem_cons_of_mem _ hc, hcx⟩

end Fuel.DepGraph
