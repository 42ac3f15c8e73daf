import Mathlib.Tactic

/-!
# Renumbering the kept part of an index range

The kept indices below `n` get consecutive new numbers in their old order: an
index's new number is how many kept indices come before it. `kept` lists the
kept indices, and the new number of an index is its position there.
-/

namespace Fuel.Renumber

open List

variable {keep : Nat → Bool} {n i j : Nat}

/-- The kept indices below `n`, in order. -/
def kept (keep : Nat → Bool) (n : Nat) : List Nat := (List.range n).filter keep

/-- The new number of an index: how many kept indices come before it. -/
def rank (keep : Nat → Bool) (i : Nat) : Nat := (kept keep i).length

theorem mem_kept : i ∈ kept keep n ↔ i < n ∧ keep i = true := by
  simp [kept]

theorem kept_succ_of_true (h : keep n = true) : kept keep (n + 1) = kept keep n ++ [n] := by
  simp [kept, range_succ, h]

theorem kept_succ_of_false (h : keep n = false) : kept keep (n + 1) = kept keep n := by
  simp [kept, range_succ, h]

/-- The kept indices below `n` start with those below a smaller bound. -/
theorem kept_of_le (keep : Nat → Bool) (h : i ≤ n) : ∃ later, kept keep n = kept keep i ++ later := by
  obtain ⟨k, rfl⟩ := Nat.exists_eq_add_of_le h
  refine ⟨((List.range k).map (i + ·)).filter keep, ?_⟩
  rw [kept, range_add, filter_append, kept]

/-- The kept index with new number `rank i` is `i`. -/
theorem getElem?_rank (hi : i < n) (hk : keep i = true) :
    (kept keep n)[rank keep i]? = some i := by
  obtain ⟨later, hlater⟩ := kept_of_le keep (Nat.succ_le_of_lt hi)
  rw [hlater, kept_succ_of_true hk, List.append_assoc, rank,
    getElem?_append_right (Nat.le_refl _), Nat.sub_self]
  rfl

theorem rank_lt (hi : i < n) (hk : keep i = true) : rank keep i < (kept keep n).length :=
  (List.getElem?_eq_some_iff.mp (getElem?_rank hi hk)).1

/-- New numbers keep the old order. -/
theorem rank_lt_rank (hij : i < j) (hk : keep i = true) : rank keep i < rank keep j :=
  rank_lt hij hk

/-- Every new number is taken. -/
theorem exists_rank_eq {x : Nat} (hx : x < (kept keep n).length) :
    ∃ i < n, keep i = true ∧ rank keep i = x := by
  induction n with
  | zero => simp [kept] at hx
  | succ n ih =>
    cases hn : keep n with
    | false =>
      rw [kept_succ_of_false hn] at hx
      obtain ⟨i, hi, hk, hr⟩ := ih hx
      exact ⟨i, by omega, hk, hr⟩
    | true =>
      rw [kept_succ_of_true hn, length_append, length_singleton] at hx
      by_cases hlast : x = (kept keep n).length
      · exact ⟨n, by omega, hn, hlast.symm⟩
      · obtain ⟨i, hi, hk, hr⟩ := ih (by omega)
        exact ⟨i, by omega, hk, hr⟩

end Fuel.Renumber
