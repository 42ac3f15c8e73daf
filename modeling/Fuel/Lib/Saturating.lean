import Mathlib.Algebra.BigOperators.Group.List.Basic
import Mathlib.Algebra.Order.Group.Nat
import Mathlib.Algebra.Ring.Nat

/-!
# Saturating sums and first minima

A sum of words that saturates is the exact sum, cut off at the largest word,
however it is bracketed. The first minimum of a list is the element a loop ends
with that keeps its choice until it meets a strictly smaller one.
-/

namespace Fuel

open List

/-- `u64::saturating_add`. -/
def saturatingAdd (a b : UInt64) : UInt64 :=
  if a.toNat + b.toNat < 2 ^ 64 then a + b else UInt64.ofNat (2 ^ 64 - 1)

/-- A sum cut off at the largest word. -/
def capped (n : Nat) : Nat := min (2 ^ 64 - 1) n

theorem toNat_saturatingAdd (a b : UInt64) :
    (saturatingAdd a b).toNat = capped (a.toNat + b.toNat) := by
  unfold saturatingAdd capped
  split
  · rename_i h
    rw [UInt64.toNat_add, Nat.mod_eq_of_lt h]
    omega
  · have hmax : (UInt64.ofNat (2 ^ 64 - 1)).toNat = 2 ^ 64 - 1 := by decide
    rw [hmax]
    omega

theorem capped_toNat (a : UInt64) : capped a.toNat = a.toNat := by
  have := a.toNat_lt
  unfold capped
  omega

theorem capped_capped_add (m n : Nat) : capped (capped m + n) = capped (m + n) := by
  unfold capped
  omega

theorem capped_add_capped (m n : Nat) : capped (m + capped n) = capped (m + n) := by
  unfold capped
  omega

theorem capped_mono {m n : Nat} (h : m ≤ n) : capped m ≤ capped n := by
  unfold capped
  omega

/-- A loop that saturates at every step. -/
theorem toNat_foldl_saturatingAdd {α : Type} (f : α → UInt64) (l : List α) (a : UInt64) :
    (l.foldl (fun t x => saturatingAdd t (f x)) a).toNat =
      capped (a.toNat + (l.map fun x => (f x).toNat).sum) := by
  induction l generalizing a with
  | nil => exact (capped_toNat a).symm
  | cons x l ih =>
    rw [foldl_cons, ih, toNat_saturatingAdd, capped_capped_add, map_cons, sum_cons,
      Nat.add_assoc]

/-- Cutting off the summands changes nothing when the sum is cut off. -/
theorem capped_add_sum {α : Type} (g : α → Nat) (l : List α) (x : Nat) :
    capped (x + (l.map fun i => capped (g i)).sum) = capped (x + (l.map g).sum) := by
  induction l generalizing x with
  | nil => rfl
  | cons i l ih =>
    rw [map_cons, sum_cons, map_cons, sum_cons, ← Nat.add_assoc, ih,
      Nat.add_right_comm, capped_add_capped, Nat.add_right_comm, Nat.add_assoc]

/-! ## The first minimum -/

section Min

variable {α : Type}

/-- The choice so far against one more element. -/
def keepLess (f : α → UInt64) (choice : Option (α × UInt64)) (a : α) : Option (α × UInt64) :=
  match choice with
  | none => some (a, f a)
  | some (b, k) => if f a < k then some (a, f a) else some (b, k)

/-- The first element of a list at which `f` is least, with its value. -/
def firstMin (f : α → UInt64) (l : List α) : Option (α × UInt64) := l.foldl (keepLess f) none

theorem foldl_keepLess (f : α → UInt64) (l : List α) {a : α} :
    ∃ b, l.foldl (keepLess f) (some (a, f a)) = some (b, f b) ∧ (b = a ∨ b ∈ l) ∧ f b ≤ f a ∧
      ∀ c ∈ l, f b ≤ f c := by
  induction l generalizing a with
  | nil => exact ⟨a, rfl, .inl rfl, UInt64.le_refl _, by simp⟩
  | cons c l ih =>
    rw [foldl_cons, keepLess]
    split
    · rename_i hlt
      obtain ⟨b, hb, hmem, hle, hall⟩ := ih (a := c)
      refine ⟨b, hb, .inr ?_, UInt64.le_trans hle (UInt64.le_of_lt hlt), ?_⟩
      · rcases hmem with rfl | hmem
        · exact mem_cons_self
        · exact mem_cons_of_mem _ hmem
      · intro x hx
        rcases mem_cons.mp hx with rfl | hx
        · exact hle
        · exact hall x hx
    · rename_i hge
      obtain ⟨b, hb, hmem, hle, hall⟩ := ih (a := a)
      refine ⟨b, hb, hmem.imp_right (mem_cons_of_mem _), hle, ?_⟩
      intro x hx
      rcases mem_cons.mp hx with rfl | hx
      · exact UInt64.le_trans hle (UInt64.not_lt.mp hge)
      · exact hall x hx

/-- A list that is not empty has a first minimum. -/
theorem firstMin_spec (f : α → UInt64) {l : List α} (h : l ≠ []) :
    ∃ b ∈ l, firstMin f l = some (b, f b) ∧ ∀ c ∈ l, f b ≤ f c := by
  obtain ⟨a, l, rfl⟩ := exists_cons_of_ne_nil h
  obtain ⟨b, hb, hmem, hle, hall⟩ := foldl_keepLess f l (a := a)
  refine ⟨b, ?_, hb, ?_⟩
  · rcases hmem with rfl | hmem
    · exact mem_cons_self
    · exact mem_cons_of_mem _ hmem
  · intro c hc
    rcases mem_cons.mp hc with rfl | hc
    · exact hle
    · exact hall c hc

end Min

end Fuel
