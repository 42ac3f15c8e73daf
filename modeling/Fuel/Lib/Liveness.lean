import Fuel.Lib.DepGraph

/-!
# Live values along a schedule

While a schedule runs, a value is live from the vertex that produces it up to
the last vertex that reads it, and a value of `keep` stays live to the end. This
file gives the live values of each position and how their total size changes:
running a vertex adds its own size, and finishing it drops the values it was the
last to want.
-/

namespace Fuel.Liveness

open Fuel.DepGraph List

variable {α : Type*}

/-! ## Total sizes -/

section Weight

variable {size : α → Nat}

/-- The total size of the values of a list. -/
def weight (size : α → Nat) (l : List α) : Nat := (l.map size).sum

@[simp] theorem weight_append (l l' : List α) :
    weight size (l ++ l') = weight size l + weight size l' := by
  simp [weight]

@[simp] theorem weight_singleton (a : α) : weight size [a] = size a := by
  simp [weight]

theorem weight_cons (a : α) (l : List α) : weight size (a :: l) = size a + weight size l := by
  simp [weight]

theorem weight_le_of_sublist {l l' : List α} (h : l.Sublist l') : weight size l ≤ weight size l' :=
  (h.map size).sum_le_sum fun _ _ => Nat.zero_le _

/-- A list splits into what meets `p` and what does not. -/
theorem weight_filter_or (p q : α → Prop) [DecidablePred p] [DecidablePred q] (l : List α) :
    weight size (l.filter fun x => p x ∨ q x) =
      weight size (l.filter fun x => p x) + weight size (l.filter fun x => q x ∧ ¬ p x) := by
  induction l with
  | nil => rfl
  | cons x l ih =>
    by_cases hp : p x
    · simp only [filter_cons, hp, true_or, not_true_eq_false, and_false, decide_true,
        decide_false, if_true, Bool.false_eq_true, if_false, weight_cons]
      omega
    · by_cases hq : q x <;>
        simp only [filter_cons, hp, hq, false_or, true_and, false_and, not_false_eq_true,
          decide_true, decide_false, if_true, Bool.false_eq_true, if_false, weight_cons] <;> omega

end Weight

/-! ## Live values -/

/-- The value of `x` is still wanted when the vertices of `rest` are left to run. -/
def Wanted (deps : α → List α) (keep rest : List α) (x : α) : Prop :=
  x ∈ keep ∨ ∃ r ∈ rest, x ∈ deps r

theorem wanted_cons {deps : α → List α} {keep rest : List α} {b x : α} :
    Wanted deps keep (b :: rest) x ↔ Wanted deps keep rest x ∨ x ∈ deps b := by
  simp only [Wanted, mem_cons, exists_eq_or_imp]
  rw [or_comm (a := x ∈ deps b), or_assoc]

variable [DecidableEq α]

instance (deps : α → List α) (keep rest : List α) (x : α) : Decidable (Wanted deps keep rest x) :=
  inferInstanceAs (Decidable (_ ∨ _))

/-- The values live at position `i`: those produced so far that `i` itself
produces, that are kept, or that a vertex from `i` on reads. -/
def liveAt (deps : α → List α) (keep order : List α) (i : Nat) : List α :=
  (order.take (i + 1)).filter fun x => order[i]? = some x ∨ Wanted deps keep (order.drop i) x

/-- The values that are left once the vertices of `done` have run. -/
def carried (deps : α → List α) (keep done rest : List α) : List α :=
  done.filter fun x => Wanted deps keep rest x

variable {deps : α → List α} {keep done rest : List α} {size : α → Nat} {b : α}

/-- Lists with the same number of occurrences of every value of some size weigh the same. -/
theorem weight_congr {l l' : List α} (h : ∀ x, size x ≠ 0 → l.count x = l'.count x) :
    weight size l = weight size l' := by
  have hsum : ∀ k : List α, (∀ x ∈ k, x ∈ l ++ l') →
      weight size k = ∑ x ∈ (l ++ l').toFinset, k.count x * size x := by
    intro k hk
    rw [weight, Finset.sum_list_map_count]
    refine Finset.sum_subset ?_ ?_
    · intro x hx
      exact mem_toFinset.mpr (hk x (mem_toFinset.mp hx))
    · intro x _ hx
      rw [count_eq_zero_of_not_mem (mt mem_toFinset.mpr hx), zero_smul]
  rw [hsum l fun x hx => mem_append_left _ hx, hsum l' fun x hx => mem_append_right _ hx]
  apply Finset.sum_congr rfl
  intro x _
  by_cases hx : size x = 0
  · simp [hx]
  · rw [h x hx]

/-! ## One position -/

theorem liveAt_split :
    liveAt deps keep (done ++ b :: rest) done.length =
      (done ++ [b]).filter fun x => x = b ∨ Wanted deps keep (b :: rest) x := by
  unfold liveAt
  have htake : (done ++ b :: rest).take (done.length + 1) = done ++ [b] := by
    rw [append_cons, take_left' (by simp)]
  have hdrop : (done ++ b :: rest).drop done.length = b :: rest := drop_left
  rw [htake, hdrop]
  simp [eq_comm]

/-- Running `b` adds its value to what was carried up to it. -/
theorem weight_liveAt (deps : α → List α) (keep rest : List α) (size : α → Nat) (hb : b ∉ done) :
    weight size (liveAt deps keep (done ++ b :: rest) done.length) =
      weight size (carried deps keep done (b :: rest)) + size b := by
  rw [liveAt_split, filter_append, weight_append]
  have hold : (done.filter fun x => x = b ∨ Wanted deps keep (b :: rest) x) =
      carried deps keep done (b :: rest) := by
    apply filter_congr
    intro x hx
    have hne : x ≠ b := fun h => hb (h ▸ hx)
    simp [hne]
  rw [hold]
  simp

/-- Finishing `b`, which somebody still wants, drops the values only `b` wanted. -/
theorem weight_carried (size : α → Nat) (done : List α) (hb : Wanted deps keep rest b) :
    weight size (carried deps keep done (b :: rest)) + size b =
      weight size (carried deps keep (done ++ [b]) rest) +
        weight size (done.filter fun x => x ∈ deps b ∧ ¬ Wanted deps keep rest x) := by
  have hold : carried deps keep done (b :: rest) =
      done.filter fun x => Wanted deps keep rest x ∨ x ∈ deps b := by
    apply filter_congr
    intro x _
    simp only [wanted_cons]
  have hnew : carried deps keep (done ++ [b]) rest = carried deps keep done rest ++ [b] := by
    simp [carried, hb]
  rw [hold, hnew, weight_filter_or, weight_append, weight_singleton, carried]
  omega

/-- What is freed edge by edge is what is dropped value by value, if every value
of some size whose last reader is `b` is read in one slot of `b` and not kept. -/
theorem weight_freed (hnodup : done.Nodup) (hdeps : ∀ x ∈ deps b, x ∈ done)
    (honce : ∀ x ∈ deps b, size x ≠ 0 → (∀ r ∈ rest, x ∉ deps r) →
      x ∉ keep ∧ (deps b).count x = 1) :
    weight size ((deps b).filter fun x => ∀ r ∈ rest, x ∉ deps r) =
      weight size (done.filter fun x => x ∈ deps b ∧ ¬ Wanted deps keep rest x) := by
  apply weight_congr
  intro x hsize
  by_cases hlast : x ∈ deps b ∧ ∀ r ∈ rest, x ∉ deps r
  · obtain ⟨hxb, hrest⟩ := hlast
    obtain ⟨hkeep, hcount⟩ := honce x hxb hsize hrest
    have hunwanted : ¬ Wanted deps keep rest x := by
      rintro (hk | ⟨r, hr, hxr⟩)
      · exact hkeep hk
      · exact hrest r hr hxr
    rw [count_filter (by simpa using hrest), hcount,
      count_filter (by simpa using ⟨hxb, hunwanted⟩),
      count_eq_one_of_mem hnodup (hdeps x hxb)]
  · rw [count_eq_zero_of_not_mem, count_eq_zero_of_not_mem]
    · intro hx
      obtain ⟨-, hx⟩ := mem_filter.mp hx
      obtain ⟨hxb, hunwanted⟩ := of_decide_eq_true hx
      exact hlast ⟨hxb, fun r hr hxr => hunwanted (.inr ⟨r, hr, hxr⟩)⟩
    · intro hx
      obtain ⟨hxb, hx⟩ := mem_filter.mp hx
      exact hlast ⟨hxb, of_decide_eq_true hx⟩

theorem weight_liveAt_le (order : List α) (i : Nat) :
    weight size (liveAt deps keep order i) ≤ weight size order :=
  weight_le_of_sublist (filter_sublist.trans (take_sublist _ _))

end Fuel.Liveness
