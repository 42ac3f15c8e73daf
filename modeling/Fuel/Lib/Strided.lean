import Mathlib.Algebra.BigOperators.Intervals
import Mathlib.Algebra.BigOperators.Ring.List
import Mathlib.Tactic.Ring

/-!
# Boxes of multi-indices and their strided offsets

A box is a list of extents; its multi-indices are enumerated in row-major order,
the last axis fastest. One stride per axis gives each multi-index an offset. The
odometer steps from a multi-index to the one that follows it.

Offsets are in an arbitrary commutative ring, so that they can be integers or
machine words.
-/

namespace Fuel.Strided

open List

/-! ## Multi-indices -/

/-- `idx` is a multi-index of the box `dims`. -/
def Within (dims idx : List Nat) : Prop := List.Forall₂ (· < ·) idx dims

/-- The multi-indices of a box in row-major order. -/
def indices : List Nat → List (List Nat)
  | [] => [[]]
  | d :: dims => (range d).flatMap fun i => (indices dims).map (i :: ·)

/-- The first multi-index of a box. -/
def origin (dims : List Nat) : List Nat := replicate dims.length 0

variable {dims idx : List Nat}

theorem Within.length_eq (h : Within dims idx) : idx.length = dims.length :=
  List.Forall₂.length_eq h

theorem within_cons {d i : Nat} :
    Within (d :: dims) (i :: idx) ↔ i < d ∧ Within dims idx := forall₂_cons

theorem within_origin (h : ∀ d ∈ dims, 0 < d) : Within dims (origin dims) := by
  induction dims with
  | nil => exact .nil
  | cons d dims ih =>
    exact .cons (h d (by simp)) (ih fun e he => h e (by simp [he]))

theorem Within.pos (h : Within dims idx) : ∀ d ∈ dims, 0 < d := by
  induction h with
  | nil => simp
  | cons hid _ ih =>
    intro e he
    rcases mem_cons.mp he with rfl | he
    · omega
    · exact ih e he

theorem Within.append {dims' idx' : List Nat} (h : Within dims idx) (h' : Within dims' idx') :
    Within (dims ++ dims') (idx ++ idx') := rel_append h h'

theorem mem_indices : idx ∈ indices dims ↔ Within dims idx := by
  induction dims generalizing idx with
  | nil => simp [indices, Within]
  | cons d dims ih =>
    simp only [indices, mem_flatMap, mem_range, mem_map]
    constructor
    · rintro ⟨i, hi, js, hjs, rfl⟩
      exact within_cons.mpr ⟨hi, ih.mp hjs⟩
    · intro h
      cases h with
      | cons hi hjs => exact ⟨_, hi, _, ih.mpr hjs, rfl⟩

theorem length_indices (dims : List Nat) : (indices dims).length = dims.prod := by
  induction dims with
  | nil => rfl
  | cons d dims ih => simp [indices, length_flatMap, ih]

theorem indices_append (dims dims' : List Nat) :
    indices (dims ++ dims') =
      (indices dims).flatMap fun idx => (indices dims').map (idx ++ ·) := by
  induction dims with
  | nil => simp [indices]
  | cons d dims ih =>
    simp only [cons_append, indices, ih, flatMap_assoc, flatMap_map,
      map_flatMap, map_map, Function.comp_def]

/-! ## Offsets -/

section Offsets

variable {R : Type*} [CommRing R]

/-- The offset of a multi-index: the sum of its components times their strides. -/
def dot : List Nat → List R → R
  | i :: idx, s :: stride => i * s + dot idx stride
  | _, _ => 0

@[simp] theorem dot_nil (stride : List R) : dot [] stride = 0 := by
  cases stride <;> rfl

@[simp] theorem dot_cons (i : Nat) (idx : List Nat) (s : R) (stride : List R) :
    dot (i :: idx) (s :: stride) = i * s + dot idx stride := rfl

@[simp] theorem dot_origin (dims : List Nat) (stride : List R) : dot (origin dims) stride = 0 := by
  induction dims generalizing stride with
  | nil => exact dot_nil stride
  | cons d dims ih =>
    cases stride with
    | nil => rfl
    | cons s stride =>
      show ((0 : Nat) : R) * s + dot (origin dims) stride = 0
      rw [ih, Nat.cast_zero, zero_mul, add_zero]

variable {stride : List R} {dims : List Nat}

theorem dot_append {idx : List Nat} (h : idx.length = stride.length) (idx' : List Nat)
    (stride' : List R) :
    dot (idx ++ idx') (stride ++ stride') = dot idx stride + dot idx' stride' := by
  induction idx generalizing stride with
  | nil =>
    cases stride with
    | nil => simp
    | cons s stride => simp at h
  | cons i idx ih =>
    cases stride with
    | nil => simp at h
    | cons s stride =>
      rw [cons_append, cons_append, dot_cons, dot_cons, ih (by simpa using h), add_assoc]

theorem dot_map {S : Type*} [CommRing S] (f : R →+* S) (idx : List Nat) (stride : List R) :
    f (dot idx stride) = dot idx (stride.map f) := by
  induction idx generalizing stride with
  | nil => simp
  | cons i idx ih =>
    cases stride with
    | nil => exact map_zero f
    | cons s stride => simp [ih]

/-- The offsets of a box in row-major order. -/
def offsets (dims : List Nat) (stride : List R) : List R := (indices dims).map (dot · stride)

theorem offsets_append (h : stride.length = dims.length) (dims' : List Nat) (stride' : List R) :
    offsets (dims ++ dims') (stride ++ stride') =
      (offsets dims stride).flatMap fun x => (offsets dims' stride').map (x + ·) := by
  unfold offsets
  rw [indices_append, map_flatMap, flatMap_map]
  apply flatMap_congr
  intro idx hidx
  rw [map_map, map_map]
  apply map_congr_left
  intro idx' _
  exact dot_append ((mem_indices.mp hidx).length_eq.trans h.symm) idx' stride'

/-- Every axis with more than one position has the row-major stride. -/
def RowMajor : List Nat → List R → Prop
  | d :: dims, s :: stride => (1 < d → s = (dims.prod : Nat)) ∧ RowMajor dims stride
  | [], _ => True
  | _ :: _, [] => False

theorem range_mul (d n : Nat) :
    (range d).flatMap (fun i => (range n).map (i * n + ·)) = range (d * n) := by
  induction d with
  | zero => simp
  | succ d ih =>
    rw [range_succ, flatMap_append, ih, Nat.succ_mul, range_add]
    simp

/-- With row-major strides the offsets are consecutive. -/
theorem offsets_rowMajor (h : RowMajor dims stride) :
    offsets dims stride = (range dims.prod).map Nat.cast := by
  induction dims generalizing stride with
  | nil => simp [offsets, indices]
  | cons d dims ih =>
    cases stride with
    | nil => exact h.elim
    | cons s stride =>
      obtain ⟨hs, hrest⟩ := h
      have hoff : offsets (d :: dims) (s :: stride) =
          (range d).flatMap fun i : Nat =>
            (range dims.prod).map fun j : Nat => (i * s + j : R) := by
        simp only [offsets, indices, map_flatMap, map_map, Function.comp_def, dot_cons]
        apply flatMap_congr
        intro i _
        calc (indices dims).map (fun x => (i : R) * s + dot x stride)
            = (offsets dims stride).map ((i : R) * s + ·) := by
              rw [offsets, map_map]
              rfl
          _ = (range dims.prod).map fun j : Nat => (i : R) * s + j := by
              rw [ih hrest, map_map]
              rfl
      rw [hoff, prod_cons, ← range_mul, map_flatMap]
      apply flatMap_congr
      intro i hi
      rw [map_map]
      apply map_congr_left
      intro j _
      -- an axis of one position has its only component 0, whatever its stride
      have his : (i : R) * s = (i * dims.prod : Nat) := by
        rcases Nat.lt_or_ge 1 d with hd | hd
        · rw [hs hd, Nat.cast_mul]
        · have : i = 0 := by
            have := mem_range.mp hi
            omega
          simp [this]
      rw [his, Function.comp_apply, Nat.cast_add]

theorem dot_of_zero (h : ∀ s ∈ stride, s = 0) (idx : List Nat) : dot idx stride = 0 := by
  induction stride generalizing idx with
  | nil => cases idx <;> rfl
  | cons s stride ih =>
    cases idx with
    | nil => rfl
    | cons i idx =>
      rw [dot_cons, h s (by simp), ih (fun t ht => h t (by simp [ht])), mul_zero, add_zero]

/-- With strides of zero every offset is zero. -/
theorem offsets_zero (h : ∀ s ∈ stride, s = 0) :
    offsets dims stride = replicate dims.prod 0 := by
  rw [offsets, map_congr_left fun idx _ => dot_of_zero h idx, map_const', length_indices]

end Offsets

/-! ## Changing axes -/

section Axes

variable {R : Type*} [CommRing R] {dims idx : List Nat} {stride : List R} {k d : Nat}

theorem within_iff : Within dims idx ↔
    idx.length = dims.length ∧ ∀ k < dims.length, idx.getD k 0 < dims.getD k 0 := by
  unfold Within
  induction idx generalizing dims with
  | nil =>
    cases dims with
    | nil => simp
    | cons d dims => simp
  | cons i idx ih =>
    cases dims with
    | nil => simp
    | cons d dims =>
      rw [forall₂_cons, ih]
      constructor
      · rintro ⟨hi, hlen, hrest⟩
        refine ⟨by simpa using hlen, ?_⟩
        intro k hk
        cases k with
        | zero => simpa using hi
        | succ k => simpa using hrest k (by simpa using hk)
      · rintro ⟨hlen, hall⟩
        refine ⟨by simpa using hall 0 (by simp), by simpa using hlen, ?_⟩
        intro k hk
        simpa using hall (k + 1) (by simpa using hk)

/-- The offset as a sum over the positions. -/
theorem dot_eq_sum (idx : List Nat) (stride : List R) : dot idx stride =
    ∑ k ∈ Finset.range idx.length, (idx.getD k 0 : R) * stride.getD k 0 := by
  induction idx generalizing stride with
  | nil => simp
  | cons i idx ih =>
    rw [length_cons, Finset.sum_range_succ']
    cases stride with
    | nil => simp [dot]
    | cons s stride => simp [ih, add_comm]

/-- Reading positions through a bijection on both sides. -/
theorem dot_reindex {idx' : List Nat} {stride' : List R} {f g : Nat → Nat}
    (hlen : idx'.length = idx.length) (hf : ∀ k < idx.length, f k < idx.length ∧ g (f k) = k)
    (hg : ∀ k < idx.length, g k < idx.length ∧ f (g k) = k)
    (hidx : ∀ k < idx.length, idx'.getD k 0 = idx.getD (f k) 0)
    (hstride : ∀ k < idx.length, stride'.getD k 0 = stride.getD (f k) 0) :
    dot idx' stride' = dot idx stride := by
  rw [dot_eq_sum, dot_eq_sum, hlen]
  refine Finset.sum_nbij' f g ?_ ?_ ?_ ?_ ?_
  · exact fun k hk => Finset.mem_range.mpr (hf k (Finset.mem_range.mp hk)).1
  · exact fun k hk => Finset.mem_range.mpr (hg k (Finset.mem_range.mp hk)).1
  · exact fun k hk => (hf k (Finset.mem_range.mp hk)).2
  · exact fun k hk => (hg k (Finset.mem_range.mp hk)).2
  · intro k hk
    rw [hidx k (Finset.mem_range.mp hk), hstride k (Finset.mem_range.mp hk)]

theorem dot_modify (f : Nat → Nat) (hk : k < idx.length) : dot (idx.modify k f) stride =
      dot idx stride + ((f (idx.getD k 0) : R) - idx.getD k 0) * stride.getD k 0 := by
  induction idx generalizing k stride with
  | nil => simp at hk
  | cons i idx ih =>
    cases stride with
    | nil => cases k <;> simp [dot]
    | cons s stride =>
      cases k with
      | zero =>
        simp
        ring
      | succ k =>
        simp [ih (by simpa using hk)]
        ring

theorem dot_set (t : R) (hk : k < stride.length) : dot idx (stride.set k t) =
      dot idx stride + (idx.getD k 0 : R) * (t - stride.getD k 0) := by
  induction stride generalizing k idx with
  | nil => simp at hk
  | cons s stride ih =>
    cases idx with
    | nil => simp
    | cons i idx =>
      cases k with
      | zero =>
        simp
        ring
      | succ k =>
        simp [ih (by simpa using hk)]
        ring

/-- An inserted axis has stride zero. -/
theorem dot_eraseIdx (hk : k ≤ stride.length) :
    dot (idx.eraseIdx k) stride = dot idx (stride.insertIdx k 0) := by
  induction k generalizing idx stride with
  | zero =>
    cases idx with
    | nil => simp
    | cons i idx => simp
  | succ k ih =>
    cases stride with
    | nil => simp at hk
    | cons s stride =>
      cases idx with
      | nil => simp
      | cons i idx => simp [ih (by simpa using hk)]

/-- A component zero on an axis that is dropped. -/
theorem dot_insertIdx (hk : k ≤ idx.length) :
    dot (idx.insertIdx k 0) stride = dot idx (stride.eraseIdx k) := by
  induction k generalizing idx stride with
  | zero =>
    cases stride with
    | nil => cases idx <;> simp [dot]
    | cons s stride => simp
  | succ k ih =>
    cases idx with
    | nil => simp at hk
    | cons i idx =>
      cases stride with
      | nil => simp [dot]
      | cons s stride => simp [ih (by simpa using hk)]

theorem within_modify (f : Nat → Nat) (h : Within (dims.set k d) idx)
    (hf : ∀ i < d, f i < dims.getD k 0) : Within dims (idx.modify k f) := by
  induction dims generalizing k idx with
  | nil =>
    cases h
    cases k <;> exact .nil
  | cons e dims ih =>
    cases k with
    | zero =>
      cases h with
      | cons hi hrest => exact .cons (by simpa using hf _ hi) hrest
    | succ k =>
      cases h with
      | cons hi hrest => exact .cons hi (ih hrest (by simpa using hf))

theorem within_eraseIdx (hk : k ≤ dims.length) (h : Within (dims.insertIdx k d) idx) :
    Within dims (idx.eraseIdx k) := by
  induction k generalizing dims idx with
  | zero =>
    cases h with
    | cons _ hrest => exact hrest
  | succ k ih =>
    cases dims with
    | nil => simp at hk
    | cons e dims =>
      cases h with
      | cons hi hrest => exact .cons hi (ih (by simpa using hk) hrest)

theorem within_insertIdx (hk : dims[k]? = some d) (hd : 0 < d) (h : Within (dims.eraseIdx k) idx) :
    Within dims (idx.insertIdx k 0) := by
  induction k generalizing dims idx with
  | zero =>
    cases dims with
    | nil => cases hk
    | cons e dims =>
      cases hk
      exact .cons hd h
  | succ k ih =>
    cases dims with
    | nil => cases hk
    | cons e dims =>
      cases h with
      | cons hi hrest => exact .cons hi (ih hk hrest)

end Axes

/-! ## The odometer -/

/-- The multi-index that follows `idx` in row-major order. -/
def next? : List Nat → List Nat → Option (List Nat)
  | d :: dims, i :: idx =>
    match next? dims idx with
    | some js => some (i :: js)
    | none => if i + 1 < d then some ((i + 1) :: origin dims) else none
  | _, _ => none

/-- The multi-indices from `idx` on. -/
def upFrom : List Nat → List Nat → List (List Nat)
  | d :: dims, i :: idx => (upFrom dims idx).map (i :: ·) ++
      ((range d).drop (i + 1)).flatMap fun j => (indices dims).map (j :: ·)
  | _, _ => [[]]

theorem next?_within {js : List Nat} (h : Within dims idx) (hn : next? dims idx = some js) :
    Within dims js := by
  induction h generalizing js with
  | nil => cases hn
  | @cons i d idx dims hi hrest ih =>
    simp only [next?] at hn
    split at hn
    · rename_i ks hks
      cases hn
      exact within_cons.mpr ⟨hi, ih hks⟩
    · split at hn
      · rename_i hlt
        cases hn
        exact within_cons.mpr ⟨hlt, within_origin (Within.pos hrest)⟩
      · cases hn

theorem upFrom_origin (h : ∀ d ∈ dims, 0 < d) : upFrom dims (origin dims) = indices dims := by
  induction dims with
  | nil => rfl
  | cons d dims ih =>
    obtain ⟨n, rfl⟩ : ∃ n, d = n + 1 := ⟨d - 1, by have := h d (by simp); omega⟩
    show (upFrom dims (origin dims)).map (0 :: ·) ++ _ = _
    rw [ih fun e he => h e (by simp [he]), indices, range_succ_eq_map, flatMap_cons]
    rfl

/-- The odometer's step is the next multi-index of the enumeration. -/
theorem upFrom_eq (h : Within dims idx) :
    upFrom dims idx = idx :: ((next? dims idx).map (upFrom dims)).getD [] := by
  induction h with
  | nil => rfl
  | @cons i d idx dims hi hrest ih =>
    simp only [upFrom, next?, ih]
    cases hn : next? dims idx with
    | some js => simp [upFrom]
    | none =>
      by_cases hlt : i + 1 < d
      · have hdrop : (range d).drop (i + 1) = (i + 1) :: (range d).drop (i + 1 + 1) := by
          rw [drop_eq_getElem_cons (by simpa using hlt), getElem_range]
        simp [hlt, hdrop, upFrom, upFrom_origin (Within.pos hrest)]
      · have hdrop : (range d).drop (i + 1) = [] := drop_eq_nil_iff.mpr (by simp; omega)
        simp [hlt, hdrop]

end Fuel.Strided
