import Mathlib.Tactic

/-!
# Double-precision floats as bit patterns

A float is its 64 bits. The comparison is the hardware's: no NaN equals
anything, and the two zeros are equal. Conversions from and to integers round
to nearest even and truncate toward zero.
-/

namespace Fuel.Float64

def exponent (x : UInt64) : Nat := x.toNat / 2 ^ 52 % 2 ^ 11

def mantissa (x : UInt64) : Nat := x.toNat % 2 ^ 52

def isNegative (x : UInt64) : Bool := decide (2 ^ 63 ≤ x.toNat)

def isNaN (x : UInt64) : Bool := decide (exponent x = 2047 ∧ mantissa x ≠ 0)

def isZero (x : UInt64) : Bool := decide (x.toNat % 2 ^ 63 = 0)

/-- `x == y`. -/
def eq (x y : UInt64) : Bool :=
  !isNaN x && !isNaN y && (decide (x = y) || isZero x && isZero y)

/-- `xs == ys`. -/
def eqAll : List UInt64 → List UInt64 → Bool
  | [], [] => true
  | x :: xs, y :: ys => eq x y && eqAll xs ys
  | _, _ => false

/-- `n as f64`, by the magnitude and the exponent of its leading bit. -/
def ofMagnitude (m : Nat) : Nat :=
  let e := m.log2
  let q :=
    if e ≤ 52 then m * 2 ^ (52 - e)
    else
      let step := 2 ^ (e - 52)
      let q := m / step
      let r := m % step
      if step < 2 * r ∨ step = 2 * r ∧ q % 2 = 1 then q + 1 else q
  -- a quotient rounded up to the next power of two carries into the exponent
  (e + 1022) * 2 ^ 52 + q

/-- `n as f64`. -/
def ofInt (n : Int) : UInt64 :=
  if n = 0 then 0
  else .ofNat (ofMagnitude n.natAbs + if n < 0 then 2 ^ 63 else 0)

/-- The value's magnitude, truncated; a subnormal is below one. -/
def magnitude (x : UInt64) : Nat :=
  let e := exponent x
  if e = 0 then 0
  else if 1075 ≤ e then (2 ^ 52 + mantissa x) * 2 ^ (e - 1075)
  else (2 ^ 52 + mantissa x) / 2 ^ (1075 - e)

/-- `x as i32`: toward zero, saturating, with NaN as zero. -/
def toI32 (x : UInt64) : Int :=
  if isNaN x then 0
  else
    let v : Int := if isNegative x then -(magnitude x : Int) else magnitude x
    max (-2 ^ 31) (min (2 ^ 31 - 1) v)

/-- Floats that are equal and not zero have one bit pattern. -/
theorem eq_or_isZero {x y : UInt64} (h : eq x y = true) : x = y ∨ isZero x = true ∧ isZero y = true := by
  simp only [eq, Bool.and_eq_true, Bool.or_eq_true, decide_eq_true_eq] at h
  exact h.2

/-! ## Small integers survive -/

section Exact

variable {m : Nat}

theorem log2_lt (hm : m ≤ 2 ^ 31) : m.log2 ≤ 31 := by
  by_contra h
  have hm0 : m ≠ 0 := by
    rintro rfl
    simp at h
  have : 2 ^ 32 ≤ m := (Nat.pow_le_pow_right (by norm_num) (by omega)).trans (Nat.log2_self_le hm0)
  omega

/-- The scaled magnitude has its leading bit at position 52. -/
theorem scaled_bounds (h0 : m ≠ 0) (hm : m ≤ 2 ^ 31) :
    2 ^ 52 ≤ m * 2 ^ (52 - m.log2) ∧ m * 2 ^ (52 - m.log2) < 2 ^ 53 := by
  have he := log2_lt hm
  constructor
  · calc 2 ^ 52 = 2 ^ m.log2 * 2 ^ (52 - m.log2) := by rw [← pow_add]; congr 1; omega
      _ ≤ m * 2 ^ (52 - m.log2) := Nat.mul_le_mul_right _ (Nat.log2_self_le h0)
  · calc m * 2 ^ (52 - m.log2) < 2 ^ (m.log2 + 1) * 2 ^ (52 - m.log2) :=
          Nat.mul_lt_mul_of_pos_right Nat.lt_log2_self (by positivity)
      _ = 2 ^ 53 := by rw [← pow_add]; congr 1; omega

theorem ofMagnitude_eq (hm : m ≤ 2 ^ 31) :
    ofMagnitude m = (m.log2 + 1022) * 2 ^ 52 + m * 2 ^ (52 - m.log2) := by
  have he : m.log2 ≤ 52 := (log2_lt hm).trans (by norm_num)
  simp [ofMagnitude, he]

/-- The fields of a small integer's float, with either sign bit. -/
theorem fields_ofMagnitude (h0 : m ≠ 0) (hm : m ≤ 2 ^ 31) (s : Nat) (hs : s < 2) :
    let x : UInt64 := .ofNat (ofMagnitude m + s * 2 ^ 63)
    exponent x = m.log2 + 1023 ∧ 2 ^ 52 + mantissa x = m * 2 ^ (52 - m.log2) ∧
      isNegative x = decide (s = 1) ∧ isZero x = false := by
  obtain ⟨hlo, hhi⟩ := scaled_bounds h0 hm
  have he := log2_lt hm
  have hval := ofMagnitude_eq hm
  generalize hq : m * 2 ^ (52 - m.log2) = q at *
  have hlt : ofMagnitude m + s * 2 ^ 63 < 2 ^ 64 := by omega
  have hnat : (UInt64.ofNat (ofMagnitude m + s * 2 ^ 63)).toNat = ofMagnitude m + s * 2 ^ 63 := by
    rw [UInt64.toNat_ofNat']
    exact Nat.mod_eq_of_lt hlt
  refine ⟨?_, ?_, ?_, ?_⟩
  · rw [exponent, hnat]
    omega
  · rw [mantissa, hnat]
    omega
  · rw [isNegative, hnat]
    congr 1
    apply propext
    omega
  · rw [isZero, hnat]
    exact decide_eq_false (by omega)

theorem magnitude_of_fields {x : UInt64} (hm : m ≤ 2 ^ 31)
    (hexp : exponent x = m.log2 + 1023)
    (hman : 2 ^ 52 + mantissa x = m * 2 ^ (52 - m.log2)) : magnitude x = m := by
  have he := log2_lt hm
  have hsub : 1075 - (m.log2 + 1023) = 52 - m.log2 := by omega
  rw [magnitude, hexp, hman, if_neg (by omega), if_neg (by omega), hsub, Nat.mul_div_cancel _ (by positivity)]

end Exact

theorem ofInt_eq {n : Int} (h0 : n ≠ 0) :
    ofInt n = .ofNat (ofMagnitude n.natAbs + (if n < 0 then 1 else 0) * 2 ^ 63) := by
  rw [ofInt, if_neg h0]
  congr 2
  split <;> simp

/-- **An `i32` survives the way to a float and back.** -/
theorem toI32_ofInt {n : Int} (hlo : -2 ^ 31 ≤ n) (hhi : n < 2 ^ 31) : toI32 (ofInt n) = n := by
  by_cases h0 : n = 0
  · subst h0
    decide
  have hm0 : n.natAbs ≠ 0 := by omega
  have hm : n.natAbs ≤ 2 ^ 31 := by omega
  obtain ⟨hexp, hman, hneg, -⟩ := fields_ofMagnitude hm0 hm (if n < 0 then 1 else 0)
    (by split <;> omega)
  rw [← ofInt_eq h0] at hexp hman hneg
  have hnan : isNaN (ofInt n) = false := by
    have he := log2_lt hm
    exact decide_eq_false (by omega)
  rw [toI32, hnan, if_neg Bool.false_ne_true, magnitude_of_fields hm hexp hman, hneg]
  by_cases hn : n < 0
  · simp only [hn, if_true, decide_true]
    omega
  · simp only [hn, if_false, Nat.zero_ne_one, decide_false, Bool.false_eq_true]
    omega

/-- A float equal to an `i32` converts back to it. -/
theorem toI32_of_eq {x : UInt64} {n : Int} (hlo : -2 ^ 31 ≤ n) (hhi : n < 2 ^ 31)
    (h : eq x (ofInt n) = true) : toI32 x = n := by
  rcases eq_or_isZero h with rfl | ⟨hx, hn⟩
  · exact toI32_ofInt hlo hhi
  have h0 : n = 0 := by
    by_contra h0
    have hz := (fields_ofMagnitude (m := n.natAbs) (by omega) (by omega)
      (if n < 0 then 1 else 0) (by split <;> omega)).2.2.2
    rw [← ofInt_eq h0, hn] at hz
    cases hz
  have hx' : x.toNat % 2 ^ 63 = 0 := of_decide_eq_true hx
  have hexp : exponent x = 0 := by rw [exponent]; omega
  have hmag : magnitude x = 0 := by rw [magnitude, hexp]; rfl
  have hnan : isNaN x = false := decide_eq_false (by omega)
  rw [toI32, hnan, hmag, h0]
  simp

end Fuel.Float64
