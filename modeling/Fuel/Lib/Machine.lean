import Fuel.Lib.Method

/-!
# Machine integers in either build

Integer overflow aborts in a build with overflow checks and wraps in one without.
The operations take the build as a parameter, so that a statement can be about
both. A division that overflows aborts in every build.
-/

namespace Fuel

/-- A debug build checks arithmetic for overflow, a release build does not. -/
inductive Build where
  | debug | release
  deriving DecidableEq, Repr

/-- The integers of an `i64`. -/
def IsI64 (x : Int) : Prop := -2 ^ 63 ≤ x ∧ x < 2 ^ 63

instance (x : Int) : Decidable (IsI64 x) := inferInstanceAs (Decidable (_ ∧ _))

/-- `x as isize` on a 64-bit target. -/
def asIsize (x : Int) : Int := x.bmod (2 ^ 64)

/-- `x as usize` on a 64-bit target. -/
def asUsize (x : Int) : Nat := (x % 2 ^ 64).toNat

theorem asIsize_of_isI64 {x : Int} (h : IsI64 x) : asIsize x = x := by
  unfold IsI64 at h
  exact Int.bmod_eq_of_le (by omega) (by omega)

theorem asUsize_natCast (n : Nat) : asUsize n = n % 2 ^ 64 := by
  unfold asUsize
  omega

theorem asUsize_eq_iff {x y : Int} : asUsize x = asUsize y ↔ x % 2 ^ 64 = y % 2 ^ 64 := by
  unfold asUsize
  omega

theorem asUsize_asIsize (x : Int) : asUsize (asIsize x) = asUsize x :=
  asUsize_eq_iff.mpr Int.bmod_emod

namespace Method

variable {ε σ α β : Type}

/-- The result of an `i64` operation whose exact result is `x`. -/
def i64Result (build : Build) (why : Abort) (x : Int) : Method ε σ Int :=
  if IsI64 x then pure x
  else match build with
    | .debug => abort why
    | .release => pure (x.bmod (2 ^ 64))

def addI64 (build : Build) (x y : Int) : Method ε σ Int := i64Result build .addOverflow (x + y)

def subI64 (build : Build) (x y : Int) : Method ε σ Int := i64Result build .subOverflow (x - y)

def mulI64 (build : Build) (x y : Int) : Method ε σ Int := i64Result build .mulOverflow (x * y)

/-- `x / y` on `i64`, truncating. -/
def divI64 (x y : Int) : Method ε σ Int :=
  if y = 0 then abort .divideByZero
  else if IsI64 (x.tdiv y) then pure (x.tdiv y)
  else abort .divOverflow

/-- `x % y` on `i64`; it overflows when `x / y` does. -/
def remI64 (x y : Int) : Method ε σ Int :=
  if y = 0 then abort .divideByZero
  else if IsI64 (x.tdiv y) then pure (x.tmod y)
  else abort .divOverflow

variable {build : Build} {why : Abort} {x y : Int} {a b : Nat}

theorem i64Result_of_fits (h : IsI64 x) :
    (i64Result build why x : Method ε σ Int) = pure x := if_pos h

theorem i64Result_of_not_fits (h : ¬ IsI64 x) :
    (i64Result .debug why x : Method ε σ Int) = abort why := if_neg h

/-- The result of a `usize` operation whose exact result is `x`. -/
def usizeResult (build : Build) (why : Abort) (x : Int) : Method ε σ Nat :=
  if 0 ≤ x ∧ x.toNat < 2 ^ 64 then pure x.toNat
  else match build with
    | .debug => abort why
    | .release => pure (x % 2 ^ 64).toNat

theorem usizeResult_release :
    (usizeResult .release why x : Method ε σ Nat) = pure (x % 2 ^ 64).toNat := by
  unfold usizeResult
  split
  · rename_i h
    rw [Int.emod_eq_of_lt h.1 (by omega)]
  · rfl

def addUsizeIn (build : Build) (a b : Nat) : Method ε σ Nat :=
  usizeResult build .addOverflow (a + b : Nat)

def subUsizeIn (build : Build) (a b : Nat) : Method ε σ Nat :=
  usizeResult build .subOverflow (a - b : Int)

def mulUsizeIn (build : Build) (a b : Nat) : Method ε σ Nat :=
  usizeResult build .mulOverflow (a * b : Nat)

theorem addUsizeIn_of_lt (h : a + b < 2 ^ 64) :
    (addUsizeIn build a b : Method ε σ Nat) = pure (a + b) := by
  unfold addUsizeIn usizeResult
  rw [if_pos (by omega), Int.toNat_natCast]

theorem addUsizeIn_overflow (h : ¬ a + b < 2 ^ 64) :
    (addUsizeIn .debug a b : Method ε σ Nat) = abort .addOverflow := by
  unfold addUsizeIn usizeResult
  rw [if_neg (by omega)]

theorem subUsizeIn_of_le (h : b ≤ a) (ha : a < 2 ^ 64) :
    (subUsizeIn build a b : Method ε σ Nat) = pure (a - b) := by
  unfold subUsizeIn usizeResult
  rw [if_pos (by omega), Int.toNat_sub]

theorem mulUsizeIn_of_lt (h : a * b < 2 ^ 64) :
    (mulUsizeIn build a b : Method ε σ Nat) = pure (a * b) := by
  unfold mulUsizeIn usizeResult
  rw [Int.toNat_natCast, if_pos ⟨Int.natCast_nonneg _, h⟩]

theorem mulUsizeIn_overflow (h : ¬ a * b < 2 ^ 64) :
    (mulUsizeIn .debug a b : Method ε σ Nat) = abort .mulOverflow := by
  unfold mulUsizeIn usizeResult
  rw [Int.toNat_natCast, if_neg fun hc => h hc.2]

/-- `a + b` on `u32`. -/
def addU32In (build : Build) (a b : Nat) : Method ε σ Nat :=
  if a + b < 2 ^ 32 then pure (a + b)
  else match build with
    | .debug => abort .addOverflow
    | .release => pure ((a + b) % 2 ^ 32)

/-- `a - b` on `u32`. -/
def subU32In (build : Build) (a b : Nat) : Method ε σ Nat :=
  if b ≤ a then pure (a - b)
  else match build with
    | .debug => abort .subOverflow
    | .release => pure (a + 2 ^ 32 - b)

/-! ## Checked operations -/

/-- A checked operation gives its exact result, or aborts. -/
theorem usizeResult_reads (n : Nat) (hwhy : why.isArith = true) (s : σ) :
    ((usizeResult .debug why n : Method ε σ Nat) s).AllOrNothing s fun r t =>
      t = s ∧ (r = n ∧ n < 2 ^ 64) := by
  unfold usizeResult
  split
  · exact .ok ⟨rfl, by omega⟩
  · exact .arith hwhy

theorem addUsizeIn_reads (a b : Nat) (s : σ) :
    ((addUsizeIn .debug a b : Method ε σ Nat) s).AllOrNothing s fun n t =>
      t = s ∧ (n = a + b ∧ a + b < 2 ^ 64) :=
  usizeResult_reads _ rfl s

theorem mulUsizeIn_reads (a b : Nat) (s : σ) :
    ((mulUsizeIn .debug a b : Method ε σ Nat) s).AllOrNothing s fun n t =>
      t = s ∧ (n = a * b ∧ a * b < 2 ^ 64) :=
  usizeResult_reads _ rfl s

/-- An operation neither refuses nor writes, in either build. -/
theorem checked_proceeds {P : σ → Prop} {s : σ} (h : P s) (build : Build) (fits : Prop)
    [Decidable fits] (a b : α) (why : Abort) : ((if fits then pure a else match build with
      | .debug => abort why
      | .release => pure b : Method ε σ α) s).Proceeds fun _ => P := by
  split
  · exact h
  · cases build with
    | debug => trivial
    | release => exact h

theorem usizeResult_proceeds {P : σ → Prop} {s : σ} (h : P s) (build : Build) (why : Abort) (x : Int) :
    ((usizeResult build why x : Method ε σ Nat) s).Proceeds fun _ => P := checked_proceeds h ..

theorem addU32In_proceeds {P : σ → Prop} {s : σ} (h : P s) (build : Build) (a b : Nat) :
    ((addU32In build a b : Method ε σ Nat) s).Proceeds fun _ => P := checked_proceeds h ..

theorem subU32In_proceeds {P : σ → Prop} {s : σ} (h : P s) (build : Build) (a b : Nat) :
    ((subU32In build a b : Method ε σ Nat) s).Proceeds fun _ => P := checked_proceeds h ..

/-- The aborts of overflow checks. -/
def Overflows : Outcome ε σ α → Prop
  | .abort .addOverflow | .abort .mulOverflow | .abort .subOverflow => True
  | _ => False

/-- `m'` is `m` without overflow checks: where these do not abort `m`, `m'` does the same. -/
def Unchecked (m m' : Method ε σ α) : Prop := ∀ s, Overflows (m s) ∨ m' s = m s

namespace Unchecked

variable {m m' : Method ε σ α}

theorem refl (m : Method ε σ α) : Unchecked m m := fun _ => .inr rfl

theorem bind (hm : Unchecked m m') {f f' : α → Method ε σ β} (hf : ∀ a, Unchecked (f a) (f' a)) :
    Unchecked (m >>= f) (m' >>= f') := by
  intro s
  rw [bind_run, bind_run]
  rcases hm s with hover | heq
  · left
    revert hover
    cases m s with
    | abort why => cases why <;> exact id
    | _ => exact False.elim
  · rw [heq]
    cases m s with
    | ok a t => exact hf a t
    | _ => exact .inr rfl

theorem after {f f' : α → Method ε σ β} (hf : ∀ a, Unchecked (f a) (f' a)) :
    Unchecked (m >>= f) (m >>= f') := (refl m).bind hf

theorem before (hm : Unchecked m m') {f : α → Method ε σ β} :
    Unchecked (m >>= f) (m' >>= f) := hm.bind fun a => .refl (f a)

theorem otherwise {P : Prop} [Decidable P] {k k' : Method ε σ α} (hk : Unchecked k k') :
    Unchecked (if P then m else k) (if P then m else k') := by
  split
  · exact .refl m
  · exact hk

theorem attempt (hm : Unchecked m m') : Unchecked (attempt m) (attempt m') := by
  intro s
  unfold Method.attempt
  rcases hm s with hover | heq
  · left
    revert hover
    cases m s with
    | abort why => cases why <;> exact id
    | _ => exact False.elim
  · exact .inr (by rw [heq])

theorem forM {f f' : α → Method ε σ PUnit} (hf : ∀ a, Unchecked (f a) (f' a)) (l : List α) :
    Unchecked (l.forM f) (l.forM f') := by
  induction l with
  | nil => exact .refl _
  | cons a l ih => exact (hf a).bind fun _ => ih

theorem addUsizeIn (a b : Nat) :
    Unchecked (addUsizeIn .debug a b : Method ε σ Nat) (addUsizeIn .release a b) :=
  .otherwise fun _ => .inl trivial

theorem mulUsizeIn (a b : Nat) :
    Unchecked (mulUsizeIn .debug a b : Method ε σ Nat) (mulUsizeIn .release a b) :=
  .otherwise fun _ => .inl trivial

theorem addU32In (a b : Nat) :
    Unchecked (addU32In .debug a b : Method ε σ Nat) (addU32In .release a b) :=
  .otherwise fun _ => .inl trivial

theorem subU32In (a b : Nat) :
    Unchecked (subU32In .debug a b : Method ε σ Nat) (subU32In .release a b) :=
  .otherwise fun _ => .inl trivial

end Unchecked

/-- The call overflows nothing without the checks: with them, these would not abort it. -/
def Fits (build : Build) (m : Build → Method ε σ α) (s : σ) : Prop :=
  build = .release → ¬ Overflows (m .debug s)

theorem fits_debug {m : Build → Method ε σ α} {s : σ} : Fits .debug m s := by
  intro h
  cases h

theorem Fits.checked {m : Build → Method ε σ α} {s : σ} (h : Fits build m s)
    (hm : Unchecked (m .debug) (m .release)) : m build s = m .debug s := by
  cases build with
  | debug => rfl
  | release => exact (hm s).resolve_left (h rfl)

/-! ## Words that hold an exact value -/

/-- An `isize` operation whose exact result is `x` does not abort. -/
def FitsIsize (build : Build) (x : Int) : Prop := build = .release ∨ IsI64 x

/-- A `usize` operation whose exact result is `n` does not abort. -/
def FitsUsize (build : Build) (n : Nat) : Prop := build = .release ∨ n < 2 ^ 64

theorem asIsize_emod (x : Int) : asIsize x % 2 ^ 64 = x % 2 ^ 64 := Int.bmod_emod

variable (hx : FitsIsize build x)

include hx

theorem asIsize_eq_of_debug (h : build = .debug) : asIsize x = x := by
  rcases hx with hx | hx
  · rw [h] at hx
    cases hx
  · exact asIsize_of_isI64 hx

/-- An operation on words that returns the word of the exact result. -/
theorem i64Result_eq (hy : build = .debug → y = x) (hmod : y % 2 ^ 64 = x % 2 ^ 64) :
    (i64Result build why y : Method ε σ Int) = pure (asIsize x) := by
  have hbmod : asIsize y = asIsize x := by
    apply Int.bmod_eq_bmod_iff_bmod_sub_eq_zero.mpr
    rw [Int.bmod_eq_iff (by decide)]
    omega
  unfold i64Result
  split
  · rename_i hfits
    rw [← hbmod, asIsize_of_isI64 hfits]
  · rename_i hfits
    rcases hx with rfl | hx
    · exact congrArg pure hbmod
    · cases build with
      | debug => exact absurd (hy rfl ▸ hx) hfits
      | release => exact congrArg pure hbmod

theorem addI64_eq (hxy : FitsIsize build (x + y)) :
    (addI64 build (asIsize x) y : Method ε σ Int) = pure (asIsize (x + y)) := by
  refine i64Result_eq hxy (fun h => by rw [asIsize_eq_of_debug hx h]) ?_
  have := asIsize_emod x
  omega

theorem subI64_eq (hy : FitsIsize build y) (hxy : FitsIsize build (x - y)) :
    (subI64 build (asIsize x) (asIsize y) : Method ε σ Int) = pure (asIsize (x - y)) := by
  refine i64Result_eq hxy
    (fun h => by rw [asIsize_eq_of_debug hx h, asIsize_eq_of_debug hy h]) ?_
  have := asIsize_emod x
  have := asIsize_emod y
  omega

/-- The second factor may be a word that was cast. -/
theorem mulI64_asIsize (hy : FitsIsize build y) (hxy : FitsIsize build (x * y)) :
    (mulI64 build (asIsize x) (asIsize y) : Method ε σ Int) = pure (asIsize (x * y)) := by
  refine i64Result_eq hxy
    (fun h => by rw [asIsize_eq_of_debug hx h, asIsize_eq_of_debug hy h]) ?_
  rw [Int.mul_emod, asIsize_emod, asIsize_emod, ← Int.mul_emod]

theorem mulI64_eq (hxy : FitsIsize build (x * y)) :
    (mulI64 build (asIsize x) y : Method ε σ Int) = pure (asIsize (x * y)) := by
  refine i64Result_eq hxy (fun h => by rw [asIsize_eq_of_debug hx h]) ?_
  rw [Int.mul_emod, asIsize_emod, ← Int.mul_emod]

omit hx

theorem subUsizeIn_one_eq {n : Nat} (hn : 0 < n) (h : FitsUsize build n) :
    (subUsizeIn build (asUsize n) 1 : Method ε σ Nat) = pure (asUsize (n - 1 : Nat)) := by
  rw [asUsize_natCast, asUsize_natCast]
  unfold subUsizeIn usizeResult
  split
  · exact congrArg pure (by omega)
  · cases build with
    | release => exact congrArg pure (by omega)
    | debug =>
      have : n < 2 ^ 64 := h.resolve_left (by decide)
      omega

theorem mulUsizeIn_eq (ha : FitsUsize build a) (hab : FitsUsize build (a * b)) :
    (mulUsizeIn build (asUsize a) b : Method ε σ Nat) = pure (asUsize (a * b : Nat)) := by
  rw [asUsize_natCast, asUsize_natCast]
  unfold mulUsizeIn usizeResult
  split
  · rename_i hfits
    have : a % 2 ^ 64 * b < 2 ^ 64 := by exact_mod_cast hfits.2
    rw [Int.toNat_natCast, ← Nat.mod_mul_mod, Nat.mod_eq_of_lt this]
  rename_i hfits
  cases build with
  | release =>
    have : (((a % 2 ^ 64 * b : Nat) : Int) % 2 ^ 64).toNat = a % 2 ^ 64 * b % 2 ^ 64 := by omega
    rw [this, Nat.mod_mul_mod]
  | debug =>
    have ha : a < 2 ^ 64 := ha.resolve_left (by decide)
    have hab : a * b < 2 ^ 64 := hab.resolve_left (by decide)
    refine absurd ⟨Int.natCast_nonneg _, ?_⟩ hfits
    rw [Nat.mod_eq_of_lt ha]
    exact_mod_cast hab

end Method

end Fuel
