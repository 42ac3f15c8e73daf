import Fuel.IR.Layout
import Fuel.Lib.Machine
import Fuel.Lib.Strided

/-!
# The strided walk

`StridedIndex` is the iterator that a kernel falls back on: an odometer over the
dimensions that adds strides to a running offset. Its offsets are `usize`, its
running offset is an `isize`; both wrap or abort as the build has it.

The walk is compared with the enumeration of all multi-indices in row-major
order, each at the exact offset its strides give it.
-/

namespace Fuel.IR

open Method Strided

/-- The offset of a multi-index, as an exact integer. -/
def Layout.address (l : Layout) (idx : List Nat) : Int := l.startOffset + dot idx l.stride

/-- The offsets of all multi-indices in row-major order. -/
def Layout.addresses (l : Layout) : List Int := (indices l.shape.dims).map l.address

structure StridedIndex where
  nextStorageIndex : Option Int
  multiIndex : List Nat
  dims : List Nat
  stride : List Int
  remaining : Nat
  deriving DecidableEq, Repr

namespace StridedIndex

variable {ε σ : Type} (build : Build)

/-- `dims.iter().product()`. -/
def product (dims : List Nat) : Method ε σ Nat :=
  dims.foldlM (mulUsizeIn build) 1

def new (dims : List Nat) (stride : List Int) (startOffset : Nat) :
    Method ε σ StridedIndex := do
  let elemCount ← product build dims
  pure {
    nextStorageIndex := if elemCount = 0 then none else some (asIsize startOffset)
    multiIndex := List.replicate dims.length 0
    dims := dims
    stride := stride
    remaining := elemCount }

def fromLayout (l : Layout) : Method ε σ StridedIndex :=
  new build l.shape.dims l.stride l.startOffset

/-- The loop of `next` over the axes from the last one on: an axis that can still
step ends it, one that cannot is reset. -/
def advance (build : Build) : List (Nat × Nat × Int) → Int →
    Method ε σ (List Nat × Int × Bool)
  | [], next => pure ([], next, false)
  | (i, d, s) :: axes, next => do
    let (is, next, updated) ← advance build axes next
    if updated then pure (i :: is, next, true)
    else do
      let nextI ← addUsizeIn build i 1
      if nextI < d then do
        let next ← addI64 build next s
        pure (nextI :: is, next, true)
      else do
        let back ← mulI64 build (asIsize i) s
        let next ← subI64 build next back
        pure (0 :: is, next, false)

def next : Method ε StridedIndex (Option Nat) := do
  let it ← get
  match it.nextStorageIndex with
  | none => pure none
  | some storageIndex => do
    let (is, nextStorageIndex, updated) ←
      advance build (it.multiIndex.zip (it.dims.zip it.stride)) storageIndex
    let remaining ← subUsizeIn build it.remaining 1
    set { it with
      nextStorageIndex := if updated then some nextStorageIndex else none
      multiIndex := is ++ it.multiIndex.drop is.length
      remaining := remaining }
    pure (some (asUsize storageIndex))

/-- The iterator yields the offsets `os` and then ends; `Q` holds of it before each
call, with the number of offsets to come. -/
inductive Walk (build : Build) (Q : StridedIndex → Nat → Prop) : StridedIndex → List Nat → Prop
  | done {it : StridedIndex} :
      (next build : Method Empty StridedIndex (Option Nat)) it = .ok none it →
      Q it 0 → Walk build Q it []
  | step {it it' : StridedIndex} {o : Nat} {os : List Nat} :
      (next build : Method Empty StridedIndex (Option Nat)) it = .ok (some o) it' →
      Q it (os.length + 1) → Walk build Q it' os → Walk build Q it (o :: os)

theorem Walk.imp {build : Build} {Q Q' : StridedIndex → Nat → Prop} {it : StridedIndex}
    {os : List Nat} (h : Walk build Q it os)
    (hQ : ∀ it n, n ≤ os.length → Q it n → Q' it n) : Walk build Q' it os := by
  induction h with
  | done hnext h0 => exact .done hnext (hQ _ _ (Nat.le_refl _) h0)
  | step hnext hq _ ih =>
    refine .step hnext (hQ _ _ (Nat.le_refl _) hq) (ih ?_)
    intro it n hn
    exact hQ it n (Nat.le_succ_of_le hn)

theorem Walk.holds {build : Build} {Q : StridedIndex → Nat → Prop} {it : StridedIndex}
    {os : List Nat} (h : Walk build Q it os) : Q it os.length := by
  cases h with
  | done _ h0 => exact h0
  | step _ hq _ => exact hq

/-! ## The odometer's arithmetic -/

/-- The walk over these axes from `base` does not overflow: in a checked build all
its offsets are addresses. -/
structure Safe (build : Build) (base : Int) (dims : List Nat) (stride : List Int) : Prop where
  rank : stride.length = dims.length
  words : ∀ d ∈ dims, d < 2 ^ 64
  small : build = .debug → ∀ d ∈ dims, d ≤ 2 ^ 63
  address : build = .debug → ∀ idx, Within dims idx →
    0 ≤ base + dot idx stride ∧ base + dot idx stride < 2 ^ 63

variable {build : Build} {base : Int} {dims idx : List Nat} {stride : List Int} {ε σ : Type}

theorem Safe.fits (h : Safe build base dims stride) (hidx : Within dims idx) :
    FitsIsize build (base + dot idx stride) := by
  cases build with
  | release => exact .inl rfl
  | debug =>
    obtain ⟨h0, hlt⟩ := h.address rfl idx hidx
    exact .inr ⟨by omega, hlt⟩

/-- The axes behind the first one, with its component fixed. -/
theorem Safe.tail {d i : Nat} {s : Int} (h : Safe build base (d :: dims) (s :: stride))
    (hi : i < d) : Safe build (base + i * s) dims stride where
  rank := by simpa using h.rank
  words e he := h.words e (by simp [he])
  small hb e he := h.small hb e (by simp [he])
  address hb js hjs := by
    have := h.address hb (i :: js) (within_cons.mpr ⟨hi, hjs⟩)
    rwa [dot_cons, ← add_assoc] at this

/-- The way back along the first axis is the difference of two offsets. -/
theorem Safe.fits_back {d i : Nat} {s : Int} (h : Safe build base (d :: dims) (s :: stride))
    (hi : i < d) (hpos : ∀ e ∈ dims, 0 < e) : FitsIsize build (i * s) := by
  cases build with
  | release => exact .inl rfl
  | debug =>
    have hto := h.address rfl (i :: Strided.origin dims) (within_cons.mpr ⟨hi, within_origin hpos⟩)
    have hfrom := h.address rfl (0 :: Strided.origin dims)
      (within_cons.mpr ⟨by omega, within_origin hpos⟩)
    rw [dot_cons, dot_origin, add_zero] at hto hfrom
    rw [Nat.cast_zero, zero_mul, add_zero] at hfrom
    exact .inr ⟨by omega, by omega⟩

/-- One turn of the odometer. -/
theorem advance_eq (h : Safe build base dims stride) (hidx : Within dims idx) :
    (advance build (idx.zip (dims.zip stride)) (asIsize (base + dot idx stride)) :
      Method ε σ (List Nat × Int × Bool)) =
    pure (match next? dims idx with
      | some js => (js, asIsize (base + dot js stride), true)
      | none => (Strided.origin dims, asIsize base, false)) := by
  induction hidx generalizing base stride with
  | nil => simp [advance, next?, Strided.origin]
  | @cons i d idx dims hi hrest ih =>
    obtain ⟨s, stride, rfl⟩ : ∃ s stride', stride = s :: stride' := by
      cases stride with
      | nil => exact absurd h.rank (by simp)
      | cons s stride => exact ⟨s, stride, rfl⟩
    have hpos : ∀ e ∈ dims, 0 < e := Within.pos hrest
    have htail := h.tail hi
    rw [List.zip_cons_cons, List.zip_cons_cons, dot_cons, ← add_assoc, advance, ih htail, pure_bind]
    cases hn : next? dims idx with
    | some js => simp [next?, hn, add_assoc]
    | none =>
      have hd := h.words d (by simp)
      have hnow : FitsIsize build (base + i * s) := by
        simpa using htail.fits (within_origin hpos)
      dsimp only
      rw [if_neg (by decide), addUsizeIn_of_lt (by omega), pure_bind]
      by_cases hlt : i + 1 < d
      · have hstep : base + i * s + s = base + dot ((i + 1) :: Strided.origin dims) (s :: stride) := by
          rw [dot_cons, dot_origin]
          push_cast
          ring
        have hnext : FitsIsize build (base + i * s + s) := by
          rw [hstep]
          exact h.fits (within_cons.mpr ⟨hlt, within_origin hpos⟩)
        rw [if_pos hlt, addI64_eq hnow hnext, pure_bind, hstep]
        simp [next?, hn, hlt]
      · have hi63 : FitsIsize build (i : Int) := by
          cases build with
          | release => exact .inl rfl
          | debug =>
            have := h.small rfl d (by simp)
            exact .inr ⟨by omega, by omega⟩
        have hbase : base + i * s - i * s = base := by ring
        have hzero : FitsIsize build (base + i * s - i * s) := by
          rw [hbase]
          simpa using h.fits (within_cons.mpr ⟨Nat.zero_lt_of_lt hi, within_origin hpos⟩)
        rw [if_neg hlt, mulI64_eq hi63 (h.fits_back hi hpos), pure_bind,
          subI64_eq hnow (h.fits_back hi hpos) hzero, pure_bind, hbase]
        simp [next?, hn, hlt, Strided.origin, List.replicate_succ]

/-! ## The whole walk -/

/-- The iterator at a multi-index. -/
def standing (base : Int) (dims : List Nat) (stride : List Int) (idx : List Nat) :
    StridedIndex where
  nextStorageIndex := some (asIsize (base + dot idx stride))
  multiIndex := idx
  dims := dims
  stride := stride
  remaining := asUsize (upFrom dims idx).length

theorem next_of_none {it : StridedIndex} (h : it.nextStorageIndex = none) :
    (next build : Method Empty StridedIndex (Option Nat)) it = .ok none it := by
  simp [next, h]

/-- Where the iterator goes from a multi-index. -/
theorem next_standing (h : Safe build base dims stride) (hidx : Within dims idx)
    (hcount : FitsUsize build (upFrom dims idx).length) :
    ∃ it, (next build : Method Empty StridedIndex (Option Nat)) (standing base dims stride idx) =
        .ok (some (asUsize (base + dot idx stride))) it ∧
      match next? dims idx with
      | some js => it = standing base dims stride js
      | none => it.nextStorageIndex = none ∧ it.remaining = 0 := by
  have hup := upFrom_eq hidx
  have hpos : 0 < (upFrom dims idx).length := by
    rw [hup]
    exact Nat.succ_pos _
  simp only [next, bind_run, get_run, Outcome.andThen_ok, standing, advance_eq h hidx,
    subUsizeIn_one_eq hpos hcount, pure_run, set_run, asUsize_asIsize]
  refine ⟨_, rfl, ?_⟩
  have hrest : (upFrom dims idx).length - 1 =
      (((next? dims idx).map (upFrom dims)).getD []).length := by
    rw [hup, List.length_cons, Nat.add_sub_cancel]
  cases hn : next? dims idx with
  | some js =>
    have hjs := next?_within hidx hn
    have hdrop : idx.drop js.length = [] := by
      rw [List.drop_eq_nil_iff, hjs.length_eq, hidx.length_eq]
    rw [hn] at hrest
    simp [hdrop, hrest]
  | none =>
    rw [hn] at hrest
    simp [hrest, asUsize]

theorem walk_standing (h : Safe build base dims stride) (hidx : Within dims idx)
    (hcount : FitsUsize build (upFrom dims idx).length) :
    Walk build (fun it n => it.remaining = asUsize n) (standing base dims stride idx)
      ((upFrom dims idx).map fun js => asUsize (base + dot js stride)) := by
  -- the induction is on the number of offsets to come
  induction hlen : (upFrom dims idx).length generalizing idx with
  | zero => simp [upFrom_eq hidx] at hlen
  | succ n ih =>
    obtain ⟨it, hnext, hit⟩ := next_standing h hidx hcount
    have hup := upFrom_eq hidx
    cases hn : next? dims idx with
    | none =>
      rw [hn] at hup hit
      rw [hup]
      refine .step hnext ?_ (.done ?_ (by simpa [asUsize] using hit.2))
      · simp [standing, hup]
      · exact next_of_none hit.1
    | some js =>
      rw [hn] at hup hit
      subst hit
      have hlen' : (upFrom dims js).length = n := by
        rw [hup] at hlen
        simpa using hlen
      have hcount' : FitsUsize build (upFrom dims js).length := by
        rw [hlen] at hcount
        rw [hlen']
        exact hcount.imp_right fun hlt => by omega
      rw [hup]
      refine .step hnext ?_ (ih (next?_within hidx hn) hcount' hlen')
      simp [standing, hup]

/-! ## Starting -/

theorem foldlM_mulUsizeIn {a : Nat} (h : ∀ p, p <+: dims → FitsUsize build (a * p.prod)) :
    (dims.foldlM (mulUsizeIn build) (asUsize a) : Method ε σ Nat) =
      pure (asUsize (a * dims.prod : Nat)) := by
  induction dims generalizing a with
  | nil => simp
  | cons d dims ih =>
    have hnow : FitsUsize build a := by simpa using h [] List.nil_prefix
    have hnext : FitsUsize build (a * d) := by simpa using h [d] ⟨dims, rfl⟩
    have hrest : ∀ p, p <+: dims → FitsUsize build (a * d * p.prod) := by
      intro p hp
      rw [Nat.mul_assoc, ← List.prod_cons]
      exact h (d :: p) ((List.prefix_cons_inj d).mpr hp)
    rw [List.foldlM_cons, mulUsizeIn_eq hnow hnext, pure_bind, ih hrest, List.prod_cons,
      Nat.mul_assoc]

/-- The product is computed along its leading factors. -/
theorem product_eq (h : ∀ p, p <+: dims → FitsUsize build p.prod) :
    (product build dims : Method ε σ Nat) = pure (asUsize dims.prod) := by
  have hfold : (dims.foldlM (mulUsizeIn build) (asUsize (1 : Nat)) : Method ε σ Nat) =
      pure (asUsize (1 * dims.prod : Nat)) :=
    foldlM_mulUsizeIn fun p hp => by rw [Nat.one_mul]; exact h p hp
  rwa [Nat.one_mul] at hfold

/-- A new iterator walks its box, as long as the box has a number of elements. -/
theorem walk_new {start : Nat} (h : Safe build start dims stride)
    (hcount : ∀ p, p <+: dims → FitsUsize build p.prod) :
    ∃ it os, (new build dims stride start : Method ε σ StridedIndex) = pure it ∧
      Walk build (fun it n => it.remaining = asUsize n) it os ∧
      (dims.prod < 2 ^ 64 →
        os = (indices dims).map fun idx => asUsize (start + dot idx stride)) := by
  unfold new
  rw [product_eq hcount, pure_bind]
  by_cases hzero : asUsize dims.prod = 0
  · refine ⟨_, [], rfl, .done ?_ hzero, ?_⟩
    · exact next_of_none (if_pos hzero)
    · intro hlt
      rw [asUsize_natCast, Nat.mod_eq_of_lt hlt] at hzero
      rw [List.length_eq_zero_iff.mp ((length_indices dims).trans hzero), List.map_nil]
  have hpos : ∀ d ∈ dims, 0 < d := by
    intro d hd
    refine Nat.pos_of_ne_zero fun h0 => hzero ?_
    rw [List.prod_eq_zero (h0 ▸ hd)]
    rfl
  have hup := upFrom_origin hpos
  have hwalk := walk_standing h (within_origin hpos)
    (by rw [hup, length_indices]; exact hcount dims (List.prefix_refl _))
  rw [standing, hup, length_indices, dot_origin, add_zero] at hwalk
  refine ⟨_, _, rfl, ?_, fun _ => rfl⟩
  rw [if_neg hzero]
  exact hwalk

end StridedIndex

end Fuel.IR
