import Fuel.Jit.ShapeCodec

/-!
# Evaluation of dimension expressions in machine integers

A debug build aborts where an `i64` operation overflows, a release build wraps,
and the division inside `floordiv` aborts on `i64::MIN / -1` in both. The
evaluator is compared with the value of the expression over the integers.
-/

namespace Fuel.Jit

open Method List

/-! ## Over the integers -/

/-- The extent an expression refers to. -/
def extentOf (operands : List (List Int)) (operand axis : UInt8) : Option Int :=
  (operands[operand.toNat]?).bind fun shape =>
    match resolveAxis axis shape.length with
    | .ok idx => shape[idx]?
    | .error _ => none

/-- The value of an expression over the unbounded integers, with floor division. -/
def Dim.value (operands : List (List Int)) (params : List Int) : Dim → Option Int
  | .extent operand axis => (extentOf operands operand axis).filter (· ≠ symbolic)
  | .const c => some c
  | .param field => params[field.toNat]?
  | .add a b => do some ((← a.value operands params) + (← b.value operands params))
  | .sub a b => do some ((← a.value operands params) - (← b.value operands params))
  | .mul a b => do some ((← a.value operands params) * (← b.value operands params))
  | .div a b => do
    let x ← a.value operands params
    let y ← b.value operands params
    if y = 0 then none else some (x.fdiv y)

/-- The expression reads an extent that is only known at run time. -/
def Dim.ReadsSymbolic (operands : List (List Int)) : Dim → Prop
  | .extent operand axis => extentOf operands operand axis = some symbolic
  | .const _ | .param _ => False
  | .add a b | .sub a b | .mul a b | .div a b => a.ReadsSymbolic operands ∨ b.ReadsSymbolic operands

/-- The expression refers to nothing out of range and divides by no zero. -/
def Dim.Defined (operands : List (List Int)) (params : List Int) : Dim → Prop
  | .extent operand axis => (extentOf operands operand axis).isSome
  | .const _ => True
  | .param field => (params[field.toNat]?).isSome
  | .add a b | .sub a b | .mul a b => a.Defined operands params ∧ b.Defined operands params
  | .div a b => (a.Defined operands params ∧ b.Defined operands params) ∧
      ∀ x, a.value operands params = some x → b.value operands params ≠ some 0

/-- Every operation that is evaluated has a result that is an `i64`. The second operand is evaluated
if the first does not decline. -/
def Dim.Fits (operands : List (List Int)) (params : List Int) : Dim → Prop
  | .extent _ _ | .const _ | .param _ => True
  | .add a b => (a.Fits operands params ∧ (a.Defined operands params → b.Fits operands params)) ∧
      ∀ z, (Dim.add a b).value operands params = some z → IsI64 z
  | .sub a b => (a.Fits operands params ∧ (a.Defined operands params → b.Fits operands params)) ∧
      ∀ z, (Dim.sub a b).value operands params = some z → IsI64 z
  | .mul a b => (a.Fits operands params ∧ (a.Defined operands params → b.Fits operands params)) ∧
      ∀ z, (Dim.mul a b).value operands params = some z → IsI64 z
  | .div a b => (a.Fits operands params ∧ (a.Defined operands params → b.Fits operands params)) ∧
      ∀ z, (Dim.div a b).value operands params = some z → IsI64 z

/-- The integers of the expression, its operands and its parameters are `i64`. -/
structure AllI64 (operands : List (List Int)) (params : List Int) : Prop where
  extents : ∀ shape ∈ operands, ∀ x ∈ shape, IsI64 x
  params : ∀ x ∈ params, IsI64 x

def Dim.ConstsI64 : Dim → Prop
  | .const c => IsI64 c
  | .extent _ _ | .param _ => True
  | .add a b | .sub a b | .mul a b | .div a b => a.ConstsI64 ∧ b.ConstsI64

/-! ## Floor division -/

variable {a b : Int}

/-- Truncating division, corrected towards minus infinity. -/
theorem fdiv_eq_corrected (hb : b ≠ 0) :
    a.fdiv b = if a.tmod b ≠ 0 ∧ ¬ (a.tmod b < 0 ↔ b < 0) then a.tdiv b - 1 else a.tdiv b := by
  rw [Int.fdiv_eq_tdiv]
  by_cases hdvd : b ∣ a
  · rw [if_pos hdvd, if_neg (by simp [Int.tmod_eq_zero_of_dvd hdvd]), sub_zero]
  have hne : a.tmod b ≠ 0 := fun h => hdvd (Int.dvd_of_tmod_eq_zero h)
  have hsign : a.tmod b < 0 ↔ a < 0 := by
    constructor
    · intro h
      by_contra hge
      have := Int.tmod_nonneg b (not_lt.mp hge)
      omega
    · intro h
      have := Int.tmod_nonneg b (show 0 ≤ -a by omega)
      rw [Int.neg_tmod] at this
      omega
  rw [if_neg hdvd]
  rcases lt_or_gt_of_ne hb with hneg | hpos
  · rw [Int.sign_eq_neg_one_of_neg hneg]
    split_ifs <;> omega
  · rw [Int.sign_eq_one_of_pos hpos]
    split_ifs <;> omega

theorem isI64_tdiv_iff (ha : IsI64 a) (hb : b ≠ 0) : IsI64 (a.tdiv b) ↔ IsI64 (a.fdiv b) := by
  have htdiv := Int.natAbs_tdiv_le_natAbs a b
  have hfdiv := Int.natAbs_fdiv_le_natAbs a b
  have hcorr := fdiv_eq_corrected (a := a) hb
  unfold IsI64 at ha ⊢
  by_cases hout : a.tdiv b = 2 ^ 63
  · -- only `i64::MIN / -1` gets there
    have heq := Int.mul_tdiv_add_tmod a b
    have hlt : (a.tmod b).natAbs < b.natAbs := by
      rw [Int.natAbs_tmod]
      exact Nat.mod_lt _ (Int.natAbs_pos.mpr hb)
    rw [hout] at heq hcorr
    have hr : a.tmod b = 0 := by omega
    rw [hr, if_neg (by simp)] at hcorr
    rw [hout, hcorr]
  · split_ifs at hcorr <;> omega

/-- `floordiv` is floor division, and aborts where that overflows. -/
theorem floordiv_eq {build : Build} (ha : IsI64 a) (hb : b ≠ 0) :
    floordiv build a b = if IsI64 (a.fdiv b) then pure (a.fdiv b) else abort .divOverflow := by
  unfold floordiv divI64 remI64
  rw [if_neg hb, if_neg hb]
  by_cases h : IsI64 (a.fdiv b)
  · rw [if_pos ((isI64_tdiv_iff ha hb).mpr h), if_pos ((isI64_tdiv_iff ha hb).mpr h),
      if_pos h, pure_bind, pure_bind]
    have hcorr := fdiv_eq_corrected (a := a) hb
    split_ifs at hcorr ⊢
    · rw [hcorr, subI64, i64Result_of_fits (hcorr ▸ h)]
    · rw [hcorr]
  · rw [if_neg (mt (isI64_tdiv_iff ha hb).mp h), if_neg h]
    rfl

/-! ## What an evaluation returns -/

section Evaluation

variable {operands : List (List Int)} {params : List Int} {build : Build}

/-- The outcome that the value over the integers gives. -/
inductive EvalsTo (operands : List (List Int)) (params : List Int) (d : Dim) :
    Outcome ShapeExprError Unit DimValue → Prop
  | gap : d.Defined operands params → d.ReadsSymbolic operands → d.value operands params = none →
      EvalsTo operands params d (.ok .gap ())
  | concrete {v : Int} : d.Defined operands params → ¬ d.ReadsSymbolic operands →
      d.value operands params = some v → IsI64 v → EvalsTo operands params d (.ok (.concrete v) ())
  | declined (e : ShapeExprError) : ¬ d.Defined operands params → d.value operands params = none →
      EvalsTo operands params d (.err e ())

/-- What the operation of a binary node does on two values, in terms of the node's value. -/
structure OpMeets (operands : List (List Int)) (params : List Int) (a b d : Dim)
    (exact : Int → Int → Option Int) (f : Int → Int → Fallible Int) : Prop where
  value : d.value operands params =
    (a.value operands params).bind fun x => (b.value operands params).bind fun y => exact x y
  defined : d.Defined operands params ↔
    (a.Defined operands params ∧ b.Defined operands params) ∧ ∀ x y, a.value operands params = some x →
      b.value operands params = some y → (exact x y).isSome
  symbolic : d.ReadsSymbolic operands ↔ a.ReadsSymbolic operands ∨ b.ReadsSymbolic operands
  fits : ∀ x y z, IsI64 x → exact x y = some z → IsI64 z → f x y () = .ok z ()
  declines : ∀ x y, exact x y = none → ∃ e, f x y () = .err e ()

variable {a b d : Dim}

theorem EvalsTo.binary {exact : Int → Int → Option Int} {f : Int → Int → Fallible Int}
    {ra rb : Fallible DimValue} (hop : OpMeets operands params a b d exact f)
    (ha : EvalsTo operands params a (ra ()))
    (hb : a.Defined operands params → EvalsTo operands params b (rb ()))
    (hfits : ∀ z, d.value operands params = some z → IsI64 z) :
    EvalsTo operands params d ((ra >>= fun x => rb >>= fun y => evalBinary x y f) ()) := by
  rw [bind_run]
  generalize ra () = oa at ha
  cases ha with
  | declined e hundef hval =>
    refine .declined e (fun h => hundef (hop.defined.mp h).1.1) ?_
    rw [hop.value, hval]
    rfl
  | gap hdef hsym hval =>
    rw [Outcome.andThen_ok, bind_run]
    specialize hb hdef
    generalize rb () = ob at hb
    have hnone : d.value operands params = none := by rw [hop.value, hval]; rfl
    have hvac : ∀ x y, a.value operands params = some x → b.value operands params = some y →
        (exact x y).isSome := by
      intro x y hx
      rw [hval] at hx
      cases hx
    cases hb with
    | declined e hundef _ => exact .declined e (fun h => hundef (hop.defined.mp h).1.2) hnone
    | gap hdefb _ _ => exact .gap (hop.defined.mpr ⟨⟨hdef, hdefb⟩, hvac⟩) (hop.symbolic.mpr (.inl hsym)) hnone
    | concrete hdefb _ _ _ =>
      exact .gap (hop.defined.mpr ⟨⟨hdef, hdefb⟩, hvac⟩) (hop.symbolic.mpr (.inl hsym)) hnone
  | @concrete x hdef hsym hval hx =>
    rw [Outcome.andThen_ok, bind_run]
    specialize hb hdef
    generalize rb () = ob at hb
    cases hb with
    | declined e hundef hvalb =>
      refine .declined e (fun h => hundef (hop.defined.mp h).1.2) ?_
      rw [hop.value, hval, hvalb]
      rfl
    | gap hdefb hsymb hvalb =>
      refine .gap (hop.defined.mpr ⟨⟨hdef, hdefb⟩, ?_⟩) (hop.symbolic.mpr (.inr hsymb)) ?_
      · intro x y _ hy
        rw [hvalb] at hy
        cases hy
      · rw [hop.value, hval, hvalb]
        rfl
    | @concrete y hdefb hsymb hvalb hy =>
      have hvalue : d.value operands params = exact x y := by
        rw [hop.value, hval, hvalb]
        rfl
      rw [Outcome.andThen_ok]
      cases hexact : exact x y with
      | none =>
        obtain ⟨e, he⟩ := hop.declines x y hexact
        have hrun : evalBinary (.concrete x) (.concrete y) f () = .err e () := by
          show (f x y ()).andThen _ = _
          rw [he]
          rfl
        rw [hrun]
        refine .declined e (fun h => ?_) (hvalue.trans hexact)
        have := (hop.defined.mp h).2 x y hval hvalb
        rw [hexact] at this
        cases this
      | some z =>
        have hz : IsI64 z := hfits z (hvalue.trans hexact)
        have hrun : evalBinary (.concrete x) (.concrete y) f () = .ok (.concrete z) () := by
          show (f x y ()).andThen _ = _
          rw [hop.fits x y z hx hexact hz]
          rfl
        rw [hrun]
        refine .concrete (hop.defined.mpr ⟨⟨hdef, hdefb⟩, ?_⟩) ?_ (hvalue.trans hexact) hz
        · intro x' y' hx' hy'
          rw [hval] at hx'
          rw [hvalb] at hy'
          cases hx'
          cases hy'
          rw [hexact]
          rfl
        · rw [hop.symbolic]
          exact not_or.mpr ⟨hsym, hsymb⟩

theorem opMeets_arith (build : Build) (why : Abort) (g : Int → Int → Int)
    (hvalue : d.value operands params = (a.value operands params).bind fun x =>
      (b.value operands params).bind fun y => some (g x y))
    (hdef : d.Defined operands params ↔ a.Defined operands params ∧ b.Defined operands params)
    (hsym : d.ReadsSymbolic operands ↔ a.ReadsSymbolic operands ∨ b.ReadsSymbolic operands) :
    OpMeets operands params a b d (fun x y => some (g x y)) fun x y =>
      i64Result build why (g x y) where
  value := hvalue
  defined := hdef.trans ⟨fun h => ⟨h, fun _ _ _ _ => rfl⟩, fun h => h.1⟩
  symbolic := hsym
  fits := by
    intro x y z _ hz hfit
    cases hz
    rw [i64Result_of_fits hfit]
    rfl
  declines := by
    intro x y h
    cases h

theorem opMeets_add (build : Build) (a b : Dim) :
    OpMeets operands params a b (.add a b) (fun x y => some (x + y)) (addI64 build) :=
  opMeets_arith build .addOverflow (· + ·) rfl Iff.rfl Iff.rfl

theorem opMeets_sub (build : Build) (a b : Dim) :
    OpMeets operands params a b (.sub a b) (fun x y => some (x - y)) (subI64 build) :=
  opMeets_arith build .subOverflow (· - ·) rfl Iff.rfl Iff.rfl

theorem opMeets_mul (build : Build) (a b : Dim) :
    OpMeets operands params a b (.mul a b) (fun x y => some (x * y)) (mulI64 build) :=
  opMeets_arith build .mulOverflow (· * ·) rfl Iff.rfl Iff.rfl

theorem opMeets_div (build : Build) (a b : Dim) :
    OpMeets operands params a b (.div a b) (fun x y => if y = 0 then none else some (x.fdiv y))
      (divDim build) where
  value := rfl
  defined := by
    refine and_congr_right fun _ => ⟨fun h x y hx hy => ?_, fun h x hx hb => ?_⟩
    · rw [if_neg]
      · rfl
      · rintro rfl
        exact h x hx hy
    · exact absurd (h x 0 hx hb) (by simp)
  symbolic := Iff.rfl
  fits := by
    intro x y z hx hz hfit
    split_ifs at hz with hy
    cases hz
    rw [divDim, if_neg hy, floordiv_eq hx hy, if_pos hfit]
    rfl
  declines := by
    intro x y h
    split_ifs at h with hy
    exact ⟨.divideByZero, by rw [divDim, if_pos hy]; rfl⟩

theorem resolveAxis_lt {axis : UInt8} {rank idx : Nat} (h : resolveAxis axis rank = .ok idx) :
    idx < rank := by
  unfold resolveAxis at h
  split_ifs at h <;> cases h <;> omega

/-- **Evaluation follows the integers**, in either build, where no result overflows. -/
theorem evalsTo_of_fits (h64 : AllI64 operands params) (hc : d.ConstsI64)
    (h : d.Fits operands params) :
    EvalsTo operands params d (evalDim build operands params d ()) := by
  induction d with
  | extent operand axis =>
    unfold evalDim
    rw [bind_run]
    cases hshape : operands[operand.toNat]? with
    | none =>
      refine .declined _ ?_ ?_
      · simp [Dim.Defined, extentOf, hshape]
      · simp [Dim.value, extentOf, hshape]
    | some shape =>
      rw [okOr_some, pure_run, Outcome.andThen_ok, bind_run]
      cases hidx : resolveAxis axis shape.length with
      | error e =>
        refine .declined e ?_ ?_
        · simp [Dim.Defined, extentOf, hshape, hidx]
        · simp [Dim.value, extentOf, hshape, hidx]
      | ok idx =>
        have hlt := resolveAxis_lt hidx
        have hext : extentOf operands operand axis = some shape[idx] := by
          simp [extentOf, hshape, hidx, hlt]
        show EvalsTo operands params _ ((index shape idx >>= _) ())
        rw [index_of_lt hlt, pure_bind]
        by_cases hsym : shape[idx] = symbolic
        · rw [if_pos hsym]
          refine .gap ?_ ?_ ?_
          · simp [Dim.Defined, hext]
          · simp [Dim.ReadsSymbolic, hext, hsym]
          · simp [Dim.value, hext, hsym]
        · rw [if_neg hsym]
          refine .concrete ?_ ?_ ?_ ?_
          · simp [Dim.Defined, hext]
          · simp [Dim.ReadsSymbolic, hext, hsym]
          · simp [Dim.value, hext, hsym]
          · exact h64.extents shape (mem_of_getElem? hshape) _ (getElem_mem hlt)
  | const c => exact .concrete trivial (fun h => h) rfl hc
  | param field =>
    unfold evalDim
    rw [bind_run]
    cases hv : params[field.toNat]? with
    | none => exact .declined _ (by simp [Dim.Defined, hv]) hv
    | some v =>
      exact .concrete (by simp [Dim.Defined, hv]) (fun h => h) hv
        (h64.params v (mem_of_getElem? hv))
  | add a b iha ihb =>
    exact (iha hc.1 h.1.1).binary (opMeets_add build a b) (fun hdef => ihb hc.2 (h.1.2 hdef)) h.2
  | sub a b iha ihb =>
    exact (iha hc.1 h.1.1).binary (opMeets_sub build a b) (fun hdef => ihb hc.2 (h.1.2 hdef)) h.2
  | mul a b iha ihb =>
    exact (iha hc.1 h.1.1).binary (opMeets_mul build a b) (fun hdef => ihb hc.2 (h.1.2 hdef)) h.2
  | div a b iha ihb =>
    exact (iha hc.1 h.1.1).binary (opMeets_div build a b) (fun hdef => ihb hc.2 (h.1.2 hdef)) h.2

/-- A node that a debug build evaluates has operands that fit, and a value that does. -/
theorem fits_of_returned {exact : Int → Int → Option Int} {f : Int → Int → Fallible Int}
    {ra rb : Fallible DimValue} (hop : OpMeets operands params a b d exact f)
    (hover : ∀ x y z, IsI64 x → exact x y = some z → ¬ IsI64 z → ¬ Returned (f x y ()))
    (ha : Returned (ra ()) → a.Fits operands params ∧ EvalsTo operands params a (ra ()))
    (hb : Returned (rb ()) → b.Fits operands params ∧ EvalsTo operands params b (rb ()))
    (h : Returned ((ra >>= fun x => rb >>= fun y => evalBinary x y f) ())) :
    (a.Fits operands params ∧ (a.Defined operands params → b.Fits operands params)) ∧
      ∀ z, d.value operands params = some z → IsI64 z := by
  obtain ⟨hra, hrest⟩ := h.of_bind
  obtain ⟨hfa, ha⟩ := ha hra
  have hsecond : a.Defined operands params →
      b.Fits operands params ∧ EvalsTo operands params b (rb ()) := by
    intro hdef
    generalize hoa : ra () = oa at ha
    cases ha with
    | declined e hundef _ => exact absurd hdef hundef
    | gap _ _ _ => exact hb (hrest _ _ hoa).of_bind.1
    | concrete _ _ _ _ => exact hb (hrest _ _ hoa).of_bind.1
  refine ⟨⟨hfa, fun hdef => (hsecond hdef).1⟩, fun z hz => ?_⟩
  by_contra hover'
  -- both operands have values, so the operation ran on them
  rw [hop.value] at hz
  obtain ⟨x, hx, hz⟩ := Option.bind_eq_some_iff.mp hz
  obtain ⟨y, hy, hz⟩ := Option.bind_eq_some_iff.mp hz
  generalize hoa : ra () = oa at ha
  cases ha with
  | declined e _ hnone =>
    rw [hx] at hnone
    cases hnone
  | gap _ _ hnone =>
    rw [hx] at hnone
    cases hnone
  | @concrete x' hdef _ hval hx' =>
    obtain rfl : x = x' := Option.mem_unique hx hval
    have hrb := (hrest _ _ hoa).of_bind
    have heb := (hsecond hdef).2
    generalize hob : rb () = ob at heb
    cases heb with
    | declined e _ hnone =>
      rw [hy] at hnone
      cases hnone
    | gap _ _ hnone =>
      rw [hy] at hnone
      cases hnone
    | @concrete y' _ _ hvalb _ =>
      obtain rfl : y = y' := Option.mem_unique hy hvalb
      exact hover x y z hx' hz hover' (hrb.2 _ _ hob).of_bind.1

theorem not_returned_i64Result {why : Abort} {z : Int} (h : ¬ IsI64 z) :
    ¬ Returned ((i64Result .debug why z : Fallible Int) ()) := by
  rw [i64Result_of_not_fits h]
  exact fun hret => hret

/-- A debug build returns only where every result fits. -/
theorem fits_of_debug (h64 : AllI64 operands params) (hc : d.ConstsI64)
    (h : Returned (evalDim .debug operands params d ())) : d.Fits operands params := by
  -- with the operands' results known to be right, as `fits_of_returned` asks for
  have hboth : ∀ c : Dim, c.ConstsI64 →
      (Returned (evalDim .debug operands params c ()) → c.Fits operands params) →
      Returned (evalDim .debug operands params c ()) → c.Fits operands params ∧
        EvalsTo operands params c (evalDim .debug operands params c ()) :=
    fun c hcc hfits hret => ⟨hfits hret, evalsTo_of_fits h64 hcc (hfits hret)⟩
  induction d with
  | extent operand axis => trivial
  | const c => trivial
  | param field => trivial
  | add a b iha ihb =>
    refine fits_of_returned (opMeets_add .debug a b) ?_ (hboth a hc.1 (iha hc.1))
      (hboth b hc.2 (ihb hc.2)) h
    intro x y z _ hz hout
    cases hz
    exact not_returned_i64Result hout
  | sub a b iha ihb =>
    refine fits_of_returned (opMeets_sub .debug a b) ?_ (hboth a hc.1 (iha hc.1))
      (hboth b hc.2 (ihb hc.2)) h
    intro x y z _ hz hout
    cases hz
    exact not_returned_i64Result hout
  | mul a b iha ihb =>
    refine fits_of_returned (opMeets_mul .debug a b) ?_ (hboth a hc.1 (iha hc.1))
      (hboth b hc.2 (ihb hc.2)) h
    intro x y z _ hz hout
    cases hz
    exact not_returned_i64Result hout
  | div a b iha ihb =>
    refine fits_of_returned (opMeets_div .debug a b) ?_ (hboth a hc.1 (iha hc.1))
      (hboth b hc.2 (ihb hc.2)) h
    intro x y z hx hz hout
    split_ifs at hz with hy
    cases hz
    rw [divDim, if_neg hy, floordiv_eq hx hy, if_neg hout]
    exact fun hret => hret

/-- What is asked of an evaluation: it returns, a number is the value over the integers, and a gap
means that an extent was symbolic. -/
structure EvalMeets (build : Build) (operands : List (List Int)) (params : List Int) (d : Dim) :
    Prop where
  returns : Returned (evalDim build operands params d ())
  exact : ∀ v, evalDim build operands params d () = .ok (.concrete v) () →
    d.value operands params = some v
  gap : ∀ r, evalDim build operands params d () = .ok r () →
    (r = .gap ↔ d.ReadsSymbolic operands)

theorem EvalsTo.meets (h : EvalsTo operands params d (evalDim build operands params d ())) :
    EvalMeets build operands params d := by
  generalize ho : evalDim build operands params d () = o at h
  refine ⟨?_, ?_, ?_⟩ <;> rw [ho]
  · cases h <;> trivial
  · intro v hv
    cases hv
    cases h with
    | concrete _ _ hval _ => exact hval
  · intro r hr
    cases hr
    cases h with
    | gap _ hsym _ => exact iff_of_true rfl hsym
    | concrete _ hsym _ _ => exact iff_of_false (by simp) hsym

end Evaluation

/-- **Evaluation is exact and total where no operation overflows, and only there.** -/
theorem eval_dim_exact_iff {operands : List (List Int)} {params : List Int} {d : Dim}
    (h64 : AllI64 operands params) (hc : d.ConstsI64) :
    (∀ build, EvalMeets build operands params d) ↔ d.Fits operands params :=
  ⟨fun h => fits_of_debug h64 hc (h .debug).returns,
    fun h _ => (evalsTo_of_fits h64 hc h).meets⟩

/-- `(extent(0, 0) + 1) / param(0)`. -/
theorem half_of_next_is_exact :
    EvalMeets .debug [[7]] [-2] (.div (.add (.extent 0 0) (.const 1)) (.param 0)) := by
  have h64 : AllI64 [[7]] [-2] := ⟨by decide, by decide⟩
  have hc : (Dim.div (.add (.extent 0 0) (.const 1)) (.param 0)).ConstsI64 :=
    ⟨⟨trivial, show IsI64 1 by decide⟩, trivial⟩
  refine (eval_dim_exact_iff h64 hc).mpr ?_ .debug
  refine ⟨⟨⟨⟨trivial, fun _ => trivial⟩, ?_⟩, fun _ => trivial⟩, ?_⟩
  · rintro z hz
    cases hz
    decide
  · rintro z hz
    cases hz
    decide

/-- `i64::MAX + 1` aborts in a debug build and wraps in a release build; `i64::MIN / -1` aborts in
both. -/
theorem eval_dim_overflows :
    evalDim .debug [] [] (.add (.const (2 ^ 63 - 1)) (.const 1)) () = .abort .addOverflow ∧
    evalDim .release [] [] (.add (.const (2 ^ 63 - 1)) (.const 1)) () =
      .ok (.concrete (-2 ^ 63)) () ∧
    ∀ build, evalDim build [] [] (.div (.const (-2 ^ 63)) (.const (-1))) () =
      .abort .divOverflow := by
  refine ⟨by decide, by decide, fun build => ?_⟩
  cases build <;> decide

end Fuel.Jit
