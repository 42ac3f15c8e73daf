import Mathlib.Algebra.Ring.Int.Defs
import Mathlib.Algebra.Ring.Nat
import Mathlib.Data.List.AList

/-!
# Methods on a mutable state

A method that takes its receiver by mutable reference and returns a
`Result` has three ways to end: it returns a value, it returns an error —
and whatever it had already written stays written —, or it aborts. `Method`
is that shape as a state-passing function, with the state kept in the error
arm so that "the call failed and changed nothing" is something to prove.

An abort carries its reason, so a theorem can say which reasons are
possible.
-/

namespace Fuel

/-- Why a call aborted instead of returning. -/
inductive Abort where
  | addOverflow
  | mulOverflow
  | subOverflow
  | divideByZero
  | divOverflow
  | indexOutOfBounds
  | expectFailed
  deriving DecidableEq, Repr

/-- How a call ends. The error arm keeps the state the call left behind. -/
inductive Outcome (ε σ α : Type) where
  | ok (a : α) (s : σ)
  | err (e : ε) (s : σ)
  | abort (why : Abort)
  deriving DecidableEq, Repr

namespace Outcome

variable {ε σ α β : Type}

/-- Sequencing: only a returned value goes on. -/
def andThen (o : Outcome ε σ α) (f : α → σ → Outcome ε σ β) : Outcome ε σ β :=
  match o with
  | ok a s => f a s
  | err e s => err e s
  | abort why => abort why

@[simp] theorem andThen_ok (a : α) (s : σ) (f : α → σ → Outcome ε σ β) :
    (ok a s : Outcome ε σ α).andThen f = f a s := rfl

@[simp] theorem andThen_err (e : ε) (s : σ) (f : α → σ → Outcome ε σ β) :
    (err e s : Outcome ε σ α).andThen f = err e s := rfl

@[simp] theorem andThen_abort (why : Abort) (f : α → σ → Outcome ε σ β) :
    (abort why : Outcome ε σ α).andThen f = abort why := rfl

/-- The call returned, with what `p` accepts. -/
def any (p : α → σ → Bool) : Outcome ε σ α → Bool
  | .ok a s => p a s
  | .err _ _ | .abort _ => false

theorem any_eq_true {o : Outcome ε σ α} {p : α → σ → Bool} :
    o.any p = true ↔ ∃ a s, o = .ok a s ∧ p a s = true := by
  cases o <;> simp [any]

end Outcome

/-- A method with receiver state `σ`, error type `ε` and result `α`. -/
def Method (ε σ α : Type) : Type := σ → Outcome ε σ α

namespace Method

variable {ε σ α β : Type}

instance : Monad (Method ε σ) where
  pure a := fun s => .ok a s
  bind m f := fun s => (m s).andThen f

@[simp] theorem pure_run (a : α) (s : σ) :
    (pure a : Method ε σ α) s = .ok a s := rfl

@[simp] theorem bind_run (m : Method ε σ α) (f : α → Method ε σ β) (s : σ) :
    (m >>= f) s = (m s).andThen fun a t => f a t := rfl

@[simp] theorem map_run (f : α → β) (m : Method ε σ α) (s : σ) :
    (f <$> m) s = (m s).andThen fun a t => .ok (f a) t := rfl

instance : LawfulMonad (Method ε σ) := by
  refine LawfulMonad.mk' _ ?_ (fun _ _ => rfl) ?_
  · intro α m
    funext s
    show (m s).andThen (fun a t => .ok a t) = m s
    cases m s <;> rfl
  · intro α β γ m f g
    funext s
    show ((m s).andThen f).andThen g = (m s).andThen fun a t => (f a t).andThen g
    cases m s <;> rfl

/-- The receiver, read. -/
def get : Method ε σ σ := fun s => .ok s s

/-- The receiver, overwritten. -/
def set (s : σ) : Method ε σ Unit := fun _ => .ok () s

/-- `return Err(e)`. -/
def fail (e : ε) : Method ε σ α := fun s => .err e s

/-- A panic. -/
def abort (why : Abort) : Method ε σ α := fun _ => .abort why

/-- `x.ok_or(e)?`. -/
def okOr (x : Option α) (e : ε) : Method ε σ α :=
  match x with
  | some a => pure a
  | none => fail e

/-- A `Result` that a pure function returned, with `?`. -/
def ofExcept (r : Except ε α) : Method ε σ α :=
  match r with
  | .ok a => pure a
  | .error e => fail e

/-- `x.expect(..)`, and indexing a map by a key. -/
def expect (x : Option α) : Method ε σ α :=
  match x with
  | some a => pure a
  | none => abort .expectFailed

/-- `match call { Ok(a) => .., Err(e) => .. }`: the callee's `Result` as a
value, its writes kept either way. -/
def attempt (m : Method ε σ α) : Method ε σ (Except ε α) := fun s =>
  match m s with
  | .ok a t => .ok (.ok a) t
  | .err e t => .ok (.error e) t
  | .abort why => .abort why

/-- `v[i]`: an element, or the bounds-check panic. -/
def index (v : List α) (i : Nat) : Method ε σ α :=
  match v[i]? with
  | some a => pure a
  | none => abort .indexOutOfBounds

/-- `v[a..b]`: the elements of a range, or the bounds-check panic. -/
def slice (v : List α) (a b : Nat) : Method ε σ (List α) :=
  if a ≤ b ∧ b ≤ v.length then pure ((v.drop a).take (b - a)) else abort .indexOutOfBounds

@[simp] theorem get_run (s : σ) : (get : Method ε σ σ) s = .ok s s := rfl

@[simp] theorem set_run (s t : σ) : (set t : Method ε σ Unit) s = .ok () t := rfl

@[simp] theorem fail_run (e : ε) (s : σ) :
    (fail e : Method ε σ α) s = .err e s := rfl

@[simp] theorem abort_run (why : Abort) (s : σ) :
    (abort why : Method ε σ α) s = .abort why := rfl

@[simp] theorem okOr_some (a : α) (e : ε) :
    (okOr (some a) e : Method ε σ α) = pure a := rfl

@[simp] theorem okOr_none (e : ε) :
    (okOr (none : Option α) e : Method ε σ α) = fail e := rfl

@[simp] theorem expect_some (a : α) :
    (expect (some a) : Method ε σ α) = pure a := rfl

@[simp] theorem expect_none :
    (expect (none : Option α) : Method ε σ α) = abort .expectFailed := rfl

variable {v : List α} {i : Nat} {m : Method ε σ α} {f : α → Method ε σ β} {s t : σ} {a : α}

theorem index_of_lt (h : i < v.length) : (index v i : Method ε σ α) = pure v[i] := by
  simp [index, List.getElem?_eq_getElem h]

/-! ## Calls that return -/

/-- A sequence of two calls returns when both do. -/
theorem bind_returns {b : β} : (m >>= f) s = .ok b t ↔ ∃ a u, m s = .ok a u ∧ f a u = .ok b t := by
  rw [bind_run]
  cases m s with
  | ok a u => simp
  | err e u => simp
  | abort why => simp

theorem index_returns : (index v i : Method ε σ α) s = .ok a t ↔ t = s ∧ v[i]? = some a := by
  unfold index
  cases v[i]? with
  | none => simp
  | some b => simp [and_comm, eq_comm]

theorem expect_returns {x : Option α} :
    (expect x : Method ε σ α) s = .ok a t ↔ t = s ∧ x = some a := by
  cases x with
  | none => simp
  | some b => simp [and_comm, eq_comm]

theorem okOr_returns {x : Option α} {e : ε} :
    (okOr x e : Method ε σ α) s = .ok a t ↔ t = s ∧ x = some a := by
  cases x with
  | none => simp
  | some b => simp [and_comm, eq_comm]

theorem slice_returns {l : List α} {a b : Nat} : (slice v a b : Method ε σ (List α)) s = .ok l t ↔
      t = s ∧ a ≤ b ∧ b ≤ v.length ∧ (v.drop a).take (b - a) = l := by
  unfold slice
  split
  · rename_i h
    simp [h, and_comm, eq_comm]
  · rename_i h
    simp only [abort_run, reduceCtorEq, false_iff]
    rintro ⟨-, hab, hb, -⟩
    exact h ⟨hab, hb⟩

/-- The call returned, with a value or an error. -/
def Returned : Outcome ε σ α → Prop
  | .abort _ => False
  | _ => True

theorem Returned.bind (hm : Returned (m s)) (hf : ∀ a t, m s = .ok a t → Returned (f a t)) :
    Returned ((m >>= f) s) := by
  rw [bind_run]
  cases ho : m s with
  | ok a t => exact hf a t ho
  | err e t => trivial
  | abort why =>
    rw [ho] at hm
    exact hm.elim

theorem Returned.of_bind (h : Returned ((m >>= f) s)) :
    Returned (m s) ∧ ∀ a t, m s = .ok a t → Returned (f a t) := by
  rw [bind_run] at h
  cases ho : m s with
  | ok a t =>
    rw [ho] at h
    refine ⟨trivial, ?_⟩
    intro b u hb
    cases hb
    exact h
  | err e t => exact ⟨trivial, fun _ _ hb => nomatch hb⟩
  | abort why =>
    rw [ho] at h
    exact h.elim

theorem returned_okOr (x : Option α) (e : ε) (s : σ) : Returned ((okOr x e : Method ε σ α) s) := by
  cases x <;> trivial

theorem returned_index (h : i < v.length) (s : σ) : Returned ((index v i : Method ε σ α) s) := by
  rw [index_of_lt h]
  trivial

theorem returned_slice {a b : Nat} (hab : a ≤ b) (hb : b ≤ v.length) (s : σ) :
    Returned ((slice v a b : Method ε σ (List α)) s) := by
  rw [slice, if_pos ⟨hab, hb⟩]
  trivial

/-- A call that returns with the state it was made in. -/
def ReadOnly (m : Method ε σ α) : Prop := ∀ s a t, m s = .ok a t → t = s

theorem readOnly_pure (a : α) : ReadOnly (pure a : Method ε σ α) := by
  intro s b t h
  rw [pure_run, Outcome.ok.injEq] at h
  exact h.2.symm

theorem readOnly_get : ReadOnly (get : Method ε σ σ) := by
  intro s a t h
  rw [get_run, Outcome.ok.injEq] at h
  exact h.2.symm

theorem readOnly_index (v : List α) (i : Nat) : ReadOnly (index v i : Method ε σ α) :=
  fun _ _ _ h => (index_returns.mp h).1

theorem ReadOnly.bind (hm : ReadOnly m) (hf : ∀ a, ReadOnly (f a)) : ReadOnly (m >>= f) := by
  intro s b t h
  obtain ⟨a, u, hu, ht⟩ := bind_returns.mp h
  rw [hf a u b t ht, hm s a u hu]

/-- A call that returns in state `s`, and leaves it. -/
def Answers (m : Method ε σ α) (s : σ) : Prop := ∃ a, m s = .ok a s

theorem answers_pure (a : α) (s : σ) : Answers (pure a : Method ε σ α) s := ⟨a, rfl⟩

theorem Answers.bind (hm : Answers m s) (hf : ∀ a, Answers (f a) s) : Answers (m >>= f) s := by
  obtain ⟨a, ha⟩ := hm
  obtain ⟨b, hb⟩ := hf a
  exact ⟨b, bind_returns.mpr ⟨a, s, ha, hb⟩⟩

/-- A call that left the state it was made in, however it returned. -/
def Leaves (s : σ) : Outcome ε σ α → Prop
  | .ok _ t => t = s
  | .err _ t => t = s
  | .abort _ => True

theorem Leaves.andThen {o : Outcome ε σ α} {f : α → σ → Outcome ε σ β} (ho : Leaves s o)
    (hf : ∀ a, Leaves s (f a s)) : Leaves s (o.andThen f) := by
  cases o with
  | ok a t =>
    obtain rfl : t = s := ho
    exact hf a
  | err e t => exact ho
  | abort why => trivial

theorem leaves_okOr (x : Option α) (e : ε) (s : σ) : Leaves s ((okOr x e : Method ε σ α) s) := by
  cases x <;> rfl

theorem leaves_index (v : List α) (i : Nat) (s : σ) :
    Leaves s ((index v i : Method ε σ α) s) := by
  unfold index
  cases v[i]? with
  | none => trivial
  | some a => rfl

/-! ## Division -/

/-- `a.div_ceil(b)`. -/
def divCeil (a b : Nat) : Method ε σ Nat :=
  if b = 0 then abort .divideByZero else pure ((a + b - 1) / b)

/-- `a % b`. -/
def remUsize (a b : Nat) : Method ε σ Nat :=
  if b = 0 then abort .divideByZero else pure (a % b)

theorem leaves_remUsize (a b : Nat) (s : σ) : Leaves s ((remUsize a b : Method ε σ Nat) s) := by
  unfold remUsize
  split
  · trivial
  · rfl

/-! ## Loops -/

@[simp] theorem forM_cons_run (a : α) (l : List α) (f : α → Method ε σ PUnit) (s : σ) :
    (forM (a :: l) f) s = (f a s).andThen fun _ t => (forM l f) t := by
  rw [List.forM_cons]
  rfl

/-- **The loop rule.** A loop whose body, wherever it is reached, returns
and re-establishes `P` for one more element returns, with `P` for all of
them. -/
theorem forM_returns {f : α → Method ε σ PUnit} (P : List α → σ → Prop) (l : List α)
    (hstep : ∀ done a rest s, l = done ++ a :: rest → P done s →
      ∃ t, f a s = .ok ⟨⟩ t ∧ P (done ++ [a]) t) (h0 : P [] s) :
    ∃ t, (forM l f) s = .ok ⟨⟩ t ∧ P l t := by
  -- the elements done so far are generalized, the list itself stays fixed
  have key : ∀ (rest done : List α) (s : σ), l = done ++ rest → P done s →
      ∃ t, (forM rest f) s = .ok ⟨⟩ t ∧ P l t := by
    intro rest
    induction rest with
    | nil =>
      intro done s hl h
      exact ⟨s, rfl, by simpa [hl] using h⟩
    | cons a rest ih =>
      intro done s hl h
      obtain ⟨t, ht, hP⟩ := hstep done a rest s hl h
      obtain ⟨u, hu, hQ⟩ := ih (done ++ [a]) t (by simpa using hl) hP
      exact ⟨u, by simp [ht, hu], hQ⟩
  exact key l [] s rfl h0

@[simp] theorem foldlM_cons_run (f : β → α → Method ε σ β) (b : β) (a : α) (l : List α)
    (s : σ) : (List.foldlM f b (a :: l)) s
      = (f b a s).andThen fun c t => (List.foldlM f c l) t := by
  rw [List.foldlM_cons]
  rfl

/-- The loop rule for a loop with an accumulator. -/
theorem foldlM_returns {f : β → α → Method ε σ β} (P : List α → β → σ → Prop) (l : List α)
    (hstep : ∀ done a rest b s, l = done ++ a :: rest → P done b s →
      ∃ c t, f b a s = .ok c t ∧ P (done ++ [a]) c t) {b : β} (h0 : P [] b s) :
    ∃ c t, (List.foldlM f b l) s = .ok c t ∧ P l c t := by
  have key : ∀ (rest done : List α) (b : β) (s : σ), l = done ++ rest → P done b s →
      ∃ c t, (List.foldlM f b rest) s = .ok c t ∧ P l c t := by
    intro rest
    induction rest with
    | nil =>
      intro done b s hl h
      exact ⟨b, s, rfl, by simpa [hl] using h⟩
    | cons a rest ih =>
      intro done b s hl h
      obtain ⟨c, t, ht, hP⟩ := hstep done a rest b s hl h
      obtain ⟨d, u, hu, hQ⟩ := ih (done ++ [a]) c t (by simpa using hl) hP
      exact ⟨d, u, by simp [ht, hu], hQ⟩
  exact key l [] b s rfl h0

end Method

/-! ## All or nothing -/

/-- The aborts that arithmetic on a caller's numbers can cause. -/
def Abort.isArith : Abort → Bool
  | .addOverflow | .mulOverflow | .divideByZero => true
  | _ => false

/-- A call from state `s` that either returns with `Q`, or refuses and leaves
`s` as it was, or aborts on an arithmetic operation — and on nothing else. -/
inductive Outcome.AllOrNothing {ε σ α : Type} (s : σ) (Q : α → σ → Prop) :
    Outcome ε σ α → Prop
  | ok {a : α} {t : σ} : Q a t → AllOrNothing s Q (.ok a t)
  | refused (e : ε) : AllOrNothing s Q (.err e s)
  | arith {why : Abort} : why.isArith = true → AllOrNothing s Q (.abort why)

/-- A call that returns with `Q` unless a sum or a product overflows. -/
inductive Outcome.UnlessOverflow {ε σ α : Type} (Q : α → σ → Prop) : Outcome ε σ α → Prop
  | ok {a : α} {t : σ} : Q a t → UnlessOverflow Q (.ok a t)
  | overflow {why : Abort} : why = .addOverflow ∨ why = .mulOverflow → UnlessOverflow Q (.abort why)

namespace Outcome.UnlessOverflow

variable {ε σ α β : Type} {P : α → σ → Prop} {Q : β → σ → Prop} {o : Outcome ε σ α}

theorem allOrNothing (h : UnlessOverflow P o) (s : σ) : AllOrNothing s P o := by
  cases h with
  | ok h => exact .ok h
  | overflow h => exact .arith (by rcases h with rfl | rfl <;> rfl)

theorem andThen {f : α → σ → Outcome ε σ β} (h : UnlessOverflow P o)
    (hf : ∀ a t, P a t → UnlessOverflow Q (f a t)) : UnlessOverflow Q (o.andThen f) := by
  cases h with
  | ok h => exact hf _ _ h
  | overflow h => exact .overflow h

end Outcome.UnlessOverflow

namespace Outcome.AllOrNothing

variable {ε σ α β : Type} {s : σ} {Q R : α → σ → Prop} {o : Outcome ε σ α}

theorem mono (h : AllOrNothing s Q o) (hQ : ∀ a t, Q a t → R a t) : AllOrNothing s R o := by
  cases h with
  | ok h => exact .ok (hQ _ _ h)
  | refused e => exact .refused e
  | arith h => exact .arith h

/-- What follows a step that reads without writing. -/
theorem read {P : α → Prop} {Q : β → σ → Prop} {f : α → σ → Outcome ε σ β}
    (h : AllOrNothing s (fun a t => t = s ∧ P a) o)
    (hf : ∀ a, P a → AllOrNothing s Q (f a s)) : AllOrNothing s Q (o.andThen f) := by
  cases h with
  | ok h =>
    obtain ⟨rfl, hP⟩ := h
    exact hf _ hP
  | refused e => exact .refused e
  | arith h => exact .arith h

/-- What follows the writing part: it no longer refuses. -/
theorem andThen {Q : β → σ → Prop} {P : α → σ → Prop} {f : α → σ → Outcome ε σ β}
    (h : AllOrNothing s P o) (hf : ∀ a t, P a t → UnlessOverflow Q (f a t)) :
    AllOrNothing s Q (o.andThen f) := by
  cases h with
  | ok h => exact (hf _ _ h).allOrNothing s
  | refused e => exact .refused e
  | arith h => exact .arith h

theorem of_err {e : ε} {t : σ} (h : AllOrNothing s Q (.err e t : Outcome ε σ α)) : t = s := by
  cases h
  rfl

theorem of_ok {a : α} {t : σ} (h : AllOrNothing s Q (.ok a t : Outcome ε σ α)) : Q a t := by
  cases h with
  | ok h => exact h

theorem of_abort {why : Abort} (h : AllOrNothing s Q (.abort why : Outcome ε σ α)) :
    why.isArith = true := by
  cases h with
  | arith h => exact h

end Outcome.AllOrNothing

namespace Method

variable {ε σ α : Type} (a b : Nat)

theorem okOr_reads (x : Option α) (e : ε) (s : σ) :
    ((okOr x e : Method ε σ α) s).AllOrNothing s fun a t => t = s ∧ x = some a := by
  cases x with
  | none => exact .refused e
  | some a => exact .ok ⟨rfl, rfl⟩

/-- The loop rule for a body that may overflow. -/
theorem forM_unlessOverflow {f : α → Method ε σ PUnit} {s : σ} (P : List α → σ → Prop) (l : List α)
    (hstep : ∀ done a rest t, l = done ++ a :: rest → P done t →
      (f a t).UnlessOverflow fun _ => P (done ++ [a])) (h0 : P [] s) :
    ((forM l f) s).UnlessOverflow fun _ => P l := by
  have key : ∀ (rest done : List α) (t : σ), l = done ++ rest → P done t →
      ((forM rest f) t).UnlessOverflow fun _ => P l := by
    intro rest
    induction rest with
    | nil =>
      intro done t hl h
      exact .ok (by simpa [hl] using h)
    | cons a rest ih =>
      intro done t hl h
      rw [forM_cons_run]
      exact (hstep done a rest t hl h).andThen fun _ u hu =>
        ih (done ++ [a]) u (by simpa using hl) hu
  exact key l [] s rfl h0

/-- A loop of checks passes exactly when every one of them does. -/
theorem forM_reads {f : α → Method ε σ PUnit} {P : α → Prop} {s : σ} (l : List α)
    (hf : ∀ a ∈ l, (f a s).AllOrNothing s fun _ t => t = s ∧ P a) :
    ((forM l f) s).AllOrNothing s fun _ t => t = s ∧ ∀ a ∈ l, P a := by
  induction l with
  | nil => exact .ok ⟨rfl, by simp⟩
  | cons a l ih =>
    rw [forM_cons_run]
    refine (hf a (by simp)).read fun _ ha => ?_
    refine (ih fun b hb => hf b (by simp [hb])).mono fun _ t ⟨ht, hl⟩ => ⟨ht, ?_⟩
    simpa using ⟨ha, hl⟩

theorem remUsize_reads (s : σ) :
    ((remUsize a b : Method ε σ Nat) s).AllOrNothing s fun n t =>
      t = s ∧ (n = a % b ∧ b ≠ 0) := by
  unfold remUsize
  split
  · exact .arith rfl
  · rename_i h
    exact .ok ⟨rfl, rfl, h⟩

end Method

/-! ## Transactions

The same shape with nothing said about aborts: first a part that reads and may
refuse, then one that writes and no longer refuses. -/

namespace Outcome

variable {ε σ α β : Type}

/-- A call that returns with `Q`, if it returns, and does not refuse. -/
def Proceeds (Q : α → σ → Prop) : Outcome ε σ α → Prop
  | .ok a t => Q a t
  | .err _ _ => False
  | .abort _ => True

/-- A call from state `s` that, if it refuses, leaves `s` as it was. -/
def Transacts (s : σ) (Q : α → σ → Prop) : Outcome ε σ α → Prop
  | .ok a t => Q a t
  | .err _ t => t = s
  | .abort _ => True

variable {s : σ} {P : α → σ → Prop} {Q : β → σ → Prop} {o : Outcome ε σ α}
  {f : α → σ → Outcome ε σ β}

theorem AllOrNothing.transacts (h : AllOrNothing s P o) : Transacts s P o := by
  cases h with
  | ok h => exact h
  | refused e => exact rfl
  | arith h => trivial

theorem Proceeds.transacts (h : Proceeds P o) (s : σ) : Transacts s P o := by
  cases o with
  | ok a t => exact h
  | err e t => exact h.elim
  | abort why => trivial

theorem Proceeds.mono {R : α → σ → Prop} (h : Proceeds P o) (hR : ∀ a t, P a t → R a t) :
    Proceeds R o := by
  cases o with
  | ok a t => exact hR a t h
  | err e t => exact h
  | abort why => trivial

theorem Proceeds.andThen (h : Proceeds P o) (hf : ∀ a t, P a t → Proceeds Q (f a t)) :
    Proceeds Q (o.andThen f) := by
  cases o with
  | ok a t => exact hf a t h
  | err e t => exact h
  | abort why => trivial

theorem Transacts.andThen (h : Transacts s P o) (hf : ∀ a t, P a t → Transacts s Q (f a t)) :
    Transacts s Q (o.andThen f) := by
  cases o with
  | ok a t => exact hf a t h
  | err e t => exact h
  | abort why => trivial

/-- What follows a step that reads without writing. -/
theorem Transacts.read {R : α → Prop} (h : Transacts s (fun a t => t = s ∧ R a) o)
    (hf : ∀ a, R a → Transacts s Q (f a s)) : Transacts s Q (o.andThen f) := by
  refine h.andThen ?_
  rintro a _ ⟨rfl, ha⟩
  exact hf a ha

theorem Proceeds.read (h : Proceeds (fun _ => (s = ·)) o) (hf : ∀ a, Transacts s Q (f a s)) :
    Transacts s Q (o.andThen f) := by
  refine (h.transacts s).andThen ?_
  rintro a _ rfl
  exact hf a

end Outcome

namespace Method

variable {ε σ α β : Type} {s : σ}

theorem divCeil_proceeds {P : σ → Prop} (h : P s) (a b : Nat) :
    ((divCeil a b : Method ε σ Nat) s).Proceeds fun _ => P := by
  unfold divCeil
  split
  · trivial
  · exact h

theorem index_proceeds {P : σ → Prop} (v : List α) (i : Nat) (h : P s) :
    ((index v i : Method ε σ α) s).Proceeds fun _ => P := by
  unfold index
  cases v[i]? with
  | none => trivial
  | some a => exact h

/-- The loop rule: `P n` is what `n` more turns need. -/
theorem forM_proceeds {f : α → Method ε σ PUnit} (P : Nat → σ → Prop)
    (hstep : ∀ n a t, P (n + 1) t → (f a t).Proceeds fun _ => P n) (l : List α)
    (h : P l.length s) : ((forM l f) s).Proceeds fun _ => P 0 := by
  induction l generalizing s with
  | nil => exact h
  | cons a l ih =>
    rw [forM_cons_run]
    exact (hstep l.length a s h).andThen fun _ t ht => ih ht

theorem foldlM_proceeds {f : β → α → Method ε σ β} (P : Nat → σ → Prop)
    (hstep : ∀ n b a t, P (n + 1) t → (f b a t).Proceeds fun _ => P n) (l : List α) (b : β)
    (h : P l.length s) : ((List.foldlM f b l) s).Proceeds fun _ => P 0 := by
  induction l generalizing s b with
  | nil => exact h
  | cons a l ih =>
    rw [foldlM_cons_run]
    exact (hstep l.length b a s h).andThen fun c t ht => ih c ht

end Method

end Fuel
