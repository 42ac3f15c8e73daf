import Mathlib.Tactic

/-!
# Little-endian integers and length prefixes

Byte strings are lists of bytes. An integer of a given width is written low byte
first; a length-prefixed body is a two-byte length and then the body.
-/

namespace Fuel.Bytes

open List

/-- The low `width` bytes of `n`. -/
def le : Nat → Nat → List UInt8
  | 0, _ => []
  | width + 1, n => UInt8.ofNat n :: le width (n / 256)

/-- The integer that some bytes write. -/
def ofLe : List UInt8 → Nat
  | [] => 0
  | b :: bs => b.toNat + 256 * ofLe bs

@[simp] theorem length_le (width n : Nat) : (le width n).length = width := by
  induction width generalizing n with
  | zero => rfl
  | succ width ih => simp [le, ih]

theorem ofLe_lt (bs : List UInt8) : ofLe bs < 256 ^ bs.length := by
  induction bs with
  | nil => decide
  | cons b bs ih =>
    have hb := b.toNat_lt
    rw [ofLe, length_cons, pow_succ]
    omega

theorem ofLe_le {width n : Nat} (h : n < 256 ^ width) : ofLe (le width n) = n := by
  induction width generalizing n with
  | zero =>
    rw [pow_zero, Nat.lt_one_iff] at h
    rw [h]
    rfl
  | succ width ih =>
    rw [pow_succ] at h
    have hrest : n / 256 < 256 ^ width := by omega
    rw [le, ofLe, ih hrest, UInt8.toNat_ofNat']
    omega

theorem le_ofLe (bs : List UInt8) : le bs.length (ofLe bs) = bs := by
  induction bs with
  | nil => rfl
  | cons b bs ih =>
    have hb := b.toNat_lt
    have hlow : UInt8.ofNat (b.toNat + 256 * ofLe bs) = b := by
      apply UInt8.toNat_inj.mp
      rw [UInt8.toNat_ofNat']
      omega
    have hhigh : (b.toNat + 256 * ofLe bs) / 256 = ofLe bs := by omega
    rw [length_cons, ofLe, le, hlow, hhigh, ih]

/-- Bytes of a known width write their integer. -/
theorem le_ofLe_of_length {width : Nat} {bs : List UInt8} (h : bs.length = width) :
    le width (ofLe bs) = bs := by
  rw [← h]
  exact le_ofLe bs

/-! ## Length-prefixed bodies -/

/-- A body behind its two-byte length; the length is cut to two bytes. -/
def withLength (body : List UInt8) : List UInt8 := le 2 body.length ++ body

@[simp] theorem length_withLength (body : List UInt8) :
    (withLength body).length = 2 + body.length := by
  simp [withLength]

/-- A two-byte length and that many bytes are a prefixed body. -/
theorem eq_withLength {a b : UInt8} {body : List UInt8} (h : ofLe [a, b] = body.length) :
    a :: b :: body = withLength body := by
  have hlength : le 2 (ofLe [a, b]) = [a, b] := le_ofLe [a, b]
  rw [withLength, ← h, hlength]
  rfl

/-! ## Prefix codes -/

section PrefixCode

variable {α β : Type*} {P : α → Prop} {Q : β → Prop} {enc : α → List UInt8} {enc' : β → List UInt8}

/-- What follows the code of a value does not change which value is read. -/
def PrefixCode (P : α → Prop) (enc : α → List UInt8) : Prop :=
  ∀ a b s t, P a → P b → enc a ++ s = enc b ++ t → a = b ∧ s = t

theorem PrefixCode.inj (h : PrefixCode P enc) {a b : α} (ha : P a) (hb : P b)
    (heq : enc a = enc b) : a = b :=
  (h a b [] [] ha hb (by rw [heq])).1

theorem PrefixCode.of_length (width : Nat) (hlength : ∀ a, (enc a).length = width)
    (hinj : ∀ a b, P a → P b → enc a = enc b → a = b) : PrefixCode P enc := by
  intro a b s t ha hb heq
  obtain ⟨hcode, hrest⟩ := append_inj heq ((hlength a).trans (hlength b).symm)
  exact ⟨hinj a b ha hb hcode, hrest⟩

theorem PrefixCode.append (h : PrefixCode P enc) (h' : PrefixCode Q enc') :
    PrefixCode (fun p : α × β => P p.1 ∧ Q p.2) fun p => enc p.1 ++ enc' p.2 := by
  intro a b s t ha hb heq
  simp only [List.append_assoc] at heq
  obtain ⟨hfst, heq⟩ := h _ _ _ _ ha.1 hb.1 heq
  obtain ⟨hsnd, hrest⟩ := h' _ _ _ _ ha.2 hb.2 heq
  exact ⟨Prod.ext hfst hsnd, hrest⟩

theorem prefixCode_le (width : Nat) : PrefixCode (· < 256 ^ width) (le width) := by
  refine .of_length width (length_le width) fun a b ha hb heq => ?_
  rw [← ofLe_le ha, heq, ofLe_le hb]

theorem prefixCode_byte : PrefixCode (fun _ => True) fun b : UInt8 => [b] :=
  .of_length 1 (fun _ => rfl) fun _ _ _ _ h => singleton_inj.mp h

/-- Lists of one length are read element by element. -/
theorem PrefixCode.flatMap (h : PrefixCode P enc) {xs ys : List α} {s t : List UInt8}
    (hxs : ∀ x ∈ xs, P x) (hys : ∀ y ∈ ys, P y) (hlength : xs.length = ys.length)
    (heq : xs.flatMap enc ++ s = ys.flatMap enc ++ t) : xs = ys ∧ s = t := by
  induction xs generalizing ys with
  | nil =>
    obtain rfl := length_eq_zero_iff.mp hlength.symm
    exact ⟨rfl, heq⟩
  | cons x xs ih =>
    cases ys with
    | nil => cases hlength
    | cons y ys =>
      rw [forall_mem_cons] at hxs hys
      simp only [flatMap_cons, List.append_assoc] at heq
      obtain ⟨rfl, hrest⟩ := h _ _ _ _ hxs.1 hys.1 heq
      obtain ⟨rfl, hst⟩ := ih hxs.2 hys.2 (Nat.succ.inj hlength) hrest
      exact ⟨rfl, hst⟩

/-- A four-byte count and then the elements. -/
def counted (enc : α → List UInt8) (xs : List α) : List UInt8 :=
  le 4 xs.length ++ xs.flatMap enc

theorem PrefixCode.counted (h : PrefixCode P enc) :
    PrefixCode (fun xs : List α => xs.length < 2 ^ 32 ∧ ∀ x ∈ xs, P x) (counted enc) := by
  intro xs ys s t hxs hys heq
  obtain ⟨hlength, hrest⟩ := prefixCode_le 4 _ _ _ _ hxs.1 hys.1 heq
  exact h.flatMap hxs.2 hys.2 hlength hrest

end PrefixCode

end Fuel.Bytes
