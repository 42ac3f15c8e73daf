import Fuel.IR.Arena
import Fuel.IR.StridedIndex
import Fuel.Lib.Saturating

/-!
# Bundled outputs

The outputs of a multi-output node share one buffer. `composeBundle` gives each slot
the next bytes, aligned to the slot's dtype. How many bytes a slot gets is counted
from its shape and the dtype's whole bytes; how far the slot's layout reaches, and
how wide an element narrower than a byte is, plays no part in it.
-/

namespace Fuel.IR

open Method Strided

structure OutputViewSpec where
  dtype : DType
  shape : Shape
  layout : Layout
  name : Option String

inductive BundleError where
  | emptySpecs
  | layoutShape (slot : Nat) (layout shape : Shape)

/-- `OutputView::len_bytes`. -/
def OutputView.lenBytes (v : OutputView) : Nat := capped (v.lenElements * v.dtype.sizeInBytes)

/-- The cursor moved up to the next multiple of the dtype's size. -/
def alignCursor {σ : Type} (build : Build) (d : DType) (cursor : Nat) : Method BundleError σ Nat :=
  let align := max d.sizeInBytes 1
  let rem := cursor % align
  if rem ≠ 0 then addUsizeIn build cursor (align - rem) else pure cursor

/-- The loop of `compose_bundle` from slot `i` on. -/
def composeSlots {σ : Type} (build : Build) :
    Nat → Nat → List OutputViewSpec → Method BundleError σ (Nat × List OutputView)
  | _, cursor, [] => pure (cursor, [])
  | i, cursor, spec :: specs =>
    if spec.layout.shape ≠ spec.shape then fail (.layoutShape i spec.layout.shape spec.shape)
    else do
      let offset ← alignCursor build spec.dtype cursor
      let lenElements ← StridedIndex.product build spec.shape.dims
      let view : OutputView :=
        ⟨offset, lenElements, spec.dtype, spec.shape, spec.layout, spec.name⟩
      let rest ← composeSlots build (i + 1) (capped (offset + view.lenBytes)) specs
      pure (rest.1, view :: rest.2)

def composeBundle {σ : Type} (build : Build) (specs : List OutputViewSpec) :
    Method BundleError σ (Nat × List OutputView) :=
  if specs.isEmpty then fail .emptySpecs else composeSlots build 0 0 specs

/-- A release build always returns: its sums wrap. -/
theorem returned_composeBundle {σ : Type} (specs : List OutputViewSpec) (s : σ) :
    Returned (composeBundle .release specs s) := by
  have hloop : ∀ (i cursor : Nat) (s : σ), Returned (composeSlots .release i cursor specs s) := by
    induction specs with
    | nil => exact fun _ _ _ => trivial
    | cons spec specs ih =>
      intro i cursor s
      have halign : Returned (alignCursor .release spec.dtype cursor s) := by
        unfold alignCursor addUsizeIn
        split
        · rw [usizeResult_release]
          trivial
        · trivial
      unfold composeSlots
      split
      · trivial
      · rw [StridedIndex.product_eq fun _ _ => .inl rfl]
        refine halign.bind fun offset t _ => ?_
        rw [pure_bind]
        exact Returned.bind (ih _ _ t) fun _ _ _ => trivial
  unfold composeBundle
  split
  · trivial
  · exact hloop 0 0 s

/-! ## Packing without overflow -/

/-- `alignCursor` in exact arithmetic. -/
def DType.alignUp (d : DType) (cursor : Nat) : Nat :=
  if cursor % max d.sizeInBytes 1 ≠ 0 then
    cursor + (max d.sizeInBytes 1 - cursor % max d.sizeInBytes 1)
  else cursor

/-- Where slots packed from `cursor` on end, in exact arithmetic. -/
def packedEnd : Nat → List OutputViewSpec → Nat
  | cursor, [] => cursor
  | cursor, s :: specs =>
    packedEnd (s.dtype.alignUp cursor + s.shape.elemCount * s.dtype.sizeInBytes) specs

theorem DType.le_alignUp (d : DType) (cursor : Nat) : cursor ≤ d.alignUp cursor := by
  unfold DType.alignUp
  split <;> omega

theorem DType.dvd_alignUp (d : DType) (cursor : Nat) :
    max d.sizeInBytes 1 ∣ d.alignUp cursor := by
  unfold DType.alignUp
  have hlt := Nat.mod_lt cursor (show 0 < max d.sizeInBytes 1 by omega)
  have hdiv := Nat.div_add_mod cursor (max d.sizeInBytes 1)
  split
  · exact ⟨cursor / max d.sizeInBytes 1 + 1, by rw [Nat.mul_add, Nat.mul_one]; omega⟩
  · exact Nat.dvd_of_mod_eq_zero (by omega)

theorem alignCursor_eq {σ : Type} {build : Build} {d : DType} {cursor : Nat}
    (h : d.alignUp cursor < 2 ^ 64) :
    (alignCursor build d cursor : Method BundleError σ Nat) = pure (d.alignUp cursor) := by
  by_cases hr : cursor % max d.sizeInBytes 1 ≠ 0
  · simp only [alignCursor, DType.alignUp, if_pos hr] at h ⊢
    exact addUsizeIn_of_lt h
  · simp only [alignCursor, DType.alignUp, if_neg hr]

theorem le_packedEnd (cursor : Nat) (specs : List OutputViewSpec) :
    cursor ≤ packedEnd cursor specs := by
  induction specs generalizing cursor with
  | nil => exact Nat.le_refl _
  | cons s specs ih =>
    have := s.dtype.le_alignUp cursor
    exact Nat.le_trans (by omega) (ih _)

/-- No size the composition computes reaches `2 ^ 64`. -/
def FitsBundle (cursor : Nat) (specs : List OutputViewSpec) : Prop :=
  packedEnd cursor specs < 2 ^ 64 ∧ ∀ s ∈ specs, ∀ p ∈ s.shape.dims.inits, p.prod < 2 ^ 64

/-- The slot `v` is the spec `s`, placed. -/
def OutputViewSpec.PlacedAs (s : OutputViewSpec) (v : OutputView) : Prop :=
  v = ⟨v.byteOffset, s.shape.elemCount, s.dtype, s.shape, s.layout, s.name⟩ ∧
    v.lenBytes = s.shape.elemCount * s.dtype.sizeInBytes ∧
    max s.dtype.sizeInBytes 1 ∣ v.byteOffset

theorem composeSlots_eq {σ : Type} (build : Build) {specs : List OutputViewSpec} {i cursor : Nat}
    (hshape : ∀ s ∈ specs, s.layout.shape = s.shape) (hfits : FitsBundle cursor specs) :
    ∃ views, (composeSlots build i cursor specs : Method BundleError σ _) =
        pure (packedEnd cursor specs, views) ∧
      List.Forall₂ OutputViewSpec.PlacedAs specs views ∧
      views.Pairwise (fun v w => v.byteOffset + v.lenBytes ≤ w.byteOffset) ∧
      ∀ v ∈ views, cursor ≤ v.byteOffset ∧
        v.byteOffset + v.lenBytes ≤ packedEnd cursor specs := by
  -- induction along the loop: what is left starts where the slots before it end
  induction specs generalizing i cursor with
  | nil => exact ⟨[], rfl, .nil, .nil, by simp⟩
  | cons s specs ih =>
    obtain ⟨hend, hcounts⟩ := hfits
    have hle := s.dtype.le_alignUp cursor
    have hnext := le_packedEnd (s.dtype.alignUp cursor + s.shape.elemCount * s.dtype.sizeInBytes)
      specs
    rw [packedEnd] at hend
    obtain ⟨views, hrun, hplaced, hdisj, hin⟩ := ih (i := i + 1)
      (fun t ht => hshape t (by simp [ht])) ⟨hend, fun t ht => hcounts t (by simp [ht])⟩
    have hcount : (StridedIndex.product build s.shape.dims : Method BundleError σ Nat) =
        pure s.shape.elemCount := by
      have hs := fun p hp => hcounts s (by simp) p ((List.mem_inits p _).mpr hp)
      rw [StridedIndex.product_eq fun p hp => .inr (hs p hp), asUsize_natCast,
        Nat.mod_eq_of_lt (hs _ (List.prefix_refl _))]
      rfl
    have hlen : capped (s.shape.elemCount * s.dtype.sizeInBytes) =
        s.shape.elemCount * s.dtype.sizeInBytes := Nat.min_eq_right (by omega)
    refine ⟨⟨s.dtype.alignUp cursor, s.shape.elemCount, s.dtype, s.shape, s.layout, s.name⟩ ::
      views, ?_, .cons ⟨rfl, hlen, s.dtype.dvd_alignUp cursor⟩ hplaced, .cons ?_ hdisj, ?_⟩
    · rw [composeSlots, if_neg (not_not.mpr (hshape s (by simp))), alignCursor_eq (by omega),
        pure_bind, hcount, pure_bind]
      simp only [OutputView.lenBytes, hlen]
      rw [show capped _ = _ from Nat.min_eq_right (by omega), hrun, pure_bind]
      rfl
    · intro w hw
      rw [OutputView.lenBytes, hlen]
      exact (hin w hw).1
    · intro v hv
      rcases List.mem_cons.mp hv with rfl | hv
      · exact ⟨hle, by rw [OutputView.lenBytes, hlen]; exact hnext⟩
      · exact ⟨by have := (hin v hv).1; omega, (hin v hv).2⟩

/-! ## What the layouts address -/

/-- The width of an element; narrow floats as in `sub_byte_bits_and_packing`. -/
def DType.bits (d : DType) : Nat :=
  match d with
  | .f4 => 4
  | .f6e2m3 | .f6e3m2 => 6
  | d => 8 * d.sizeInBytes

/-- The first bit in the bundle of the element at `idx`. -/
def OutputView.firstBit (v : OutputView) (idx : List Nat) : Int :=
  8 * v.byteOffset + v.layout.address idx * v.dtype.bits

/-- The slot's own bytes hold every element its layout addresses. -/
def OutputView.HoldsElements (v : OutputView) : Prop :=
  ∀ idx, Within v.layout.shape.dims idx → 8 * (v.byteOffset : Int) ≤ v.firstBit idx ∧
    v.firstBit idx + v.dtype.bits ≤ 8 * (v.byteOffset + v.lenBytes : Nat)

/-- The layout stays within the elements of its shape, which are whole bytes wide. -/
def OutputViewSpec.Addressable (s : OutputViewSpec) : Prop :=
  ∀ idx, Within s.layout.shape.dims idx → s.dtype.sizeInBytes ≠ 0 ∧
    0 ≤ s.layout.address idx ∧ s.layout.address idx < s.shape.elemCount

theorem DType.bits_eq (d : DType) :
    d.sizeInBytes = 0 ∧ 0 < d.bits ∨ 0 < d.sizeInBytes ∧ d.bits = 8 * d.sizeInBytes := by
  cases d <;> decide

theorem OutputViewSpec.PlacedAs.holdsElements {s : OutputViewSpec} {v : OutputView}
    (h : s.PlacedAs v) : v.HoldsElements ↔ s.Addressable := by
  obtain ⟨hv, hlen, -⟩ := h
  have hl : v.layout = s.layout := congrArg OutputView.layout hv
  have hd : v.dtype = s.dtype := congrArg OutputView.dtype hv
  unfold OutputView.HoldsElements OutputViewSpec.Addressable OutputView.firstBit
  rw [hl, hd, hlen]
  refine forall₂_congr fun idx _ => ?_
  rcases s.dtype.bits_eq with ⟨hsize, hbits⟩ | ⟨hsize, hbits⟩
  · -- no whole byte per element: the slot is empty
    rw [hsize]
    constructor
    · rintro ⟨h1, h2⟩
      omega
    · rintro ⟨h1, -⟩
      exact absurd rfl h1
  have hpos : (0 : Int) < s.dtype.bits := by omega
  have hcount : (8 * (v.byteOffset + s.shape.elemCount * s.dtype.sizeInBytes : Nat) : Int) =
      8 * v.byteOffset + s.shape.elemCount * s.dtype.bits := by
    rw [hbits]
    push_cast
    ring
  rw [hcount]
  constructor
  · rintro ⟨h1, h2⟩
    refine ⟨by omega, ?_, ?_⟩
    · exact nonneg_of_mul_nonneg_left (by omega : 0 ≤ s.layout.address idx * s.dtype.bits) hpos
    · have hnext : (s.layout.address idx + 1) * s.dtype.bits ≤ s.shape.elemCount * s.dtype.bits := by
        rw [add_mul, one_mul]
        omega
      have := le_of_mul_le_mul_right hnext hpos
      omega
  · rintro ⟨-, h1, h2⟩
    have hlo := mul_nonneg h1 hpos.le
    have hle : s.layout.address idx + 1 ≤ s.shape.elemCount := by omega
    have hhi := mul_le_mul_of_nonneg_right hle hpos.le
    rw [add_mul, one_mul] at hhi
    omega

/-- Every slot gets aligned bytes of its own inside the buffer. They hold all elements
the slots' layouts address exactly if each layout stays within its shape's elements. -/
theorem composeBundle_slots {σ : Type} (build : Build) (specs : List OutputViewSpec)
    (hne : specs ≠ []) (hshape : ∀ s ∈ specs, s.layout.shape = s.shape)
    (hfits : FitsBundle 0 specs) (state : σ) :
    ∃ total views, composeBundle build specs state = .ok (total, views) state ∧
      List.Forall₂ OutputViewSpec.PlacedAs specs views ∧
      views.Pairwise (fun v w => v.byteOffset + v.lenBytes ≤ w.byteOffset) ∧
      (∀ v ∈ views, v.byteOffset + v.lenBytes ≤ total) ∧
      ((∀ v ∈ views, v.HoldsElements) ↔ ∀ s ∈ specs, s.Addressable) := by
  obtain ⟨views, hrun, hplaced, hdisj, hin⟩ := composeSlots_eq (σ := σ) build hshape hfits
  refine ⟨_, views, ?_, hplaced, hdisj, fun v hv => (hin v hv).2, ?_⟩
  · unfold composeBundle
    rw [if_neg (by simpa using hne), hrun]
    rfl
  · clear hrun hdisj hin hne hshape hfits
    induction hplaced with
    | nil => simp
    | cons hv _ ih => simp only [List.forall_mem_cons, hv.holdsElements, ih]

/-- Three bytes and, behind the padding, two floats. -/
def bytesAndFloats : List OutputViewSpec :=
  [⟨.u8, .ofDims [3], .contiguous (.ofDims [3]), none⟩,
    ⟨.f32, .ofDims [2], .contiguous (.ofDims [2]), none⟩]

theorem composeBundle_slots_bytesAndFloats : ∃ total views,
    composeBundle .debug bytesAndFloats () = .ok (total, views) () ∧
      (∀ v ∈ views, v.byteOffset + v.lenBytes ≤ total) ∧ ∀ v ∈ views, v.HoldsElements := by
  obtain ⟨total, views, hrun, -, -, htotal, hholds⟩ := composeBundle_slots .debug bytesAndFloats
    (by decide) (by decide) ⟨by decide, by decide⟩ ()
  refine ⟨total, views, hrun, htotal, hholds.mpr ?_⟩
  have haddress : ∀ s ∈ bytesAndFloats, ∀ idx ∈ indices s.layout.shape.dims,
      s.dtype.sizeInBytes ≠ 0 ∧ 0 ≤ s.layout.address idx ∧
        s.layout.address idx < s.shape.elemCount := by
    decide
  exact fun s hs idx hidx => haddress s hs idx (mem_indices.mpr hidx)

/-- Two floats that start one element late, and two of half a byte each. -/
def lateAndNarrow : List OutputViewSpec :=
  [⟨.f32, .ofDims [2], .contiguousWithOffset (.ofDims [2]) 1, none⟩,
    ⟨.f4, .ofDims [2], .contiguous (.ofDims [2]), none⟩]

/-- The second float ends four bytes behind its slot; the narrow ones get no byte at all. -/
theorem composeBundle_outside : ∃ v w,
    composeBundle .release lateAndNarrow () = .ok (8, [v, w]) () ∧
      ¬ v.HoldsElements ∧ ¬ w.HoldsElements := by
  refine ⟨_, _, rfl, fun h => ?_, fun h => ?_⟩
  · exact absurd (h [1] (.cons (by decide) .nil)).2 (by decide)
  · exact absurd (h [1] (.cons (by decide) .nil)).2 (by decide)

end Fuel.IR
