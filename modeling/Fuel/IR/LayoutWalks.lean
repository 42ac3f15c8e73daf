import Fuel.IR.StridedIndex

/-!
# The shortcuts of the strided walk

Kernels that can avoid the element-wise walk ask a layout whether it is
contiguous, for its contiguous blocks, or for a contiguous run that is repeated
on either side. Each of the three describes a sequence of offsets, which has to
be the one the strided walk yields.

The shortcuts compare strides with running products that are kept in machine
words. Two offsets are the same word when they agree in `ZMod (2 ^ 64)`.
-/

namespace Fuel.IR

open Method Strided StridedIndex

/-! ## The source's loops -/

section Loops

variable {ε σ : Type} (build : Build)

/-- The loop of `is_contiguous`, over the axes from the last one on. -/
def contiguousFrom (build : Build) : List (Int × Nat) → Int → Method ε σ Bool
  | [], _ => pure true
  | (stride, dim) :: axes, acc =>
    if dim > 1 ∧ stride ≠ acc then pure false
    else do
      let acc ← mulI64 build acc (asIsize dim)
      contiguousFrom build axes acc

def Shape.isContiguous (shape : Shape) (stride : List Int) : Method ε σ Bool :=
  if shape.dims.length ≠ stride.length then pure false
  else contiguousFrom build (stride.zip shape.dims).reverse 1

def Layout.isContiguous (build : Build) (l : Layout) : Method ε σ Bool :=
  l.shape.isContiguous build l.stride

/-- The loop of `strided_blocks`, over the axes from the last one on: the block's
length and its number of axes. -/
def trailingRun (build : Build) : List (Int × Nat) → Nat → Nat → Method ε σ (Nat × Nat)
  | [], blockLen, contiguousDims => pure (blockLen, contiguousDims)
  | (stride, dim) :: axes, blockLen, contiguousDims =>
    if stride ≠ asIsize blockLen then pure (blockLen, contiguousDims)
    else do
      let blockLen ← mulUsizeIn build blockLen dim
      trailingRun build axes blockLen (contiguousDims + 1)

inductive StridedBlocks where
  | singleBlock (startOffset len : Nat)
  | multipleBlocks (blockStartIndex : StridedIndex) (blockLen : Nat)
  deriving DecidableEq, Repr

def Layout.stridedBlocks (l : Layout) : Method ε σ StridedBlocks := do
  let (blockLen, contiguousDims) ← trailingRun build (l.stride.zip l.shape.dims).reverse 1 0
  let indexDims := l.shape.dims.length - contiguousDims
  if indexDims = 0 then pure (.singleBlock l.startOffset blockLen)
  else do
    let dims ← slice l.shape.dims 0 indexDims
    let stride ← slice l.stride 0 indexDims
    let blockStartIndex ← StridedIndex.new build dims stride l.startOffset
    pure (.multipleBlocks blockStartIndex blockLen)

structure ContiguousOffsetsWithBroadcast where
  start : Nat
  len : Nat
  leftBroadcast : Nat
  rightBroadcast : Nat
  deriving DecidableEq, Repr

/-- The loops of `offsets_b` that peel off axes with a stride of zero: how many,
and the product of their dimensions. -/
def broadcastRun (build : Build) : List (Int × Nat) → Nat → Nat → Method ε σ (Nat × Nat)
  | [], count, broadcast => pure (count, broadcast)
  | (s, d) :: axes, count, broadcast =>
    if s ≠ 0 then pure (count, broadcast)
    else do
      let broadcast ← mulUsizeIn build broadcast d
      broadcastRun build axes (count + 1) broadcast

/-- The last loop of `offsets_b`, over the axes from the last one on. -/
def innerLen (build : Build) : List (Int × Nat) → Nat → Method ε σ (Option Nat)
  | [], len => pure (some len)
  | (stride, dim) :: axes, len =>
    if stride ≠ asIsize len then pure none
    else do
      let len ← mulUsizeIn build len dim
      innerLen build axes len

def Layout.offsetsB (l : Layout) :
    Method ε σ (Option ContiguousOffsetsWithBroadcast) := do
  let (startCont, leftBroadcast) ← broadcastRun build (l.stride.zip l.shape.dims) 0 1
  if startCont = l.shape.dims.length then
    pure (some ⟨l.startOffset, 1, leftBroadcast, 1⟩)
  else do
    let (peeled, rightBroadcast) ← broadcastRun build (l.stride.zip l.shape.dims).reverse 0 1
    let endCont := l.shape.dims.length - peeled
    let strides ← slice l.stride startCont endCont
    let dims ← slice l.shape.dims startCont endCont
    let len ← innerLen build (strides.zip dims).reverse 1
    pure (len.map fun len => ⟨l.startOffset, len, leftBroadcast, rightBroadcast⟩)

end Loops

/-! ## What the shortcuts describe -/

/-- `len` consecutive offsets. -/
def block (len start : Nat) : List Nat := (List.range len).map fun i => asUsize (start + i : Nat)

/-- The blocks one after the other give these offsets. -/
def StridedBlocks.Describe (build : Build) (os : List Nat) : StridedBlocks → Prop
  | .singleBlock start len => os = block len start
  | .multipleBlocks it len =>
    ∃ starts, Walk build (fun _ _ => True) it starts ∧ os = starts.flatMap (block len)

/-- The block repeated as a whole and element by element. -/
def ContiguousOffsetsWithBroadcast.expand (c : ContiguousOffsetsWithBroadcast) : List Nat :=
  (List.range c.leftBroadcast).flatMap fun _ =>
    (block c.len c.start).flatMap (List.replicate c.rightBroadcast)

/-- The walk and its shortcuts return, and describe the offsets of all
multi-indices in row-major order. -/
structure Layout.WalksAgree (build : Build) (l : Layout) : Prop where
  count : l.addresses.length = l.shape.dims.prod
  walk : ∃ it, (fromLayout build l : Method Empty Unit StridedIndex) () = .ok it () ∧
    Walk build (fun it n => it.remaining = n) it (l.addresses.map asUsize)
  blocks : ∃ b, (l.stridedBlocks build : Method Empty Unit StridedBlocks) () = .ok b () ∧
    b.Describe build (l.addresses.map asUsize)
  broadcast : ∃ o, (l.offsetsB build : Method Empty Unit _) () = .ok o () ∧
    ∀ c, o = some c → c.expand = l.addresses.map asUsize
  contiguous : ∃ b, (l.isContiguous build : Method Empty Unit Bool) () = .ok b () ∧
    (b = true → block l.shape.dims.prod l.startOffset = l.addresses.map asUsize)

/-! ## Offsets as words -/

/-- The word of an integer. -/
def word : Int →+* ZMod (2 ^ 64) := Int.castRingHom _

theorem asUsize_eq_val (x : Int) : asUsize x = (word x).val := by
  have hval : (((x : ZMod (2 ^ 64)).val : Nat) : Int) = x % (2 ^ 64 : Nat) := ZMod.val_intCast x
  have hword : word x = (x : ZMod (2 ^ 64)) := rfl
  rw [hword]
  unfold asUsize
  omega

theorem word_eq_of_asUsize {x y : Int} (h : asUsize x = asUsize y) : word x = word y := by
  exact (ZMod.intCast_eq_intCast_iff x y _).mpr (asUsize_eq_iff.mp h)

theorem word_asUsize (x : Int) : word (asUsize x) = word x := by
  apply word_eq_of_asUsize
  rw [asUsize_natCast]
  unfold asUsize
  omega

theorem word_asIsize (x : Int) : word (asIsize x) = word x :=
  word_eq_of_asUsize (asUsize_asIsize x)

/-- The number of positions of these axes. -/
def extent (axes : List (Int × Nat)) : Nat := (axes.map Prod.snd).prod

/-- The axes have row-major strides, as words. -/
def Consecutive (axes : List (Int × Nat)) : Prop :=
  RowMajor (axes.map Prod.snd) (axes.map fun a => word a.1)

theorem extent_cons (s : Int) (d : Nat) (axes : List (Int × Nat)) :
    extent ((s, d) :: axes) = d * extent axes := by
  simp [extent]

theorem extent_append (axes axes' : List (Int × Nat)) :
    extent (axes ++ axes') = extent axes * extent axes' := by
  simp [extent]

theorem Consecutive.cons {s : Int} {d : Nat} {axes : List (Int × Nat)} (h : Consecutive axes)
    (hs : 1 < d → word s = word (extent axes)) : Consecutive ((s, d) :: axes) := by
  refine ⟨fun hd => (hs hd).trans ?_, h⟩
  exact map_natCast word _

/-- The offsets of consecutive axes behind a start. -/
theorem map_asUsize_of_consecutive {axes : List (Int × Nat)} (h : Consecutive axes) (x : Int) :
    (offsets (axes.map Prod.snd) (axes.map Prod.fst)).map (fun y => asUsize (x + y)) =
      block (extent axes) (asUsize x) := by
  have hwords : (offsets (axes.map Prod.snd) (axes.map Prod.fst)).map word =
      (List.range (extent axes)).map Nat.cast := by
    calc (offsets (axes.map Prod.snd) (axes.map Prod.fst)).map word
        = offsets (axes.map Prod.snd) ((axes.map Prod.fst).map word) := by
          unfold offsets
          rw [List.map_map]
          exact List.map_congr_left fun idx _ => dot_map word idx _
      _ = (List.range (extent axes)).map Nat.cast := by
          rw [List.map_map]
          exact offsets_rowMajor h
  calc (offsets (axes.map Prod.snd) (axes.map Prod.fst)).map (fun y => asUsize (x + y))
      = ((offsets (axes.map Prod.snd) (axes.map Prod.fst)).map word).map
          (fun w => (word x + w).val) := by
        rw [List.map_map]
        exact List.map_congr_left fun y _ => by rw [asUsize_eq_val, map_add]; rfl
    _ = block (extent axes) (asUsize x) := by
        rw [hwords, List.map_map]
        refine List.map_congr_left fun i _ => ?_
        rw [asUsize_eq_val, Nat.cast_add, map_add, word_asUsize, map_natCast]
        rfl

/-! ## What the loops find -/

section Specs

variable {ε σ : Type} {build : Build} (rest done : List (Int × Nat))

/-- A stride that equals the running product extends the run. -/
theorem Consecutive.extend {done : List (Int × Nat)} {s : Int} (d : Nat) (h : Consecutive done)
    (hs : s = asIsize (asUsize (extent done))) : Consecutive ((s, d) :: done) :=
  h.cons fun _ => by rw [hs, word_asIsize, word_asUsize]

theorem trailingRun_spec (hdone : Consecutive done)
    (hfits : ∀ outer inner, rest.reverse ++ done = outer ++ inner → Consecutive inner →
      FitsUsize build (extent inner)) :
    ∃ outer inner, rest.reverse ++ done = outer ++ inner ∧ Consecutive inner ∧
      (trailingRun build rest (asUsize (extent done)) done.length : Method ε σ (Nat × Nat)) =
        pure (asUsize (extent inner), inner.length) := by
  induction rest generalizing done with
  | nil => exact ⟨[], done, rfl, hdone, rfl⟩
  | cons axis rest ih =>
    obtain ⟨s, d⟩ := axis
    by_cases hs : s = asIsize (asUsize (extent done))
    · have hnow := hfits _ done rfl hdone
      rw [List.reverse_cons, List.append_assoc, List.singleton_append] at hfits ⊢
      obtain ⟨outer, inner, heq, hinner, hrun⟩ := ih _ (hdone.extend d hs) hfits
      refine ⟨outer, inner, heq, hinner, ?_⟩
      have hnext := hfits _ _ rfl (hdone.extend d hs)
      rw [extent_cons, Nat.mul_comm] at hnext
      rw [trailingRun, if_neg (not_not.mpr hs), mulUsizeIn_eq hnow hnext, pure_bind, ← hrun,
        extent_cons, Nat.mul_comm, List.length_cons]
    · refine ⟨((s, d) :: rest).reverse, done, rfl, hdone, ?_⟩
      rw [trailingRun, if_pos hs]

theorem innerLen_spec (hdone : Consecutive done)
    (hfits : ∀ outer inner, rest.reverse ++ done = outer ++ inner → Consecutive inner →
      FitsUsize build (extent inner)) :
    ∃ o, (innerLen build rest (asUsize (extent done)) : Method ε σ (Option Nat)) = pure o ∧
      ∀ len, o = some len →
        len = asUsize (extent (rest.reverse ++ done)) ∧ Consecutive (rest.reverse ++ done) := by
  induction rest generalizing done with
  | nil =>
    refine ⟨_, rfl, ?_⟩
    intro len hlen
    exact ⟨(Option.some.inj hlen).symm, hdone⟩
  | cons axis rest ih =>
    obtain ⟨s, d⟩ := axis
    by_cases hs : s = asIsize (asUsize (extent done))
    · have hnow := hfits _ done rfl hdone
      rw [List.reverse_cons, List.append_assoc, List.singleton_append] at hfits ⊢
      obtain ⟨o, hrun, ho⟩ := ih _ (hdone.extend d hs) hfits
      refine ⟨o, ?_, ho⟩
      have hnext := hfits _ _ rfl (hdone.extend d hs)
      rw [extent_cons, Nat.mul_comm] at hnext
      rw [innerLen, if_neg (not_not.mpr hs), mulUsizeIn_eq hnow hnext, pure_bind, ← hrun,
        extent_cons, Nat.mul_comm]
    · exact ⟨none, by rw [innerLen, if_pos hs], fun _ h => nomatch h⟩

theorem contiguousFrom_spec (hdone : Consecutive done)
    (hdims : ∀ a ∈ rest, FitsIsize build a.2)
    (hfits : ∀ outer inner, rest.reverse ++ done = outer ++ inner → Consecutive inner →
      FitsIsize build (extent inner)) :
    ∃ b, (contiguousFrom build rest (asIsize (extent done)) : Method ε σ Bool) = pure b ∧
      (b = true → Consecutive (rest.reverse ++ done)) := by
  induction rest generalizing done with
  | nil => exact ⟨true, rfl, fun _ => hdone⟩
  | cons axis rest ih =>
    obtain ⟨s, d⟩ := axis
    by_cases hs : d > 1 ∧ s ≠ asIsize (extent done)
    · refine ⟨false, ?_, fun h => nomatch h⟩
      rw [contiguousFrom, if_pos hs]
    have hcons : Consecutive ((s, d) :: done) := by
      refine hdone.cons fun hd => ?_
      have hstride : s = asIsize (extent done) := by
        by_contra hne
        exact hs ⟨hd, hne⟩
      rw [hstride, word_asIsize]
    have hnow := hfits _ done rfl hdone
    rw [List.reverse_cons, List.append_assoc, List.singleton_append] at hfits ⊢
    obtain ⟨b, hrun, hb⟩ := ih _ hcons (fun a ha => hdims a (by simp [ha])) hfits
    refine ⟨b, ?_, hb⟩
    have hnext := hfits _ _ rfl hcons
    rw [extent_cons, Nat.mul_comm, Nat.cast_mul] at hnext
    rw [contiguousFrom, if_neg hs, mulI64_asIsize hnow (hdims (s, d) (by simp)) hnext, pure_bind,
      ← hrun, extent_cons, Nat.mul_comm d, Nat.cast_mul]

theorem broadcastRun_spec (axes : List (Int × Nat)) (count b : Nat)
    (hfits : ∀ zeros rest, axes = zeros ++ rest → (∀ a ∈ zeros, a.1 = 0) →
      FitsUsize build (b * extent zeros)) :
    ∃ zeros rest, axes = zeros ++ rest ∧ (∀ a ∈ zeros, a.1 = 0) ∧ (∀ a ∈ rest.head?, a.1 ≠ 0) ∧
      (broadcastRun build axes count (asUsize b) : Method ε σ (Nat × Nat)) =
        pure (count + zeros.length, asUsize (b * extent zeros : Nat)) := by
  induction axes generalizing count b with
  | nil => exact ⟨[], [], rfl, by simp, by simp, by simp [broadcastRun, extent]⟩
  | cons axis axes ih =>
    obtain ⟨s, d⟩ := axis
    by_cases hs : s = 0
    · have hmore : ∀ zeros : List (Int × Nat), (∀ a ∈ zeros, a.1 = 0) →
          ∀ a ∈ (s, d) :: zeros, a.1 = 0 := by
        intro zeros hzeros a ha
        rcases List.mem_cons.mp ha with rfl | ha
        · exact hs
        · exact hzeros a ha
      have hrest : ∀ zeros rest, axes = zeros ++ rest → (∀ a ∈ zeros, a.1 = 0) →
          FitsUsize build (b * d * extent zeros) := by
        intro zeros rest heq hzeros
        rw [Nat.mul_assoc, ← extent_cons s]
        exact hfits _ rest (by rw [heq, List.cons_append]) (hmore zeros hzeros)
      obtain ⟨zeros, rest, heq, hzeros, hhead, hrun⟩ := ih (count + 1) (b * d) hrest
      refine ⟨(s, d) :: zeros, rest, by rw [heq, List.cons_append], hmore zeros hzeros, hhead, ?_⟩
      have hnow : FitsUsize build b := by simpa [extent] using hfits [] _ rfl (by simp)
      have hnext : FitsUsize build (b * d) := by simpa [extent] using hrest [] _ rfl (by simp)
      rw [broadcastRun, if_neg (not_not.mpr hs), mulUsizeIn_eq hnow hnext, pure_bind, hrun,
        extent_cons, List.length_cons, Nat.mul_assoc, Nat.add_assoc, Nat.add_comm 1]
    · refine ⟨[], (s, d) :: axes, rfl, by simp, by simpa using hs, ?_⟩
      rw [broadcastRun, if_pos hs]
      simp [extent]

end Specs

/-! ## The shortcuts agree with the walk -/

namespace Layout

/-- The fields are machine words, with one stride per axis. -/
structure Machine (l : Layout) : Prop where
  rank : l.stride.length = l.shape.dims.length
  dims : ∀ d ∈ l.shape.dims, d < 2 ^ 64
  stride : ∀ s ∈ l.stride, IsI64 s
  startOffset : l.startOffset < 2 ^ 64

/-- Stride and size of each axis. -/
def axes (l : Layout) : List (Int × Nat) := l.stride.zip l.shape.dims

/-- The sizes and the addresses of the box, an empty axis counted as one position, are in
range of `isize`, and so are the lengths of the runs of consecutive axes that end the layout
or come before axes of stride zero. The number of elements, counted from the first axis on,
and the repetitions of a tensor that is not a single element are words. -/
structure Exact (l : Layout) : Prop where
  sizes : ∀ d ∈ l.shape.dims, d < 2 ^ 63
  address : ∀ idx, Within (l.shape.dims.map (max 1)) idx → 0 ≤ l.address idx ∧ l.address idx < 2 ^ 63
  runs : ∀ outer inner zeros, l.axes = outer ++ (inner ++ zeros) → Consecutive inner →
    (∀ a ∈ zeros, a.1 = 0) → extent inner < 2 ^ 63
  leading : ∀ p, p <+: l.shape.dims → p.prod < 2 ^ 64
  trailing : (∃ s ∈ l.stride, s ≠ 0) → ∀ rest zeros, l.axes = rest ++ zeros →
    (∀ a ∈ zeros, a.1 = 0) → extent zeros < 2 ^ 64

/-- The condition for a build. -/
structure Fits (build : Build) (l : Layout) : Prop where
  machine : l.Machine
  count : l.shape.dims.prod < 2 ^ 64
  exact : build = .debug → l.Exact

variable {build : Build} {l : Layout}

section Machine

variable (h : l.Machine)

include h

theorem Machine.map_snd : l.axes.map Prod.snd = l.shape.dims :=
  List.map_snd_zip (Nat.le_of_eq h.rank.symm)

theorem Machine.map_fst : l.axes.map Prod.fst = l.stride :=
  List.map_fst_zip (Nat.le_of_eq h.rank)

theorem Machine.extent_axes : extent l.axes = l.shape.dims.prod := by
  rw [extent, h.map_snd]

/-- The offsets of the walk, from the axes. -/
theorem Machine.addresses_eq : l.addresses.map asUsize =
    (offsets (l.axes.map Prod.snd) (l.axes.map Prod.fst)).map
      fun y => asUsize (l.startOffset + y) := by
  rw [h.map_snd, h.map_fst, addresses, offsets, List.map_map, List.map_map]
  rfl

theorem Machine.asUsize_startOffset : asUsize l.startOffset = l.startOffset := by
  rw [asUsize_natCast, Nat.mod_eq_of_lt h.startOffset]

end Machine

variable {outer inner left right : List (Int × Nat)}

theorem within_grown {dims idx : List Nat} (h : Within dims idx) :
    Within (dims.map (max 1)) idx := by
  induction h with
  | nil => exact .nil
  | cons hi _ ih => exact .cons (by omega) ih

theorem offsets_axes_append (outer inner : List (Int × Nat)) :
    offsets ((outer ++ inner).map Prod.snd) ((outer ++ inner).map Prod.fst) =
      (offsets (outer.map Prod.snd) (outer.map Prod.fst)).flatMap fun x =>
        (offsets (inner.map Prod.snd) (inner.map Prod.fst)).map (x + ·) := by
  rw [List.map_append, List.map_append, offsets_append (by simp)]

theorem map_asUsize_append (hinner : Consecutive inner) (x : Int) :
    (offsets ((outer ++ inner).map Prod.snd) ((outer ++ inner).map Prod.fst)).map
        (fun y => asUsize (x + y)) =
      ((offsets (outer.map Prod.snd) (outer.map Prod.fst)).map fun y => asUsize (x + y)).flatMap
        (block (extent inner)) := by
  rw [offsets_axes_append, List.map_flatMap, List.flatMap_map]
  apply List.flatMap_congr
  intro y _
  rw [List.map_map, ← map_asUsize_of_consecutive hinner (x + y)]
  exact List.map_congr_left fun z _ => by rw [Function.comp_apply, add_assoc]

theorem asUsize_of_lt_limit {n : Nat} (h : n < 2 ^ 64) : asUsize n = n := by
  rw [asUsize_natCast, Nat.mod_eq_of_lt h]

theorem addresses_of_prod_eq_zero (h : l.shape.dims.prod = 0) : l.addresses = [] := by
  rw [addresses, List.length_eq_zero_iff.mp ((length_indices _).trans h), List.map_nil]

/-- Consecutive axes between axes of stride zero. -/
theorem map_asUsize_broadcast {mid : List (Int × Nat)} (hleft : ∀ a ∈ left, a.1 = 0)
    (hmid : Consecutive mid) (hright : ∀ a ∈ right, a.1 = 0) (x : Int) :
    (offsets ((left ++ (mid ++ right)).map Prod.snd) ((left ++ (mid ++ right)).map Prod.fst)).map
        (fun y => asUsize (x + y)) =
      (List.range (extent left)).flatMap fun _ =>
        (block (extent mid) (asUsize x)).flatMap (List.replicate (extent right)) := by
  have hzero : ∀ axes : List (Int × Nat), (∀ a ∈ axes, a.1 = 0) →
      offsets (axes.map Prod.snd) (axes.map Prod.fst) = List.replicate (extent axes) 0 := by
    intro axes haxes
    refine offsets_zero fun s hs => ?_
    obtain ⟨a, ha, rfl⟩ := List.mem_map.mp hs
    exact haxes a ha
  have hinner : (offsets ((mid ++ right).map Prod.snd) ((mid ++ right).map Prod.fst)).map
      (fun y => asUsize (x + y)) =
      (block (extent mid) (asUsize x)).flatMap (List.replicate (extent right)) := by
    rw [offsets_axes_append, hzero right hright, ← map_asUsize_of_consecutive hmid x,
      List.map_flatMap, List.flatMap_map]
    simp
  have hrange : List.replicate (extent left) (0 : Int) =
      (List.range (extent left)).map fun _ => 0 := by simp
  rw [offsets_axes_append, hzero left hleft, hrange, List.flatMap_map, List.map_flatMap]
  simp [← hinner]

theorem expand_eq_nil {c : ContiguousOffsetsWithBroadcast}
    (h : c.leftBroadcast = 0 ∨ c.len = 0 ∨ c.rightBroadcast = 0) : c.expand = [] := by
  refine List.flatMap_eq_nil_iff.mpr fun i hi => List.flatMap_eq_nil_iff.mpr fun o ho => ?_
  rcases h with h | h | h
  · rw [h] at hi
    cases hi
  · rw [h] at ho
    cases ho
  · rw [h, List.replicate_zero]

/-- The axes peeled off on the right lie behind the first axis with a stride. -/
theorem right_of_left {axes rest rest' : List (Int × Nat)} (hleft : axes = left ++ rest)
    (hright : axes = rest' ++ right) (hne : rest ≠ []) (hhead : ∀ a ∈ rest.head?, a.1 ≠ 0)
    (hzero : ∀ a ∈ right, a.1 = 0) : ∃ mid, rest = mid ++ right := by
  rcases List.append_eq_append_iff.mp (hleft.symm.trans hright) with ⟨mid, -, hrest⟩ | ⟨c, -, hc⟩
  · exact ⟨mid, hrest⟩
  · obtain ⟨a, tail, rfl⟩ := List.exists_cons_of_ne_nil hne
    exact absurd (hzero a (by rw [hc]; simp)) (hhead a (by simp))

variable (h : l.Fits build)

include h

theorem Fits.leading {p : List Nat} (hp : p <+: l.shape.dims) :
    FitsUsize build p.prod := by
  cases build with
  | release => exact .inl rfl
  | debug => exact .inr ((h.exact rfl).leading p hp)

theorem Fits.run {outer inner zeros : List (Int × Nat)}
    (heq : l.axes = outer ++ (inner ++ zeros)) (hinner : Consecutive inner)
    (hzeros : ∀ a ∈ zeros, a.1 = 0) :
    FitsIsize build (extent inner) ∧ FitsUsize build (extent inner) := by
  cases build with
  | release => exact ⟨.inl rfl, .inl rfl⟩
  | debug =>
    have hlt := (h.exact rfl).runs outer inner zeros heq hinner hzeros
    exact ⟨.inr ⟨by omega, by omega⟩, .inr (by omega)⟩

theorem Fits.run_end {outer inner : List (Int × Nat)}
    (heq : l.axes.reverse.reverse ++ [] = outer ++ inner) (hinner : Consecutive inner) :
    FitsIsize build (extent inner) ∧ FitsUsize build (extent inner) := by
  have heq : l.axes = outer ++ (inner ++ []) := by
    rw [List.append_nil, ← heq, List.append_nil, List.reverse_reverse]
  exact h.run heq hinner (by simp)

theorem Fits.leading_axes (zeros rest : List (Int × Nat))
    (heq : l.axes = zeros ++ rest) (_ : ∀ a ∈ zeros, a.1 = 0) : FitsUsize build (1 * extent zeros) := by
  rw [Nat.one_mul]
  apply h.leading
  rw [← h.machine.map_snd, heq, List.map_append]
  exact List.prefix_append _ _

theorem Fits.trailing_axes (hne : ∃ s ∈ l.stride, s ≠ 0)
    (zeros rest : List (Int × Nat)) (heq : l.axes.reverse = zeros ++ rest)
    (hzeros : ∀ a ∈ zeros, a.1 = 0) : FitsUsize build (1 * extent zeros) := by
  cases build with
  | release => exact .inl rfl
  | debug =>
    have hext : extent zeros = extent zeros.reverse := by
      simp [extent, List.prod_reverse]
    rw [Nat.one_mul, hext]
    refine .inr ((h.exact rfl).trailing hne rest.reverse zeros.reverse ?_ ?_)
    · rw [← List.reverse_append, ← heq, List.reverse_reverse]
    · exact fun a ha => hzeros a (List.mem_reverse.mp ha)

/-- A walk over the leading axes is safe. -/
theorem Fits.safe (heq : l.axes = outer ++ inner) :
    Safe build l.startOffset (outer.map Prod.snd) (outer.map Prod.fst) where
  rank := by simp
  words d hd := by
    refine h.machine.dims d ?_
    rw [← h.machine.map_snd, heq, List.map_append]
    exact List.mem_append_left _ hd
  small hb d hd := by
    refine Nat.le_of_lt ((h.exact hb).sizes d ?_)
    rw [← h.machine.map_snd, heq, List.map_append]
    exact List.mem_append_left _ hd
  address hb idx hidx := by
    -- the leading part of a multi-index, at the origin of the axes behind it
    have hpos : ∀ e ∈ (inner.map Prod.snd).map (max 1), 0 < e := by
      intro e he
      obtain ⟨d, -, rfl⟩ := List.mem_map.mp he
      omega
    have := (h.exact hb).address (idx ++ Strided.origin ((inner.map Prod.snd).map (max 1))) (by
      rw [← h.machine.map_snd, heq, List.map_append, List.map_append]
      exact (within_grown hidx).append (within_origin hpos))
    rw [address, ← h.machine.map_fst, heq, List.map_append,
      dot_append (by rw [hidx.length_eq]; simp), dot_origin, add_zero] at this
    exact this

theorem Fits.walk :
    ∃ it, (fromLayout build l : Method Empty Unit StridedIndex) () = .ok it () ∧
      Walk build (fun it n => it.remaining = n) it (l.addresses.map asUsize) := by
  have hsafe := h.safe (List.append_nil l.axes).symm
  obtain ⟨it, os, hnew, hwalk, hos⟩ := walk_new hsafe fun p hp =>
    h.leading (h.machine.map_snd ▸ hp)
  rw [h.machine.map_snd, h.machine.map_fst] at hnew
  have hos := hos (by rw [h.machine.map_snd]; exact h.count)
  refine ⟨it, by rw [fromLayout, hnew]; rfl, ?_⟩
  have heq : l.addresses.map asUsize = os := by
    rw [h.machine.addresses_eq, offsets, List.map_map, hos]
    rfl
  rw [heq]
  refine hwalk.imp ?_
  intro it n hn hrem
  have hlen : os.length = l.shape.dims.prod := by
    rw [hos, List.length_map, length_indices, h.machine.map_snd]
  rw [hrem, asUsize_natCast, Nat.mod_eq_of_lt]
  have := h.count
  omega

theorem Fits.isContiguous :
    ∃ b, (l.isContiguous build : Method Empty Unit Bool) () = .ok b () ∧
      (b = true → block l.shape.dims.prod l.startOffset = l.addresses.map asUsize) := by
  have hdims : ∀ a ∈ l.axes.reverse, FitsIsize build a.2 := by
    intro a ha
    have hmem : a.2 ∈ l.shape.dims := by
      rw [← h.machine.map_snd]
      exact List.mem_map_of_mem (List.mem_reverse.mp ha)
    cases build with
    | release => exact .inl rfl
    | debug =>
      have := (h.exact rfl).sizes _ hmem
      exact .inr ⟨by omega, by omega⟩
  obtain ⟨b, hrun, hb⟩ := contiguousFrom_spec (ε := Empty) (σ := Unit) l.axes.reverse [] trivial
    hdims fun _ _ heq hinner => (h.run_end heq hinner).1
  rw [List.reverse_reverse, List.append_nil] at hb
  refine ⟨b, ?_, ?_⟩
  · rw [Layout.isContiguous, Shape.isContiguous, if_neg (not_not.mpr h.machine.rank.symm)]
    exact congrFun hrun ()
  · intro hb'
    rw [h.machine.addresses_eq, map_asUsize_of_consecutive (hb hb'), h.machine.extent_axes,
      h.machine.asUsize_startOffset]

/-- The blocks behind their starts, when the lengths are kept in words. -/
theorem Fits.flatMap_block (heq : l.axes = outer ++ inner)
    (hinner : Consecutive inner) {starts : List Nat} (hstarts : extent outer < 2 ^ 64 → starts =
      (offsets (outer.map Prod.snd) (outer.map Prod.fst)).map fun y => asUsize (l.startOffset + y)) :
    l.addresses.map asUsize = starts.flatMap (block (asUsize (extent inner))) := by
  have hprod : extent outer * extent inner = l.shape.dims.prod := by
    rw [← extent_append, ← heq, h.machine.extent_axes]
  have hcount := h.count
  rcases Nat.eq_zero_or_pos (extent inner) with hzero | hpos
  · -- empty blocks: there are no offsets, however many starts there are
    rw [hzero, Nat.mul_zero] at hprod
    rw [hzero, addresses_of_prod_eq_zero hprod.symm, List.map_nil]
    exact (List.flatMap_eq_nil_iff.mpr fun _ _ => rfl).symm
  have houter : extent outer < 2 ^ 64 :=
    Nat.lt_of_le_of_lt (Nat.le_mul_of_pos_right _ hpos) (by omega)
  rw [hstarts houter, h.machine.addresses_eq, heq, map_asUsize_append hinner]
  rcases Nat.eq_zero_or_pos (extent outer) with hzero | hpos
  · have hnil : offsets (outer.map Prod.snd) (outer.map Prod.fst) = [] := by
      rw [offsets, List.length_eq_zero_iff.mp ((length_indices _).trans hzero), List.map_nil]
    rw [hnil, List.map_nil, List.flatMap_nil, List.flatMap_nil]
  · have : extent inner ≤ extent outer * extent inner := Nat.le_mul_of_pos_left _ hpos
    rw [asUsize_of_lt_limit (by omega)]

theorem Fits.stridedBlocks :
    ∃ b, (l.stridedBlocks build : Method Empty Unit StridedBlocks) () = .ok b () ∧
      b.Describe build (l.addresses.map asUsize) := by
  obtain ⟨outer, inner, heq, hinner, hrun⟩ :=
    trailingRun_spec (ε := Empty) (σ := Unit) l.axes.reverse [] trivial
      fun _ _ heq hinner => (h.run_end heq hinner).2
  rw [List.reverse_reverse, List.append_nil] at heq
  have hrun : trailingRun build (l.stride.zip l.shape.dims).reverse 1 0 =
    (pure (asUsize (extent inner), inner.length) : Method Empty Unit (Nat × Nat)) := hrun
  have hdims : l.shape.dims = outer.map Prod.snd ++ inner.map Prod.snd := by
    rw [← h.machine.map_snd, heq, List.map_append]
  have hstride : l.stride = outer.map Prod.fst ++ inner.map Prod.fst := by
    rw [← h.machine.map_fst, heq, List.map_append]
  have hindex : l.shape.dims.length - inner.length = outer.length := by
    rw [hdims, List.length_append, List.length_map, List.length_map, Nat.add_sub_cancel]
  unfold Layout.stridedBlocks
  rw [hrun, pure_bind]
  dsimp only
  rw [hindex]
  by_cases hempty : outer.length = 0
  · obtain rfl := List.length_eq_zero_iff.mp hempty
    refine ⟨_, by rw [if_pos hempty]; rfl, ?_⟩
    have hstart : ([l.startOffset] : List Nat) =
        (offsets (([] : List (Int × Nat)).map Prod.snd)
          (([] : List (Int × Nat)).map Prod.fst)).map fun y => asUsize (l.startOffset + y) := by
      simp [offsets, indices, h.machine.asUsize_startOffset]
    have := h.flatMap_block heq hinner fun _ => hstart
    rw [List.flatMap_singleton] at this
    exact this
  · have houter : ∀ p, p <+: outer.map Prod.snd → FitsUsize build p.prod := by
      intro p hp
      refine h.leading (hp.trans ?_)
      rw [hdims]
      exact List.prefix_append _ _
    obtain ⟨it, starts, hnew, hwalk, hstarts⟩ := walk_new (ε := Empty) (σ := Unit) (h.safe heq) houter
    have hsliceDims : (slice l.shape.dims 0 outer.length : Method Empty Unit (List Nat)) =
        pure (outer.map Prod.snd) := by
      rw [slice, if_pos ⟨Nat.zero_le _, by rw [hdims]; simp⟩, hdims]
      simp
    have hsliceStride : (slice l.stride 0 outer.length : Method Empty Unit (List Int)) =
        pure (outer.map Prod.fst) := by
      rw [slice, if_pos ⟨Nat.zero_le _, by rw [hstride]; simp⟩, hstride]
      simp
    rw [if_neg hempty, hsliceDims, pure_bind, hsliceStride, pure_bind, hnew, pure_bind]
    refine ⟨_, rfl, starts, hwalk.imp fun _ _ _ _ => trivial, ?_⟩
    refine h.flatMap_block heq hinner fun hlt => ?_
    rw [hstarts hlt, offsets, List.map_map]
    rfl

/-- The block and its repetitions, when their lengths are kept in words. -/
theorem Fits.expand {mid : List (Int × Nat)}
    (heq : l.axes = left ++ (mid ++ right)) (hleft : ∀ a ∈ left, a.1 = 0) (hmid : Consecutive mid)
    (hright : ∀ a ∈ right, a.1 = 0) :
    (ContiguousOffsetsWithBroadcast.mk l.startOffset (asUsize (extent mid))
      (asUsize (extent left)) (asUsize (extent right))).expand = l.addresses.map asUsize := by
  have hprod : extent left * (extent mid * extent right) = l.shape.dims.prod := by
    rw [← extent_append, ← extent_append, ← heq, h.machine.extent_axes]
  have hcount := h.count
  rcases Nat.eq_zero_or_pos l.shape.dims.prod with hzero | hpos
  · -- no offsets: one of the three lengths is zero, and stays so in a word
    rw [addresses_of_prod_eq_zero hzero, List.map_nil]
    apply expand_eq_nil
    rw [hzero, Nat.mul_eq_zero, Nat.mul_eq_zero] at hprod
    rcases hprod with h0 | h0 | h0
    · exact .inl (by rw [h0]; rfl)
    · exact .inr (.inl (by rw [h0]; rfl))
    · exact .inr (.inr (by rw [h0]; rfl))
  rw [← hprod] at hpos hcount
  have hl := Nat.pos_of_mul_pos_right hpos
  have hmr := Nat.pos_of_mul_pos_left hpos
  have hm := Nat.pos_of_mul_pos_right hmr
  have hr := Nat.pos_of_mul_pos_left hmr
  have hmr64 := Nat.lt_of_le_of_lt (Nat.le_mul_of_pos_left _ hl) hcount
  rw [h.machine.addresses_eq, heq, map_asUsize_broadcast hleft hmid hright,
    h.machine.asUsize_startOffset,
    asUsize_of_lt_limit (Nat.lt_of_le_of_lt (Nat.le_mul_of_pos_right _ hmr) hcount),
    asUsize_of_lt_limit (Nat.lt_of_le_of_lt (Nat.le_mul_of_pos_right _ hr) hmr64),
    asUsize_of_lt_limit (Nat.lt_of_le_of_lt (Nat.le_mul_of_pos_left _ hm) hmr64)]
  rfl

theorem Fits.offsetsB :
    ∃ o, (l.offsetsB build : Method Empty Unit _) () = .ok o () ∧
      ∀ c, o = some c → c.expand = l.addresses.map asUsize := by
  obtain ⟨left, rest, hsplit, hleft, hhead, hrunLeft⟩ :=
    broadcastRun_spec (ε := Empty) (σ := Unit) l.axes 0 1 h.leading_axes
  have hlength : l.axes.length = l.shape.dims.length := by
    rw [← h.machine.map_snd, List.length_map]
  rw [Nat.zero_add, Nat.one_mul] at hrunLeft
  unfold Layout.offsetsB
  rw [show l.stride.zip l.shape.dims = l.axes from rfl, show (1 : Nat) = asUsize (1 : Nat) from rfl,
    hrunLeft, pure_bind]
  dsimp only
  by_cases hall : left.length = l.shape.dims.length
  · have hrest : rest = [] := by
      rw [← hlength, hsplit, List.length_append] at hall
      exact List.length_eq_zero_iff.mp (by omega)
    refine ⟨_, by rw [if_pos hall]; rfl, ?_⟩
    intro c hc
    cases hc
    have hsplit : l.axes = left ++ (([] : List (Int × Nat)) ++ []) := by rw [hsplit, hrest]; rfl
    exact h.expand hsplit hleft trivial (by simp)
  have hne : rest ≠ [] := by
    rintro rfl
    rw [List.append_nil] at hsplit
    exact hall (by rw [← hlength, hsplit])
  have hstrided : ∃ s ∈ l.stride, s ≠ 0 := by
    obtain ⟨a, tail, rfl⟩ := List.exists_cons_of_ne_nil hne
    refine ⟨a.1, ?_, hhead a rfl⟩
    rw [← h.machine.map_fst, hsplit]
    simp
  obtain ⟨zeros, rest', hsplit', hzeros, -, hrunRight⟩ := broadcastRun_spec (ε := Empty) (σ := Unit)
    l.axes.reverse 0 1 (h.trailing_axes hstrided)
  rw [Nat.zero_add, Nat.one_mul] at hrunRight
  have hright : l.axes = rest'.reverse ++ zeros.reverse := by
    rw [← List.reverse_append, ← hsplit', List.reverse_reverse]
  have hzeros' : ∀ a ∈ zeros.reverse, a.1 = 0 := fun a ha => hzeros a (List.mem_reverse.mp ha)
  obtain ⟨mid, rfl⟩ := right_of_left hsplit hright hne hhead hzeros'
  have hend : l.shape.dims.length - zeros.length = left.length + mid.length := by
    rw [← hlength, hsplit]
    simp only [List.length_append, List.length_reverse]
    omega
  have hslice : ∀ {α : Type} (f : Int × Nat → α), (slice (l.axes.map f) left.length
      (left.length + mid.length) : Method Empty Unit (List α)) = pure (mid.map f) := by
    intro α f
    rw [slice, if_pos ⟨by omega, by rw [hsplit]; simp⟩, hsplit, List.map_append,
      List.map_append]
    simp
  have hstrides := hslice Prod.fst
  have hdims := hslice Prod.snd
  rw [h.machine.map_fst] at hstrides
  rw [h.machine.map_snd] at hdims
  obtain ⟨o, hinner, ho⟩ := innerLen_spec (ε := Empty) (σ := Unit) mid.reverse [] trivial (by
    intro outer inner heq hinner
    rw [List.reverse_reverse, List.append_nil] at heq
    have hwhole : l.axes = left ++ outer ++ (inner ++ zeros.reverse) := by rw [hsplit, heq]; simp
    exact (h.run hwhole hinner hzeros').2)
  rw [List.reverse_reverse, List.append_nil] at ho
  have hzip : (mid.map Prod.fst).zip (mid.map Prod.snd) = mid := (List.zip_of_prod rfl rfl).symm
  rw [if_neg hall, hrunRight, pure_bind]
  rw [hend, hstrides, pure_bind, hdims, pure_bind, hzip, show (asUsize (1 : Nat)) =
    asUsize (extent []) from rfl, hinner, pure_bind]
  refine ⟨_, rfl, ?_⟩
  intro c hc
  obtain ⟨len, hlen, rfl⟩ := Option.map_eq_some_iff.mp hc
  obtain ⟨rfl, hmid⟩ := ho len hlen
  have hext : extent zeros = extent zeros.reverse := by
    simp [extent, List.prod_reverse]
  rw [hext]
  exact h.expand hsplit hleft hmid hzeros'

theorem Fits.walksAgree : l.WalksAgree build where
  count := by rw [addresses, List.length_map, length_indices]
  walk := h.walk
  blocks := h.stridedBlocks
  broadcast := h.offsetsB
  contiguous := h.isContiguous

omit h

/-- The count of the elements to come is a word. -/
theorem WalksAgree.prod_lt (h : l.WalksAgree .release) : l.shape.dims.prod < 2 ^ 64 := by
  obtain ⟨it, hit, hwalk⟩ := h.walk
  have hrem := hwalk.holds
  rw [List.length_map, h.count] at hrem
  rw [fromLayout, StridedIndex.new, product_eq fun _ _ => .inl rfl, pure_bind] at hit
  cases hit
  rw [← hrem, asUsize_natCast]
  exact Nat.mod_lt _ (by decide)

/-- Without overflow checks, the walk and its shortcuts agree exactly on the layouts
whose number of elements is a word; with them, on those whose box stays in range of
`isize`. -/
theorem walks_agree_iff (l : Layout) (hl : l.Machine) :
    (l.WalksAgree .release ↔ l.shape.dims.prod < 2 ^ 64) ∧ (l.Exact → l.WalksAgree .debug) := by
  refine ⟨⟨WalksAgree.prod_lt, ?_⟩, ?_⟩
  · intro hcount
    exact Fits.walksAgree ⟨hl, hcount, fun h => nomatch h⟩
  · intro hexact
    exact Fits.walksAgree ⟨hl, hexact.leading _ (List.prefix_refl _), fun _ => hexact⟩

/-- Two rows of three, read backwards row by row. -/
theorem flipped_rows_walks_agree :
    (Layout.mk (.ofDims [2, 3]) [-3, 1] 3).WalksAgree .release ∧
      (Layout.mk (.ofDims [2, 3]) [-3, 1] 3).WalksAgree .debug := by
  have hl : (Layout.mk (.ofDims [2, 3]) [-3, 1] 3).Machine :=
    ⟨rfl, by decide, by decide, by decide⟩
  obtain ⟨hrelease, hdebug⟩ := walks_agree_iff _ hl
  have haddress : ∀ idx ∈ indices [2, 3], 0 ≤ (Layout.mk (.ofDims [2, 3]) [-3, 1] 3).address idx ∧
    (Layout.mk (.ofDims [2, 3]) [-3, 1] 3).address idx < 2 ^ 63 := by decide
  have hextent : ∀ axes ∈ [((-3 : Int), 2), (1, 3)].sublists, extent axes < 2 ^ 63 := by decide
  refine ⟨hrelease.mpr (by decide), hdebug ⟨by decide, ?_, ?_, ?_, ?_⟩⟩
  · exact fun idx hidx => haddress idx (mem_indices.mpr hidx)
  · intro outer inner zeros heq _ _
    refine hextent inner (List.mem_sublists.mpr ?_)
    have hsub : inner.Sublist (outer ++ (inner ++ zeros)) :=
      (List.sublist_append_left _ _).trans (List.sublist_append_right _ _)
    rwa [← heq] at hsub
  · have hleading : ∀ p ∈ [2, 3].inits, p.prod < 2 ^ 64 := by decide
    exact fun p hp => hleading p ((List.mem_inits p _).mpr hp)
  · intro _ rest zeros heq _
    have hsub : zeros.Sublist (rest ++ zeros) := List.sublist_append_right _ _
    rw [← heq] at hsub
    have hlt := hextent zeros (List.mem_sublists.mpr hsub)
    omega

/-- A scalar broadcast to `2 ^ 64` elements: the element count wraps to zero, and the
walk ends at once; a checked build aborts. -/
theorem broadcast_count_overflows : ∃ l : Layout,
    (Layout.contiguous (.ofDims [1, 1])).broadcastAs (.ofDims [2 ^ 32, 2 ^ 32]) = some l ∧
    l.Machine ∧ l.addresses.length = 2 ^ 64 ∧
    (∃ it, (fromLayout .release l : Method Empty Unit StridedIndex) () = .ok it () ∧
      Walk .release (fun _ _ => True) it []) ∧
    (fromLayout .debug l : Method Empty Unit StridedIndex) () = .abort .mulOverflow ∧
    ¬ l.WalksAgree .release ∧ ¬ l.WalksAgree .debug := by
  have hprod : (Layout.mk (.ofDims [2 ^ 32, 2 ^ 32]) [0, 0] 0).shape.dims.prod = 2 ^ 64 := by decide
  have habort : (fromLayout .debug (Layout.mk (.ofDims [2 ^ 32, 2 ^ 32]) [0, 0] 0) :
      Method Empty Unit StridedIndex) () = .abort .mulOverflow := by decide
  refine ⟨⟨.ofDims [2 ^ 32, 2 ^ 32], [0, 0], 0⟩, by decide, ⟨rfl, by decide, by decide, by decide⟩,
    ?_, ⟨⟨none, [0, 0], [2 ^ 32, 2 ^ 32], [0, 0], 0⟩, by decide, .done (next_of_none rfl) trivial⟩,
    habort, ?_, ?_⟩
  · rw [addresses, List.length_map, length_indices, hprod]
  · intro h
    have := h.prod_lt
    rw [hprod] at this
    exact Nat.lt_irrefl _ this
  · intro h
    obtain ⟨it, hit, -⟩ := h.walk
    rw [habort] at hit
    cases hit

end Layout

end Fuel.IR
