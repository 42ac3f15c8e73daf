import Fuel.IR.StridedIndex

/-!
# Chains of views

Each view operation of a layout reads the layout it is applied to: a multi-index
of the view stands for a multi-index of the viewed layout, and both have the same
offset. Along a chain of views that starts from a contiguous buffer, every
multi-index therefore stands for an element of the buffer, unless `narrow` was
given a start and a length whose sum is no `usize`.

The offsets of a view of no elements can lie outside the buffer; none of its
multi-indices is left to be mapped.
-/

namespace Fuel.IR

open Strided List Option Shape Layout

/-- A view operation with its arguments. -/
inductive ViewCall where
  | narrow (dim start len : Nat)
  | transpose (dim1 dim2 : Nat)
  | permute (idxs : List Nat)
  | unsqueeze (dim : Nat)
  | squeeze (dim : Nat)
  | flip (dim : Nat)
  | broadcastAs (shape : Shape)
  deriving DecidableEq, Repr

namespace ViewCall

def apply (l : Layout) : ViewCall → Option Layout
  | narrow dim start len => l.narrow dim start len
  | transpose dim1 dim2 => l.transpose dim1 dim2
  | permute idxs => l.permute idxs
  | unsqueeze dim => l.unsqueeze dim
  | squeeze dim => l.squeeze dim
  | flip dim => l.flip dim
  | broadcastAs shape => l.broadcastAs shape

/-- The multi-index of the viewed layout, of dimensions `dims`, that a multi-index
of the view stands for. -/
def back (dims idx : List Nat) : ViewCall → List Nat
  | narrow dim start _ => idx.modify dim (· + start)
  | transpose dim1 dim2 => Layout.swap idx dim1 dim2
  | permute idxs => (range dims.length).map fun axis => idx.getD (idxs.idxOf axis) 0
  | unsqueeze dim => idx.eraseIdx dim
  | squeeze dim => idx.insertIdx dim 0
  | flip dim => idx.modify dim (dims.getD dim 0 - 1 - ·)
  | broadcastAs shape =>
    zipWith (fun i d => if d = 1 then 0 else i) (idx.drop (shape.rank - dims.length)) dims

/-- The end of the range that `narrow` is asked for is a `usize`. -/
def EndFits : ViewCall → Prop
  | narrow _ start len => start + len < 2 ^ 64
  | _ => True

end ViewCall

open ViewCall

/-- The layouts that a chain of successful view operations, each with arguments that
are `allowed`, makes of a contiguous one, each with the map from its multi-indices back
to those of the original. -/
inductive Viewed (allowed : ViewCall → Prop) (shape : Shape) :
    Layout → (List Nat → List Nat) → Prop
  | contiguous : Viewed allowed shape (.contiguous shape) id
  | view {l l' : Layout} {back : List Nat → List Nat} {call : ViewCall} :
      Viewed allowed shape l back → call.apply l = some l' → allowed call →
      Viewed allowed shape l' fun idx => back (call.back l.shape.dims idx)

/-- `l'` reads `l`: its multi-indices stand for those of `l`, at the same offsets. -/
structure Layout.Reads (l' l : Layout) (back : List Nat → List Nat) : Prop where
  rank : l'.stride.length = l'.shape.dims.length
  within : ∀ idx, Within l'.shape.dims idx → Within l.shape.dims (back idx)
  address : ∀ idx, Within l'.shape.dims idx → l'.address idx = l.address (back idx)

/-- One stride per axis, and all offsets in range. -/
structure Layout.Ranged (l : Layout) (n : Nat) : Prop where
  rank : l.stride.length = l.shape.dims.length
  startOffset : l.startOffset < 2 ^ 64
  address : ∀ idx, Within l.shape.dims idx → 0 ≤ l.address idx ∧ l.address idx < n

/-! ## The single operations -/

namespace Layout

variable {l l' : Layout} {n : Nat} {shift : Int} {k dim i j : Nat} {idxs : List Nat}

theorem shiftOffset_eq {offset : Nat} (h0 : 0 ≤ offset + shift) (h : offset + shift < 2 ^ 64) :
    (shiftOffset offset shift : Int) = offset + shift := by
  unfold shiftOffset
  rw [Int.emod_eq_of_lt h0 h, Int.toNat_of_nonneg h0]

variable (h : l.Ranged n)

include h

/-- A shifted start is exact when it is the offset of an element. -/
theorem Ranged.shift_eq (hn : n ≤ 2 ^ 63) {idx : List Nat} (hidx : Within l.shape.dims idx)
    (haddr : l.address idx = l.startOffset + shift) :
    (shiftOffset l.startOffset shift : Int) = l.startOffset + shift := by
  obtain ⟨h0, hlt⟩ := h.address idx hidx
  rw [haddr] at h0 hlt
  exact shiftOffset_eq h0 (by omega)

omit h in
theorem getD_of_getElem? {xs : List Nat} {x : Nat} (h : xs[k]? = some x) : xs.getD k 0 = x := by
  rw [getD_eq_getElem?_getD, h, getD_some]

theorem narrow_reads (hn : n ≤ 2 ^ 63) {start len : Nat} (hend : start + len < 2 ^ 64)
    (happly : l.narrow dim start len = some l') :
    l'.Reads l ((ViewCall.narrow dim start len).back l.shape.dims ·) := by
  obtain ⟨size, hsize, happly⟩ := bind_eq_some_iff.mp happly
  obtain ⟨hdim, hget⟩ := List.getElem?_eq_some_iff.mp hsize
  rw [Nat.mod_eq_of_lt hend] at happly
  split at happly
  · cases happly
  cases happly
  have hstride : l.stride.getD dim 0 = l.stride[dim]?.getD 0 := getD_eq_getElem?_getD
  have hwithin : ∀ idx, Within (l.shape.dims.set dim len) idx →
      Within l.shape.dims (idx.modify dim (· + start)) := by
    intro idx hidx
    refine within_modify _ hidx fun i hi => ?_
    rw [getD_of_getElem? hsize]
    omega
  have hdot : ∀ idx, Within (l.shape.dims.set dim len) idx →
      dot (idx.modify dim (· + start)) l.stride =
        dot idx l.stride + l.stride[dim]?.getD 0 * start := by
    intro idx hidx
    rw [dot_modify _ (by rw [hidx.length_eq, length_set]; exact hdim)]
    push_cast
    rw [hstride]
    ring
  refine ⟨by simpa [ofDims] using h.rank, hwithin, ?_⟩
  intro idx hidx
  -- the shifted start is the offset of the first element of the view
  have horigin := within_origin hidx.pos
  have hshift := h.shift_eq hn (hwithin _ horigin)
    (by rw [address, hdot _ horigin, dot_origin, zero_add])
  show _ + dot idx l.stride = l.startOffset + dot (idx.modify dim (· + start)) l.stride
  rw [hshift, hdot idx hidx]
  ring

theorem flip_reads (hn : n ≤ 2 ^ 63) (happly : l.flip dim = some l') :
    l'.Reads l ((ViewCall.flip dim).back l.shape.dims ·) := by
  obtain ⟨size, hsize, happly⟩ := bind_eq_some_iff.mp happly
  obtain ⟨hdim, hget⟩ := List.getElem?_eq_some_iff.mp hsize
  cases happly
  have hdim' : dim < l.stride.length := by
    rw [h.rank]
    exact hdim
  have hgetD : l.shape.dims.getD dim 0 = size := getD_of_getElem? hsize
  have hstride : l.stride.getD dim 0 = l.stride[dim]?.getD 0 := getD_eq_getElem?_getD
  have hself : l.shape.dims.set dim size = l.shape.dims := by
    rw [← hget, set_getElem_self]
  have hwithin : ∀ idx, Within l.shape.dims idx →
      Within l.shape.dims (idx.modify dim (l.shape.dims.getD dim 0 - 1 - ·)) := by
    intro idx hidx
    rw [← hself] at hidx
    refine within_modify _ hidx fun i hi => ?_
    rw [hgetD]
    omega
  have hdot : ∀ idx, Within l.shape.dims idx →
      dot (idx.modify dim (l.shape.dims.getD dim 0 - 1 - ·)) l.stride =
        dot idx (l.stride.set dim (-(l.stride[dim]?.getD 0))) +
          (if size > 1 then (size - 1) * l.stride[dim]?.getD 0 else 0 : Int) := by
    intro idx hidx
    obtain ⟨hlen, hall⟩ := within_iff.mp hidx
    have hi := hall dim hdim
    rw [hgetD] at hi ⊢
    rw [dot_modify _ (by rw [hlen]; exact hdim), dot_set _ hdim', hstride]
    have hcast : ((size - 1 - idx.getD dim 0 : Nat) : Int) = size - 1 - idx.getD dim 0 := by omega
    -- an axis of one position is not shifted, and a shift by zero positions is none
    have hshift : (if size > 1 then (size - 1) * l.stride[dim]?.getD 0 else 0 : Int) =
        (size - 1) * l.stride[dim]?.getD 0 := by
      split
      · rfl
      · have : size = 1 := by omega
        simp [this]
    rw [hshift, hcast]
    ring
  refine ⟨by simpa using h.rank, hwithin, ?_⟩
  intro idx hidx
  have horigin := within_origin hidx.pos
  have hshift := h.shift_eq hn (hwithin _ horigin)
    (by rw [address, hdot _ horigin, dot_origin, zero_add])
  show _ + dot idx (l.stride.set dim _) = l.startOffset +
    dot (idx.modify dim (l.shape.dims.getD dim 0 - 1 - ·)) l.stride
  rw [hshift, hdot idx hidx]
  ring

theorem unsqueeze_reads (happly : l.unsqueeze dim = some l') :
    l'.Reads l ((ViewCall.unsqueeze dim).back l.shape.dims ·) := by
  unfold unsqueeze at happly
  split at happly
  · cases happly
  rename_i hdim
  cases happly
  have hdim : dim ≤ l.shape.dims.length := Nat.le_of_not_lt hdim
  refine ⟨?_, fun idx hidx => within_eraseIdx hdim hidx, ?_⟩
  · simp [ofDims, length_insertIdx, h.rank]
  · intro idx _
    show _ + dot idx (l.stride.insertIdx dim 0) = _ + dot (idx.eraseIdx dim) l.stride
    rw [dot_eraseIdx (by rw [h.rank]; exact hdim)]

theorem squeeze_reads (happly : l.squeeze dim = some l') :
    l'.Reads l ((ViewCall.squeeze dim).back l.shape.dims ·) := by
  obtain ⟨size, hsize, happly⟩ := bind_eq_some_iff.mp happly
  obtain ⟨hdim, -⟩ := List.getElem?_eq_some_iff.mp hsize
  split at happly
  · cases happly
  rename_i hone
  cases happly
  have hone : size = 1 := by simpa using hone
  refine ⟨?_, fun idx hidx => within_insertIdx hsize (by omega) hidx, ?_⟩
  · simp [ofDims, length_eraseIdx, h.rank]
  · intro idx hidx
    show _ + dot idx (l.stride.eraseIdx dim) = _ + dot (idx.insertIdx dim 0) l.stride
    have hlen : dim ≤ idx.length := by
      rw [hidx.length_eq]
      simp only [ofDims, length_eraseIdx, hdim, if_true]
      omega
    rw [dot_insertIdx hlen]

omit h

/-- Where a position of an exchanged list comes from. -/
def exchanged (i j k : Nat) : Nat := if k = j then i else if k = i then j else k

theorem getD_swap {α : Type} [Inhabited α] {xs : List α} (hi : i < xs.length) (hj : j < xs.length)
    (k : Nat) : (swap xs i j).getD k default = xs.getD (exchanged i j k) default := by
  unfold swap exchanged
  by_cases hkj : k = j
  · subst hkj
    rw [if_pos rfl, getD_eq_getElem?_getD,
      getElem?_set_self (by rw [length_set]; exact hj), getD_some]
  · rw [if_neg hkj, getD_eq_getElem?_getD, getElem?_set_ne (Ne.symm hkj)]
    by_cases hki : k = i
    · subst hki
      rw [if_pos rfl, getElem?_set_self hi, getD_some]
    · rw [if_neg hki, getElem?_set_ne (Ne.symm hki), getD_eq_getElem?_getD]

theorem exchanged_exchanged (i j k : Nat) : exchanged i j (exchanged i j k) = k := by
  unfold exchanged
  split_ifs <;> omega

theorem exchanged_lt {n : Nat} (hi : i < n) (hj : j < n) (hk : k < n) : exchanged i j k < n := by
  unfold exchanged
  split_ifs <;> assumption

theorem length_swap {α : Type} [Inhabited α] (xs : List α) (i j : Nat) :
    (swap xs i j).length = xs.length := by
  simp [swap]

theorem transpose_reads (h : l.Ranged n) {dim1 dim2 : Nat}
    (happly : l.transpose dim1 dim2 = some l') :
    l'.Reads l ((ViewCall.transpose dim1 dim2).back l.shape.dims ·) := by
  unfold transpose at happly
  split at happly
  · cases happly
  rename_i hdims
  cases happly
  obtain ⟨h1, h2⟩ : dim1 < l.shape.dims.length ∧ dim2 < l.shape.dims.length := by
    simpa [rank] using hdims
  have hlength : ∀ {idx : List Nat}, Within (swap l.shape.dims dim1 dim2) idx →
      idx.length = l.shape.dims.length := fun hidx => by rw [hidx.length_eq, length_swap]
  refine ⟨by simp [ofDims, length_swap, h.rank], ?_, ?_⟩
  · intro idx hidx
    have hlen := hlength hidx
    refine within_iff.mpr ⟨by rw [ViewCall.back, length_swap, hlen], ?_⟩
    intro k hk
    have hk' := (within_iff.mp hidx).2 (exchanged dim1 dim2 k)
      (by rw [ofDims, length_swap]; exact exchanged_lt h1 h2 hk)
    have hidx' : (swap idx dim1 dim2).getD k default = idx.getD (exchanged dim1 dim2 k) default :=
      getD_swap (by rw [hlen]; exact h1) (by rw [hlen]; exact h2) k
    have hdims' := getD_swap h1 h2 (exchanged dim1 dim2 k)
    rw [exchanged_exchanged] at hdims'
    show (swap idx dim1 dim2).getD k default < _
    rw [hidx']
    exact hdims' ▸ hk'
  · intro idx hidx
    have hlen := hlength hidx
    show _ + dot idx (swap l.stride dim1 dim2) = _ + dot (swap idx dim1 dim2) l.stride
    congr 1
    have hpos : ∀ k < idx.length, exchanged dim1 dim2 k < idx.length ∧
        exchanged dim1 dim2 (exchanged dim1 dim2 k) = k := fun k hk =>
      ⟨exchanged_lt (by omega) (by omega) hk, exchanged_exchanged _ _ k⟩
    symm
    refine dot_reindex (length_swap ..) hpos hpos ?_ ?_
    · exact fun k _ => getD_swap (by omega) (by omega) k
    intro k _
    have h1' : dim1 < l.stride.length := by
      rw [h.rank]
      exact h1
    have h2' : dim2 < l.stride.length := by
      rw [h.rank]
      exact h2
    have hs := getD_swap h1' h2' (exchanged dim1 dim2 k)
    rw [exchanged_exchanged] at hs
    exact hs.symm

/-- The source's check of `permute` accepts exactly the permutations. -/
theorem perm_range_of_check (h : ∀ i < idxs.length, i ∈ idxs) :
    (range idxs.length).Perm idxs := by
  have hsub : (range idxs.length).Subperm idxs :=
    subperm_of_subset nodup_range fun i hi => h i (mem_range.mp hi)
  exact hsub.perm_of_length_le (by simp)

theorem permute_reads (happly : l.permute idxs = some l') :
    l'.Reads l ((ViewCall.permute idxs).back l.shape.dims ·) := by
  unfold permute at happly
  split at happly
  swap
  · cases happly
  rename_i hcheck
  cases happly
  obtain ⟨hrank, hall⟩ := hcheck
  have hrank : idxs.length = l.shape.dims.length := hrank
  have hperm := perm_range_of_check hall
  have hnodup : idxs.Nodup := hperm.nodup_iff.mp nodup_range
  have hlt : ∀ axis ∈ idxs, axis < idxs.length := fun axis hmem =>
    mem_range.mp (hperm.mem_iff.mpr hmem)
  have hgetD : ∀ k < idxs.length, idxs.getD k 0 ∈ idxs ∧ idxs.idxOf (idxs.getD k 0) = k := by
    intro k hk
    have : idxs.getD k 0 = idxs[k] := by simp [getD_eq_getElem?_getD, hk]
    rw [this]
    exact ⟨getElem_mem hk, hnodup.idxOf_getElem k hk⟩
  have hidxOf : ∀ axis < idxs.length, idxs.idxOf axis < idxs.length ∧
      idxs.getD (idxs.idxOf axis) 0 = axis := by
    intro axis haxis
    have hpos := idxOf_lt_length_of_mem (hall axis haxis)
    refine ⟨hpos, ?_⟩
    simp [getD_eq_getElem?_getD, hpos]
  have hback : ∀ (idx : List Nat), ∀ axis < l.shape.dims.length,
      ((ViewCall.permute idxs).back l.shape.dims idx).getD axis 0 =
        idx.getD (idxs.idxOf axis) 0 := by
    intro idx axis haxis
    simp [back, getD_eq_getElem?_getD, haxis]
  have hmap : ∀ {α : Type} (f : Nat → α) (d : α), ∀ k < idxs.length,
      (idxs.map f).getD k d = f (idxs.getD k 0) := by
    intro α f d k hk
    simp [getD_eq_getElem?_getD, hk]
  refine ⟨by simp [ofDims], ?_, ?_⟩
  · intro idx hidx
    refine within_iff.mpr ⟨by simp [ViewCall.back], ?_⟩
    intro axis haxis
    obtain ⟨hpos, haxis'⟩ := hidxOf axis (by omega)
    have hk := (within_iff.mp hidx).2 (idxs.idxOf axis) (by simpa [ofDims] using hpos)
    rw [hback idx axis haxis]
    rwa [ofDims, hmap _ _ _ hpos, haxis'] at hk
  intro idx hidx
  have hlen : idx.length = idxs.length := by
    rw [hidx.length_eq]
    simp [ofDims]
  show _ + dot idx (idxs.map fun i => l.stride.getD i 0) = _ + dot _ l.stride
  congr 1
  have hblen : ((ViewCall.permute idxs).back l.shape.dims idx).length = idxs.length := by
    simp [ViewCall.back, hrank]
  refine dot_reindex (f := (idxs.getD · 0)) (g := idxs.idxOf) (by rw [hblen, hlen]) ?_ ?_ ?_ ?_
  · intro k hk
    rw [hblen] at hk ⊢
    exact ⟨hlt _ (hgetD k hk).1, (hgetD k hk).2⟩
  · intro axis haxis
    rw [hblen] at haxis ⊢
    exact hidxOf axis haxis
  · intro k hk
    rw [hblen] at hk
    have hax := hlt _ (hgetD k hk).1
    rw [hback idx _ (by omega), (hgetD k hk).2]
  · intro k hk
    rw [hblen] at hk
    exact hmap _ _ k hk

/-- The strides of stretched axes, and the components of a multi-index on them. -/
theorem broadcast_axes {target dims : List Nat} {stride stride' : List Int}
    (hlen : target.length = dims.length) (hrank : stride.length = dims.length)
    (h : ((target.zip (dims.zip stride)).mapM fun e => broadcastStride e.1 e.2.1 e.2.2) =
      some stride') :
    stride'.length = target.length ∧ ∀ idx, Within target idx →
      Within dims (zipWith (fun i d => if d = 1 then 0 else i) idx dims) ∧
      dot idx stride' =
        dot (zipWith (fun i d => if d = 1 then 0 else i) idx dims) stride := by
  induction target generalizing dims stride stride' with
  | nil =>
    cases h
    obtain rfl := length_eq_zero_iff.mp hlen.symm
    refine ⟨rfl, ?_⟩
    intro idx hidx
    cases hidx
    exact ⟨.nil, by simp⟩
  | cons t target ih =>
    cases dims with
    | nil => simp at hlen
    | cons d dims =>
      cases stride with
      | nil => simp at hrank
      | cons s stride =>
        simp only [zip_cons_cons, mapM_cons] at h
        obtain ⟨s', hs', h⟩ := bind_eq_some_iff.mp h
        obtain ⟨rest, hrest, h⟩ := bind_eq_some_iff.mp h
        cases h
        obtain ⟨hlength, hidx⟩ := ih (by simpa using hlen) (by simpa using hrank) hrest
        refine ⟨by simp [hlength], ?_⟩
        intro idx hw
        cases hw with
        | @cons i _ idx _ hi hw =>
          obtain ⟨hwithin, hdot⟩ := hidx idx hw
          unfold broadcastStride at hs'
          split at hs'
          · rename_i htd
            cases hs'
            refine ⟨.cons (by dsimp only; split <;> omega) hwithin, ?_⟩
            rw [zipWith_cons_cons, dot_cons, dot_cons, hdot]
            split
            · have : i = 0 := by omega
              simp [this]
            · rfl
          split at hs'
          · cases hs'
          · rename_i hone
            have hone : d = 1 := by simpa using hone
            cases hs'
            refine ⟨.cons (by simp [hone]) hwithin, ?_⟩
            rw [zipWith_cons_cons, dot_cons, dot_cons, hdot, if_pos hone]
            simp

theorem broadcastAs_reads (h : l.Ranged n) {shape : Shape} (happly : l.broadcastAs shape = some l') :
    l'.Reads l ((ViewCall.broadcastAs shape).back l.shape.dims ·) := by
  unfold broadcastAs at happly
  split at happly
  · cases happly
  rename_i hrank
  obtain ⟨stride, hstride, happly⟩ := bind_eq_some_iff.mp happly
  cases happly
  have hle : l.shape.dims.length ≤ shape.dims.length := Nat.le_of_not_lt hrank
  have hdrop : (shape.dims.drop (shape.rank - l.shape.rank)).length = l.shape.dims.length := by
    rw [length_drop]
    unfold rank
    omega
  obtain ⟨hlength, hidx⟩ := broadcast_axes hdrop h.rank hstride
  have hsplit : ∀ {idx : List Nat}, Within shape.dims idx →
      Within (shape.dims.drop (shape.rank - l.shape.rank))
        (idx.drop (shape.rank - l.shape.rank)) := by
    intro idx hw
    exact forall₂_drop _ hw
  refine ⟨?_, fun idx hw => (hidx _ (hsplit hw)).1, ?_⟩
  · simp only [length_append, length_replicate, hlength, hdrop]
    unfold rank
    omega
  intro idx hw
  show _ + dot idx (replicate _ 0 ++ stride) = _ + dot _ l.stride
  have hlen : idx.length = shape.dims.length := hw.length_eq
  have htake : (idx.take (shape.rank - l.shape.rank)).length =
      (replicate (shape.rank - l.shape.rank) (0 : Int)).length := by
    rw [length_take, length_replicate, hlen]
    unfold rank
    omega
  have hdot : dot idx (replicate (shape.rank - l.shape.rank) 0 ++ stride) =
      dot (idx.drop (shape.rank - l.shape.rank)) stride := by
    conv_lhs => rw [← take_append_drop (shape.rank - l.shape.rank) idx]
    rw [dot_append htake, dot_of_zero (fun s hs => eq_of_mem_replicate hs), zero_add]
  rw [hdot, (hidx _ (hsplit hw)).2]
  rfl

/-! ## Chains -/

theorem apply_reads (h : l.Ranged n) (hn : n ≤ 2 ^ 63) {call : ViewCall} (hend : call.EndFits)
    (happly : call.apply l = some l') :
    l'.Reads l (call.back l.shape.dims ·) ∧ l'.startOffset < 2 ^ 64 := by
  have hshift : ∀ offset shift, shiftOffset offset shift < 2 ^ 64 := by
    intro offset shift
    unfold shiftOffset
    omega
  cases call with
  | narrow dim start len =>
    refine ⟨narrow_reads h hn hend happly, ?_⟩
    obtain ⟨_, _, happly⟩ := bind_eq_some_iff.mp happly
    split at happly
    · cases happly
    · cases happly
      exact hshift _ _
  | transpose dim1 dim2 =>
    refine ⟨transpose_reads h happly, ?_⟩
    simp only [apply, transpose] at happly
    split at happly
    · cases happly
    · cases happly
      exact h.startOffset
  | permute idxs =>
    refine ⟨permute_reads happly, ?_⟩
    simp only [apply, permute] at happly
    split at happly
    · cases happly
      exact h.startOffset
    · cases happly
  | unsqueeze dim =>
    refine ⟨unsqueeze_reads h happly, ?_⟩
    simp only [apply, unsqueeze] at happly
    split at happly
    · cases happly
    · cases happly
      exact h.startOffset
  | squeeze dim =>
    refine ⟨squeeze_reads h happly, ?_⟩
    obtain ⟨_, _, happly⟩ := bind_eq_some_iff.mp happly
    split at happly
    · cases happly
    · cases happly
      exact h.startOffset
  | flip dim =>
    refine ⟨flip_reads h hn happly, ?_⟩
    obtain ⟨_, _, happly⟩ := bind_eq_some_iff.mp happly
    cases happly
    exact hshift _ _
  | broadcastAs shape =>
    refine ⟨broadcastAs_reads h happly, ?_⟩
    simp only [apply, broadcastAs] at happly
    split at happly
    · cases happly
    · obtain ⟨_, _, happly⟩ := bind_eq_some_iff.mp happly
      cases happly
      exact h.startOffset

/-- A layout that reads a ranged one is ranged. -/
theorem Reads.ranged {back : List Nat → List Nat} (h : l'.Reads l back) (hl : l.Ranged n)
    (hstart : l'.startOffset < 2 ^ 64) : l'.Ranged n where
  rank := h.rank
  startOffset := hstart
  address idx hidx := by
    rw [h.address idx hidx]
    exact hl.address _ (h.within idx hidx)

theorem strideContiguous_cons (d : Nat) (dims : List Nat) :
    (ofDims (d :: dims)).strideContiguous =
      (dims.prod : Int) :: (ofDims dims).strideContiguous := by
  cases dims <;> simp [strideContiguous, ofDims]

theorem rowMajor_contiguous (dims : List Nat) :
    RowMajor dims (ofDims dims).strideContiguous := by
  induction dims with
  | nil => trivial
  | cons d dims ih =>
    rw [strideContiguous_cons]
    exact ⟨fun _ => by push_cast; rfl, ih⟩

theorem contiguous_ranged (shape : Shape) : (contiguous shape).Ranged shape.dims.prod where
  rank := by simp [contiguous, contiguousWithOffset, strideContiguous]
  startOffset := by simp [contiguous, contiguousWithOffset]
  address idx hidx := by
    have hmem : dot idx shape.strideContiguous ∈ offsets shape.dims shape.strideContiguous :=
      mem_map.mpr ⟨idx, mem_indices.mpr hidx, rfl⟩
    have hrow : RowMajor shape.dims shape.strideContiguous := rowMajor_contiguous shape.dims
    rw [offsets_rowMajor hrow] at hmem
    obtain ⟨k, hk, hdot⟩ := mem_map.mp hmem
    have hk := mem_range.mp hk
    show 0 ≤ ((0 : Nat) : Int) + dot idx shape.strideContiguous ∧
      ((0 : Nat) : Int) + dot idx shape.strideContiguous < _
    rw [← hdot]
    omega

end Layout

namespace Viewed

variable {shape : Shape} {l : Layout} {back : List Nat → List Nat}

/-- What a chain of views keeps. -/
theorem reads (h : Viewed EndFits shape l back) (hn : shape.dims.prod ≤ 2 ^ 63) :
    l.Ranged shape.dims.prod ∧ l.Reads (.contiguous shape) back := by
  induction h with
  | contiguous =>
    have hranged := contiguous_ranged shape
    exact ⟨hranged, hranged.rank, fun _ hidx => hidx, fun _ _ => rfl⟩
  | view hview happly hend ih =>
    obtain ⟨hranged, hreads⟩ := ih
    obtain ⟨hstep, hstart⟩ := apply_reads hranged hn hend happly
    refine ⟨hstep.ranged hranged hstart, hstep.rank, ?_, ?_⟩
    · exact fun idx hidx => hreads.within _ (hstep.within idx hidx)
    · intro idx hidx
      rw [hstep.address idx hidx, hreads.address _ (hstep.within idx hidx)]

end Viewed

namespace Layout

variable {l : Layout} {n : Nat} {dim : Nat} {l' : Layout}

theorem flip_flip (h : l.Ranged n) (hflip : l.flip dim = some l') : l'.flip dim = some l := by
  obtain ⟨size, hsize, hflip⟩ := bind_eq_some_iff.mp hflip
  cases hflip
  have hdim : dim < l.stride.length := by
    rw [h.rank]
    exact (List.getElem?_eq_some_iff.mp hsize).1
  have hget : (l.stride.set dim (-(l.stride[dim]?.getD 0)))[dim]?.getD 0 =
      -(l.stride[dim]?.getD 0) := by
    rw [getElem?_set_self hdim, getD_some]
  have hstride : (l.stride.set dim (-(l.stride[dim]?.getD 0))).set dim
      (- -(l.stride[dim]?.getD 0)) = l.stride := by
    rw [set_set, neg_neg, getElem?_eq_getElem hdim, getD_some,
      set_getElem_self]
  have hoffset : ∀ shift : Int, shiftOffset (shiftOffset l.startOffset shift) (-shift) =
      l.startOffset := by
    intro shift
    have := h.startOffset
    unfold shiftOffset
    omega
  have hneg : (if size > 1 then ((size : Int) - 1) * -(l.stride[dim]?.getD 0) else 0) =
      -(if size > 1 then ((size : Int) - 1) * l.stride[dim]?.getD 0 else 0) := by
    split <;> ring
  simp only [flip, hsize, bind_eq_bind, bind_some, hget, hstride, hneg, hoffset]

theorem squeeze_unsqueeze (hl' : l.unsqueeze dim = some l') : ∃ l'', l'.squeeze dim = some l'' ∧
      l''.shape.dims = l.shape.dims ∧ l''.stride = l.stride ∧ l''.startOffset = l.startOffset := by
  unfold unsqueeze at hl'
  split at hl'
  · cases hl'
  rename_i hdim
  cases hl'
  have hdim : dim ≤ l.shape.dims.length := Nat.le_of_not_lt hdim
  refine ⟨⟨.ofDims l.shape.dims, l.stride, l.startOffset⟩, ?_, rfl, rfl, rfl⟩
  have hget : (l.shape.dims.insertIdx dim 1)[dim]? = some 1 := by
    rw [getElem?_insertIdx_self, if_pos hdim]
  simp [squeeze, ofDims, hget]

end Layout

/-- **Views stay inside their storage.** After any chain of successful views of a
contiguous buffer that asks for no range past the end of `usize`, a multi-index has its
offset inside the buffer, at the element it stands for; flipping twice changes nothing,
and an inserted axis dropped again leaves all addresses. -/
theorem views_address_their_storage {shape : Shape} (hsize : shape.dims.prod ≤ 2 ^ 63)
    {l : Layout} {back : List Nat → List Nat} (h : Viewed EndFits shape l back) :
    (∀ idx, Within l.shape.dims idx →
      (0 ≤ l.address idx ∧ l.address idx < shape.dims.prod) ∧
      Within shape.dims (back idx) ∧
      l.address idx = (contiguous shape).address (back idx)) ∧
    (∀ dim l', l.flip dim = some l' → l'.flip dim = some l) ∧
    (∀ dim l', l.unsqueeze dim = some l' → ∃ l'', l'.squeeze dim = some l'' ∧
      l''.shape.dims = l.shape.dims ∧ ∀ idx, l''.address idx = l.address idx) := by
  obtain ⟨hranged, hreads⟩ := h.reads hsize
  refine ⟨?_, fun dim l' hflip => flip_flip hranged hflip, ?_⟩
  · exact fun idx hidx => ⟨hranged.address idx hidx, hreads.within idx hidx, hreads.address idx hidx⟩
  · intro dim l' hl'
    obtain ⟨l'', hsqueeze, hdims, hstride, hstart⟩ := squeeze_unsqueeze hl'
    refine ⟨l'', hsqueeze, hdims, ?_⟩
    intro idx
    rw [address, address, hstride, hstart]

/-- The last two rows of a matrix, bottom up and side by side. -/
theorem flipped_slice_addresses :
    Viewed EndFits (.ofDims [4, 3]) ⟨.ofDims [3, 2], [1, -3], 9⟩
      (fun idx => ((Layout.swap idx 0 1).modify 0 (2 - 1 - ·)).modify 0 (· + 2)) ∧
    (Layout.mk (.ofDims [3, 2]) [1, -3] 9).address [2, 1] =
      (contiguous (.ofDims [4, 3])).address [2, 2] := by
  have hviewed : Viewed EndFits (.ofDims [4, 3]) ⟨.ofDims [3, 2], [1, -3], 9⟩
      (fun idx => ((Layout.swap idx 0 1).modify 0 (2 - 1 - ·)).modify 0 (· + 2)) := by
    have hslice : (narrow 0 2 2).apply (.contiguous (.ofDims [4, 3])) =
      some ⟨.ofDims [2, 3], [3, 1], 6⟩ := by decide
    have hflip : (flip 0).apply ⟨.ofDims [2, 3], [3, 1], 6⟩ =
      some ⟨.ofDims [2, 3], [-3, 1], 9⟩ := by decide
    have hswap : (transpose 0 1).apply ⟨.ofDims [2, 3], [-3, 1], 9⟩ =
      some ⟨.ofDims [3, 2], [1, -3], 9⟩ := by decide
    have hend : (narrow 0 2 2).EndFits := show 2 + 2 < 2 ^ 64 by decide
    exact .view (.view (.view .contiguous hslice hend) hflip trivial) hswap trivial
  have hwithin : Within [3, 2] [2, 1] := mem_indices.mp (by decide)
  exact ⟨hviewed, ((views_address_their_storage (by decide) hviewed).1 _ hwithin).2.2⟩

/-- One element from the last `usize` on ends at zero, and is read in front of the buffer. -/
theorem narrow_past_usize_leaves_storage :
    ∃ l back, Viewed (fun _ => True) (.ofDims [4]) l back ∧ Within l.shape.dims [0] ∧
      l.address [0] = 2 ^ 64 - 1 := by
  have happly : (narrow 0 (2 ^ 64 - 1) 1).apply (.contiguous (.ofDims [4])) =
      some ⟨.ofDims [1], [1], 2 ^ 64 - 1⟩ := by decide
  exact ⟨_, _, .view .contiguous happly trivial, mem_indices.mp (by decide), by decide⟩

end Fuel.IR
