import Fuel.Jit.Recipe
import Fuel.Jit.ShapeCodec

/-!
# Canonical attribute bytes

`to_canonical_bytes` writes the attributes of an op as its tag lays them out:
fixed fields one after another, lists behind their count, no field names. An
unset field that the layout needs is an error. `tag_to_op` reads the same fields
back from the attributes, so bytes that agree stand for one op: each layout is a
prefix code in the fields it writes.
-/

namespace Fuel.Jit

open Fuel.IR Bytes

/-! ## The serializer -/

structure UnresolvedAttr where
  op : OpTag
  field : String
  deriving DecidableEq, Repr

/-- The field, which the layout of `op` needs. -/
def req {α : Type} (op : OpTag) (v : Option α) (field : String) : Except UnresolvedAttr α :=
  match v with
  | some x => .ok x
  | none => .error ⟨op, field⟩

def putU64 (x : UInt64) : List UInt8 := le 8 x.toNat

/-- A byte widened to `u32`. -/
def putAxis (x : UInt8) : List UInt8 := le 4 x.toNat

def putU8List (xs : List UInt8) : List UInt8 := counted (fun b => [b]) xs

def putStr (s : String) : List UInt8 := putU8List s.toUTF8.data.toList

/-- `leaf_body`: the layouts of leaves. -/
def leafBody (a : OpAttrs) (op : OpTag) : Except UnresolvedAttr (Option (List UInt8)) :=
  match op with
  | .const => (req op a.constBits "const_bits").map fun x => some (putU64 x)
  | .runtimeScalar => (req op a.slotIndex "slot_index").map fun x => some (le 4 x.toNat)
  | .reducedCount => (req op a.axis "axis").map fun x => some (i64ToLeBytes x)
  | .scanPlaceholder => do
    let role ← req op a.scanRole "scan_role"
    let index ← req op a.scanIndex "scan_index"
    .ok (some ([role] ++ le 4 index.toNat))
  | _ => .ok none

/-- `list_body`: the layouts that need no field to be set. -/
def listBody (a : OpAttrs) (op : OpTag) : Option (List UInt8) :=
  match op with
  | .reshape | .broadcastTo | .reduceSumTo | .reduceMaxTo | .iota =>
    some (counted i64ToLeBytes a.targetShape)
  | .permute | .transpose => some (counted putAxis a.perm)
  | .unsqueeze | .squeeze => some (counted putAxis a.dims)
  | .addScalar | .mulScalar | .clamp | .powI => some (counted putU64 a.scalars)
  | .matMul =>
    if a.lhsRoles ≠ [] ∨ a.rhsRoles ≠ [] then some (putU8List a.lhsRoles ++ putU8List a.rhsRoles)
    else some []
  | _ => none

/-- `has_empty_canonical_body`. -/
def hasEmptyCanonicalBody : OpTag → Bool
  | .addScalar | .mulScalar | .powI | .clamp | .maskedFill | .sumDim | .maxDim | .meanDim
  | .reduceSumTo | .reduceMaxTo | .cumSum | .matMul | .transpose | .permute | .reshape
  | .broadcastTo | .unsqueeze | .squeeze | .cast | .slice | .concat | .flip | .roll | .pad | .triu
  | .tril | .indexSelect | .gather | .indexAdd | .scatterAdd | .iota | .const | .runtimeScalar
  | .reducedCount | .scanPlaceholder => false
  | _ => true

/-- `declining_body`: the layouts with fields that may be unset. -/
def decliningBody (a : OpAttrs) (op : OpTag) : Except UnresolvedAttr (List UInt8) :=
  match op with
  | .slice => do
    let axis ← req op a.axis "axis"
    let start ← req op a.sliceStart "slice_start"
    let len ← req op a.sliceLen "slice_len"
    -- the axis is cut to a `u32`
    .ok (le 4 (axis % 2 ^ 32).toNat ++ (le 8 start ++ le 8 len))
  | .concat | .flip | .triu | .tril | .indexSelect | .gather | .indexAdd | .scatterAdd =>
    (req op a.axis "axis").map i64ToLeBytes
  | .roll => do
    let axis ← req op a.axis "axis"
    let shift ← req op a.rollShift "roll_shift"
    .ok (i64ToLeBytes axis ++ i64ToLeBytes shift)
  | .sumDim | .maxDim | .meanDim | .cumSum =>
    (req op a.axis "axis").map fun x => i64ToLeBytes x ++ [(a.keepdim.getD false).toUInt8]
  | .cast => (req op a.castDtype "cast_dtype").map putStr
  | .pad => do
    let mode ← req op a.padMode "pad_mode"
    .ok (counted (fun p => le 8 p.1 ++ le 8 p.2) a.padAmounts ++
      ([mode] ++ putU64 (a.padValue.getD 0)))
  | .maskedFill => do
    let dtype ← req op a.castDtype "cast_dtype"
    .ok (counted putU64 a.scalars ++ putStr dtype)
  | op =>
    if hasEmptyCanonicalBody op then .ok []
    else .error ⟨op, "<tag has no declared canonical schema>"⟩

/-- `canonical_body`. -/
def canonicalBody (a : OpAttrs) (op : OpTag) : Except UnresolvedAttr (List UInt8) := do
  match ← leafBody a op with
  | some leaf => .ok leaf
  | none =>
    match listBody a op with
    | some body => .ok body
    | none => decliningBody a op

/-- `to_canonical_bytes`: the body behind its length, which is cut to a `u32`. -/
def toCanonicalBytes (a : OpAttrs) (op : OpTag) : Except UnresolvedAttr (List UInt8) :=
  (canonicalBody a op).map fun body => le 4 body.length ++ body

/-! ## The layouts are prefix codes -/

theorem prefixCode_i64 : PrefixCode (fun x : Int => -2 ^ 63 ≤ x ∧ x < 2 ^ 63) i64ToLeBytes := by
  refine .of_length 8 (fun _ => length_le 8 _) fun a b ha hb heq => ?_
  rw [← i64FromLeBytes_toLeBytes ha, heq, i64FromLeBytes_toLeBytes hb]

theorem prefixCode_putU64 : PrefixCode (fun _ => True) putU64 :=
  .of_length 8 (fun _ => length_le 8 _) fun a b _ _ heq =>
    UInt64.toNat_inj.mp ((prefixCode_le 8).inj a.toNat_lt b.toNat_lt heq)

theorem prefixCode_putAxis : PrefixCode (fun _ => True) putAxis := by
  refine .of_length 4 (fun _ => length_le 4 _) fun a b _ _ heq => ?_
  have hlt : ∀ x : UInt8, x.toNat < 256 ^ 4 := fun x => Nat.lt_of_lt_of_le x.toNat_lt (by decide)
  exact UInt8.toNat_inj.mp ((prefixCode_le 4).inj (hlt a) (hlt b) heq)

theorem putStr_inj {s t : String} (hs : s.toUTF8.data.toList.length < 2 ^ 32)
    (ht : t.toUTF8.data.toList.length < 2 ^ 32) (heq : putStr s = putStr t) : s = t := by
  have hbytes := prefixCode_byte.counted.inj ⟨hs, by simp⟩ ⟨ht, by simp⟩ heq
  exact String.toByteArray_inj.mp (ByteArray.ext (Array.ext' hbytes))

/-- The fields are values of their machine types, and the lists and strings have lengths
that fit a `u32`. -/
structure OpAttrs.Machine (a : OpAttrs) : Prop where
  axis : ∀ x ∈ a.axis, -2 ^ 63 ≤ x ∧ x < 2 ^ 63
  rollShift : ∀ x ∈ a.rollShift, -2 ^ 63 ≤ x ∧ x < 2 ^ 63
  sliceStart : ∀ x ∈ a.sliceStart, x < 2 ^ 64
  sliceLen : ∀ x ∈ a.sliceLen, x < 2 ^ 64
  targetShape : a.targetShape.length < 2 ^ 32 ∧ ∀ x ∈ a.targetShape, -2 ^ 63 ≤ x ∧ x < 2 ^ 63
  padAmounts : a.padAmounts.length < 2 ^ 32 ∧ ∀ p ∈ a.padAmounts, p.1 < 2 ^ 64 ∧ p.2 < 2 ^ 64
  scalars : a.scalars.length < 2 ^ 32
  perm : a.perm.length < 2 ^ 32
  dims : a.dims.length < 2 ^ 32
  castDtype : ∀ s ∈ a.castDtype, s.toUTF8.data.toList.length < 2 ^ 32

/-! ## Equal bytes, equal fields -/

section Fields

variable {α β : Type} {a b : OpAttrs} {op : OpTag} {body : List UInt8}

theorem map_req_eq_ok {v : Option α} {field : String} {f : α → β} {y : β} :
    (req op v field).map f = .ok y ↔ ∃ x, v = some x ∧ f x = y := by
  cases v <;> simp [req, Except.map]

theorem bind_req_eq_ok {v : Option α} {field : String} {f : α → Except UnresolvedAttr β} {y : β} :
    (req op v field >>= f) = .ok y ↔ ∃ x, v = some x ∧ f x = .ok y := by
  cases v <;> simp [req, bind, Except.bind]

variable (ha : a.Machine) (hb : b.Machine)

include ha hb

/-- A layout that starts with the axis. -/
theorem axis_eq_of_append {s t : List UInt8}
    (h : (req op a.axis "axis").map (fun x => i64ToLeBytes x ++ s) = .ok body)
    (h' : (req op b.axis "axis").map (fun x => i64ToLeBytes x ++ t) = .ok body) :
    a.axis = b.axis := by
  obtain ⟨x, hx, rfl⟩ := map_req_eq_ok.mp h
  obtain ⟨y, hy, heq⟩ := map_req_eq_ok.mp h'
  rw [hx, hy, (prefixCode_i64 _ _ _ _ (hb.axis y hy) (ha.axis x hx) heq).1]

theorem axis_eq (h : (req op a.axis "axis").map i64ToLeBytes = .ok body)
    (h' : (req op b.axis "axis").map i64ToLeBytes = .ok body) : a.axis = b.axis :=
  axis_eq_of_append (s := []) (t := []) ha hb (by simpa using h) (by simpa using h')

theorem roll_eq (h : decliningBody a .roll = .ok body) (h' : decliningBody b .roll = .ok body) :
    a.axis = b.axis ∧ a.rollShift = b.rollShift := by
  obtain ⟨x, hx, h⟩ := bind_req_eq_ok.mp h
  obtain ⟨y, hy, h⟩ := bind_req_eq_ok.mp h
  obtain ⟨x', hx', h'⟩ := bind_req_eq_ok.mp h'
  obtain ⟨y', hy', h'⟩ := bind_req_eq_ok.mp h'
  have heq := (prefixCode_i64.append prefixCode_i64).inj (a := (x, y)) (b := (x', y'))
    ⟨ha.axis x hx, ha.rollShift y hy⟩ ⟨hb.axis x' hx', hb.rollShift y' hy'⟩
    (Except.ok.inj (h.trans h'.symm))
  cases heq
  exact ⟨hx.trans hx'.symm, hy.trans hy'.symm⟩

theorem slice_eq (haxis : ∀ x ∈ a.axis, 0 ≤ x ∧ x < 2 ^ 32) (haxis' : ∀ x ∈ b.axis, 0 ≤ x ∧ x < 2 ^ 32)
    (h : decliningBody a .slice = .ok body) (h' : decliningBody b .slice = .ok body) :
    a.axis = b.axis ∧ a.sliceStart = b.sliceStart ∧ a.sliceLen = b.sliceLen := by
  have hcut : PrefixCode (fun x : Int => 0 ≤ x ∧ x < 2 ^ 32) fun x => le 4 (x % 2 ^ 32).toNat := by
    refine .of_length 4 (fun _ => length_le 4 _) fun x y hx hy heq => ?_
    have hxy := (prefixCode_le 4).inj (by omega) (by omega) heq
    omega
  obtain ⟨x, hx, h⟩ := bind_req_eq_ok.mp h
  obtain ⟨y, hy, h⟩ := bind_req_eq_ok.mp h
  obtain ⟨z, hz, h⟩ := bind_req_eq_ok.mp h
  obtain ⟨x', hx', h'⟩ := bind_req_eq_ok.mp h'
  obtain ⟨y', hy', h'⟩ := bind_req_eq_ok.mp h'
  obtain ⟨z', hz', h'⟩ := bind_req_eq_ok.mp h'
  have heq := (hcut.append ((prefixCode_le 8).append (prefixCode_le 8))).inj (a := (x, y, z))
    (b := (x', y', z')) ⟨haxis x hx, ha.sliceStart y hy, ha.sliceLen z hz⟩
    ⟨haxis' x' hx', hb.sliceStart y' hy', hb.sliceLen z' hz'⟩ (Except.ok.inj (h.trans h'.symm))
  cases heq
  exact ⟨hx.trans hx'.symm, hy.trans hy'.symm, hz.trans hz'.symm⟩

theorem pad_eq (h : decliningBody a .pad = .ok body) (h' : decliningBody b .pad = .ok body) :
    a.padAmounts = b.padAmounts ∧ a.padMode = b.padMode ∧
      a.padValue.getD 0 = b.padValue.getD 0 := by
  obtain ⟨x, hx, h⟩ := bind_req_eq_ok.mp h
  obtain ⟨x', hx', h'⟩ := bind_req_eq_ok.mp h'
  have heq := (((prefixCode_le 8).append (prefixCode_le 8)).counted.append
    (prefixCode_byte.append prefixCode_putU64)).inj (a := (a.padAmounts, x, a.padValue.getD 0))
    (b := (b.padAmounts, x', b.padValue.getD 0)) ⟨ha.padAmounts, trivial, trivial⟩
    ⟨hb.padAmounts, trivial, trivial⟩ (Except.ok.inj (h.trans h'.symm))
  simp only [Prod.mk.injEq] at heq
  exact ⟨heq.1, by rw [hx, hx', heq.2.1], heq.2.2⟩

theorem cast_eq (h : decliningBody a .cast = .ok body) (h' : decliningBody b .cast = .ok body) :
    a.castDtype = b.castDtype := by
  obtain ⟨x, hx, rfl⟩ := map_req_eq_ok.mp h
  obtain ⟨y, hy, heq⟩ := map_req_eq_ok.mp h'
  rw [hx, hy, putStr_inj (hb.castDtype y hy) (ha.castDtype x hx) heq]

theorem maskedFill_eq (h : decliningBody a .maskedFill = .ok body)
    (h' : decliningBody b .maskedFill = .ok body) :
    a.scalars = b.scalars ∧ a.castDtype = b.castDtype := by
  obtain ⟨x, hx, h⟩ := bind_req_eq_ok.mp h
  obtain ⟨y, hy, h'⟩ := bind_req_eq_ok.mp h'
  obtain ⟨hscalars, heq⟩ := prefixCode_putU64.counted _ _ _ _ ⟨ha.scalars, by simp⟩
    ⟨hb.scalars, by simp⟩ (Except.ok.inj (h.trans h'.symm))
  exact ⟨hscalars, by rw [hx, hy, putStr_inj (ha.castDtype x hx) (hb.castDtype y hy) heq]⟩

omit ha hb in
theorem scanPlaceholder_body (h : canonicalBody a .scanPlaceholder = .ok body) :
    ∃ role index, a.scanRole = some role ∧ a.scanIndex = some index ∧
      [role] ++ le 4 index.toNat = body := by
  unfold canonicalBody leafBody at h
  cases hrole : a.scanRole <;> cases hindex : a.scanIndex <;>
    simp_all [req, bind, Except.bind]

omit ha hb in
theorem scanPlaceholder_eq (h : canonicalBody a .scanPlaceholder = .ok body)
    (h' : canonicalBody b .scanPlaceholder = .ok body) :
    a.scanRole = b.scanRole ∧ a.scanIndex = b.scanIndex := by
  obtain ⟨x, y, hx, hy, rfl⟩ := scanPlaceholder_body h
  obtain ⟨x', y', hx', hy', heq⟩ := scanPlaceholder_body h'
  obtain ⟨rfl, hindex⟩ := prefixCode_byte _ _ _ _ trivial trivial heq
  have hy₂ := UInt32.toNat_inj.mp ((prefixCode_le 4).inj y'.toNat_lt y.toNat_lt hindex)
  exact ⟨hx.trans hx'.symm, by rw [hy, hy', hy₂]⟩

theorem targetShape_eq (h : counted i64ToLeBytes a.targetShape = counted i64ToLeBytes b.targetShape) :
    a.targetShape = b.targetShape :=
  prefixCode_i64.counted.inj ha.targetShape hb.targetShape h

theorem scalars_eq (h : counted putU64 a.scalars = counted putU64 b.scalars) :
    a.scalars = b.scalars :=
  prefixCode_putU64.counted.inj ⟨ha.scalars, by simp⟩ ⟨hb.scalars, by simp⟩ h

end Fields

/-- A set rank and an unset one: a target without extents is the empty shape or none at all. -/
theorem shapeFromAttr_inj {a b : OpAttrs} {s s' : Shape} (heq : a.targetShape = b.targetShape)
    (h : shapeFromAttr a = some s) (h' : shapeFromAttr b = some s') : s = s' := by
  unfold shapeFromAttr at h h'
  rw [heq] at h
  split at h <;> split at h' <;> simp_all

/-- **Equal bytes stand for one op.** -/
theorem canonical_bytes_determine_op (conv : ScalarConv) {t : OpTag} {a b : OpAttrs} {op op' : Op}
    {bytes : List UInt8} (ht : t ≠ .scan ∧ t ≠ .view ∧ t ≠ .fused) (ha : a.Machine)
    (hb : b.Machine) (haxis : t = .slice → ∀ x ∈ a.axis, 0 ≤ x ∧ x < 2 ^ 32)
    (haxis' : t = .slice → ∀ x ∈ b.axis, 0 ≤ x ∧ x < 2 ^ 32)
    (hbytes : toCanonicalBytes a t = .ok bytes) (hbytes' : toCanonicalBytes b t = .ok bytes)
    (hop : tagToOp conv t a = some op) (hop' : tagToOp conv t b = some op') : op = op' := by
  obtain ⟨body, h, h'⟩ : ∃ body, canonicalBody a t = .ok body ∧ canonicalBody b t = .ok body := by
    unfold toCanonicalBytes at hbytes hbytes'
    cases h : canonicalBody a t with
    | error e => rw [h] at hbytes; cases hbytes
    | ok body =>
      cases h' : canonicalBody b t with
      | error e => rw [h'] at hbytes'; cases hbytes'
      | ok body' =>
        rw [h] at hbytes
        rw [h', ← hbytes] at hbytes'
        obtain ⟨-, rfl⟩ := List.append_inj (Except.ok.inj hbytes') (by simp)
        exact ⟨_, rfl, rfl⟩
  have hsame : tagToOp conv t a = tagToOp conv t b → op = op' := fun heq =>
    Option.some.inj (hop.symm.trans (heq.trans hop'))
  cases t
  case scan | view | fused => simp at ht
  case clamp | const | runtimeScalar | reducedCount => cases hop
  case concat | flip | triu | tril | indexSelect | gather | indexAdd | scatterAdd =>
    have heq := axis_eq ha hb h h'
    exact hsame (by simp only [tagToOp, axisOp, heq])
  case sumDim | maxDim | meanDim | cumSum =>
    have heq := axis_eq_of_append ha hb h h'
    exact hsame (by simp only [tagToOp, axisOp, heq])
  case roll =>
    obtain ⟨hx, hy⟩ := roll_eq ha hb h h'
    exact hsame (by simp only [tagToOp, rollFromAttrs, hx, hy])
  case slice =>
    obtain ⟨hx, hy, hz⟩ := slice_eq ha hb (haxis rfl) (haxis' rfl) h h'
    exact hsame (by simp only [tagToOp, sliceFromAttrs, hx, hy, hz])
  case pad =>
    obtain ⟨hx, hy, hz⟩ := pad_eq ha hb h h'
    exact hsame (by simp only [tagToOp, padFromAttrs, hx, hy, hz])
  case cast =>
    have heq := cast_eq ha hb h h'
    exact hsame (by simp only [tagToOp, heq])
  case maskedFill =>
    obtain ⟨hx, hy⟩ := maskedFill_eq ha hb h h'
    exact hsame (by simp only [tagToOp, maskedFillFromAttrs, fillDtype, hx, hy])
  case matMul => rw [matMulFromAttrs_eq_some hop, matMulFromAttrs_eq_some hop']
  case iota =>
    have heq := targetShape_eq ha hb (Except.ok.inj (h.trans h'.symm))
    exact hsame (by simp only [tagToOp, heq])
  case reshape | broadcastTo | reduceSumTo | reduceMaxTo =>
    have heq := targetShape_eq ha hb (Except.ok.inj (h.trans h'.symm))
    obtain ⟨s, hs, rfl⟩ := Option.map_eq_some_iff.mp hop
    obtain ⟨s', hs', rfl⟩ := Option.map_eq_some_iff.mp hop'
    rw [shapeFromAttr_inj heq hs hs']
  case addScalar | mulScalar | powI =>
    have heq := scalars_eq ha hb (Except.ok.inj (h.trans h'.symm))
    exact hsame (by simp only [tagToOp, heq])
  case permute =>
    have heq := prefixCode_putAxis.counted.inj ⟨ha.perm, by simp⟩ ⟨hb.perm, by simp⟩
      (Except.ok.inj (h.trans h'.symm))
    exact hsame (by simp only [tagToOp, heq])
  case unsqueeze | squeeze =>
    have heq := prefixCode_putAxis.counted.inj ⟨ha.dims, by simp⟩ ⟨hb.dims, by simp⟩
      (Except.ok.inj (h.trans h'.symm))
    exact hsame (by simp only [tagToOp, heq])
  case scanPlaceholder =>
    obtain ⟨hx, hy⟩ := scanPlaceholder_eq h h'
    exact hsame (by simp only [tagToOp, scanPlaceholderFromAttrs, hx, hy])
  -- the other layouts are empty, and their ops have no attributes
  all_goals exact hsame rfl

/-- One row before the first, filled with the default. -/
def padUnset : OpAttrs where
  padAmounts := [(1, 0)]
  padMode := some 0

/-- The same with the fill value written out. -/
def padZero : OpAttrs := { padUnset with padValue := some 0 }

/-- An unset fill value and a zero one are written, and read, alike. -/
theorem padUnset_reads_as_padZero : toCanonicalBytes padUnset .pad = toCanonicalBytes padZero .pad ∧
    ∃ op ∈ tagToOp ⟨fun _ _ => none, fun _ => 0⟩ .pad padUnset,
      ∃ op' ∈ tagToOp ⟨fun _ _ => none, fun _ => 0⟩ .pad padZero, op = op' := by
  have hmachine : padUnset.Machine ∧ padZero.Machine := by
    constructor <;> constructor <;> simp [padUnset, padZero]
  refine ⟨by decide +kernel, _, rfl, _, rfl, ?_⟩
  exact canonical_bytes_determine_op ⟨fun _ _ => none, fun _ => 0⟩ (t := .pad) (by decide)
    hmachine.1 hmachine.2 (fun h => nomatch h) (fun h => nomatch h) rfl rfl rfl rfl

end Fuel.Jit
