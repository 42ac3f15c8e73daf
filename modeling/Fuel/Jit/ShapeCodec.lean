import Fuel.Jit.ShapeExpr
import Fuel.Lib.Bytes
import Fuel.Lib.Method

/-!
# The wire codec of shape expressions

An expression is a tag byte and its fields; children are length-prefixed blobs
that are decoded on their own and must be consumed to their end. The decoders
index the blob they are given, so a decoder here can also abort; a child is
shorter than the blob it is in, so the recursion is on the length.
-/

namespace Fuel.Jit

open Bytes Method List

/-! ## Encoding -/

/-- The bytes of an `i64`. -/
def i64ToLeBytes (c : Int) : List UInt8 := le 8 (c % 2 ^ 64).toNat

def i64FromLeBytes (bytes : List UInt8) : Int := asIsize (ofLe bytes)

/-- `encode_binary`, on the encodings of the operands. -/
def encodeBinary (tag : UInt8) (a b : List UInt8) : List UInt8 :=
  tag :: (withLength a ++ withLength b)

/-- `Dim::encode`. -/
def Dim.encode : Dim → List UInt8
  | .extent operand axis => [tagExtent, operand, axis]
  | .const c => tagConst :: i64ToLeBytes c
  | .param field => [tagParam, field]
  | .add a b => encodeBinary tagAdd a.encode b.encode
  | .sub a b => encodeBinary tagSub a.encode b.encode
  | .mul a b => encodeBinary tagMul a.encode b.encode
  | .div a b => encodeBinary tagDiv a.encode b.encode

/-- Children one after the other, each behind its length. -/
def encodeChildren (ds : List Dim) : List UInt8 := ds.flatMap fun d => withLength d.encode

/-- `ShapeExpr::encode`. -/
def ShapeExpr.encode : ShapeExpr → List UInt8
  | .sameAs operand => [tagSameAs, operand]
  | .withDim operand axis dim => tagWithDim :: operand :: axis :: withLength dim.encode
  | .dims ds => tagDims :: UInt8.ofNat ds.length :: encodeChildren ds

/-! ## Decoding -/

/-- A decoder returns a value or a typed decline, or aborts. -/
abbrev Decoder (α : Type) := Method ShapeExprError Unit α

/-- `need`. -/
def need (blob : List UInt8) (pos n : Nat) : Decoder PUnit :=
  if blob.length < pos + n then fail (.truncatedBlob n (blob.length - pos)) else pure ⟨⟩

variable (decode : List UInt8 → Decoder Dim)

/-- `read_child` after the length, with the decoder of the child's blob. -/
def readBody (blob : List UInt8) (start len : Nat) :
    Decoder (Dim × Nat) :=
  if blob.length < start + len then fail (.truncatedBlob len (blob.length - start))
  else do
    let child ← decode (← slice blob start (start + len))
    pure (child, start + len)

/-- `read_child`. -/
def readChild (blob : List UInt8) (pos : Nat) :
    Decoder (Dim × Nat) :=
  if blob.length < pos + 2 then fail (.truncatedBlob 2 (blob.length - pos))
  else do
    let low ← index blob pos
    let high ← index blob (pos + 1)
    readBody decode blob (pos + 2) (ofLe [low, high])

/-- The operation of a binary tag. -/
def binaryDim (tag : UInt8) (a b : Dim) : Dim :=
  if tag = tagAdd then .add a b
  else if tag = tagSub then .sub a b
  else if tag = tagMul then .mul a b
  else .div a b

/-- `decode_dim_at`, with the decoder of its children. -/
def decodeDimAt (blob : List UInt8) (pos : Nat) :
    Decoder (Dim × Nat) := do
  let tag ← okOr blob[pos]? (.truncatedBlob (pos + 1) blob.length)
  if tag = 0x00 then fail .zeroTag
  else if tag = tagExtent then do
    need blob pos 3
    let operand ← index blob (pos + 1)
    let axis ← index blob (pos + 2)
    pure (.extent operand axis, pos + 3)
  else if tag = tagConst then do
    need blob pos 9
    let a ← slice blob (pos + 1) (pos + 9)
    pure (.const (i64FromLeBytes a), pos + 9)
  else if tag = tagParam then do
    need blob pos 2
    let field ← index blob (pos + 1)
    pure (.param field, pos + 2)
  else if tag = tagAdd ∨ tag = tagSub ∨ tag = tagMul ∨ tag = tagDiv then do
    let (a, p₁) ← readChild decode blob (pos + 1)
    let (b, p₂) ← readChild decode blob p₁
    pure (binaryDim tag a b, p₂)
  -- the whole-shape tags, the reserved one and those not allocated
  else fail (.reservedTag tag)

/-- The check that a decoder has read its blob to the end. -/
def consumeAll {α : Type} (blob : List UInt8) (read : α × Nat) : Decoder α :=
  if read.2 ≠ blob.length then fail (.trailingBytes (blob.length - read.2)) else pure read.1

/-- `decode_dim` on children that a given decoder reads. -/
def decodeDimWith (blob : List UInt8) : Decoder Dim := do
  consumeAll blob (← decodeDimAt decode blob 0)

/-- `decode_dim`. No child is as long as its blob: the guard stops nothing, see `decodeDim_eq`. -/
def decodeDim (blob : List UInt8) : Decoder Dim :=
  decodeDimWith (fun child => if child.length < blob.length then decodeDim child
    else abort .indexOutOfBounds) blob
termination_by blob.length

/-- The loop of `decode_shape_at` over the children of `Dims`. -/
def readChildren (blob : List UInt8) : Nat → Nat → Decoder (List Dim × Nat)
  | 0, p => pure ([], p)
  | count + 1, p => do
    let (child, next) ← readChild decodeDim blob p
    let (rest, p') ← readChildren blob count next
    pure (child :: rest, p')

/-- `decode_shape_at`. -/
def decodeShapeAt (blob : List UInt8) (pos : Nat) : Decoder (ShapeExpr × Nat) := do
  let tag ← okOr blob[pos]? (.truncatedBlob (pos + 1) blob.length)
  if tag = 0x00 then fail .zeroTag
  else if tag = tagSameAs then do
    need blob pos 2
    let operand ← index blob (pos + 1)
    pure (.sameAs operand, pos + 2)
  else if tag = tagWithDim then do
    need blob pos 3
    let operand ← index blob (pos + 1)
    let axis ← index blob (pos + 2)
    let (child, next) ← readChild decodeDim blob (pos + 3)
    pure (.withDim operand axis child, next)
  else if tag = tagDims then do
    need blob pos 2
    let count ← index blob (pos + 1)
    let (dims, p) ← readChildren blob count.toNat (pos + 2)
    pure (.dims dims, p)
  else fail (.reservedTag tag)

/-- `decode_shape`. -/
def decodeShape (blob : List UInt8) : Decoder ShapeExpr := do
  consumeAll blob (← decodeShapeAt blob 0)

/-! ## Children -/

section Children

variable {decode decode' : List UInt8 → Decoder Dim} {blob : List UInt8} {pos : Nat} {t : Unit}
  {c : Dim}

theorem need_returns {n : Nat} {u : PUnit} :
    need blob pos n () = .ok u t ↔ pos + n ≤ blob.length := by
  unfold need
  split
  · rename_i h
    simp only [fail_run, reduceCtorEq, false_iff]
    omega
  · rename_i h
    simp only [pure_run, true_iff]
    omega

theorem returned_need (n : Nat) : Returned (need blob pos n ()) := by
  unfold need
  split <;> trivial

theorem consumeAll_returns {α : Type} {read : α × Nat} {a : α} :
    consumeAll blob read () = .ok a t ↔ read = (a, blob.length) := by
  unfold consumeAll
  split
  · rename_i h
    simp only [fail_run, reduceCtorEq, false_iff]
    intro heq
    exact h (congrArg Prod.snd heq)
  · rename_i h
    rw [pure_run, Outcome.ok.injEq, ← not_ne_iff.mp h, Prod.ext_iff]
    simp

theorem returned_consumeAll {α : Type} (read : α × Nat) : Returned (consumeAll blob read ()) := by
  unfold consumeAll
  split <;> trivial

/-- The blob of a child is shorter than the blob it is in. -/
theorem length_child {start len : Nat} (hstart : 0 < start) (h : start + len ≤ blob.length) :
    ((blob.drop start).take (start + len - start)).length < blob.length := by
  rw [length_take, length_drop]
  omega

theorem readChild_congr (h : ∀ child, child.length < blob.length → decode child = decode' child) :
    readChild decode blob pos = readChild decode' blob pos := by
  have hbody : ∀ start len, 0 < start →
      readBody decode blob start len = readBody decode' blob start len := by
    intro start len hstart
    unfold readBody
    split
    · rfl
    · rename_i hlen
      have hle : start + len ≤ blob.length := Nat.le_of_not_lt hlen
      have hslice : (slice blob start (start + len) : Decoder (List UInt8)) = pure _ :=
        if_pos ⟨Nat.le_add_right _ _, hle⟩
      rw [hslice, pure_bind, pure_bind, h _ (length_child hstart hle)]
  unfold readChild
  simp only [hbody _ _ (Nat.succ_pos _)]

theorem returned_readChild
    (h : ∀ child, child.length < blob.length → Returned (decode child ())) :
    Returned (readChild decode blob pos ()) := by
  have hbody : ∀ start len, 0 < start → Returned (readBody decode blob start len ()) := by
    intro start len hstart
    unfold readBody
    split
    · trivial
    · rename_i hlen
      have hle := Nat.le_of_not_lt hlen
      refine (returned_slice (Nat.le_add_right _ _) hle ()).bind fun child _ hchild => ?_
      obtain ⟨-, -, -, rfl⟩ := slice_returns.mp hchild
      exact (h _ (length_child hstart hle)).bind fun _ _ _ => trivial
  unfold readChild
  split
  · trivial
  · refine (returned_index (by omega) ()).bind fun low _ _ => ?_
    refine (returned_index (by omega) ()).bind fun high _ _ => ?_
    exact hbody _ _ (Nat.succ_pos _)

/-- The body that was read is the slice after its length. -/
theorem readBody_returns {start len : Nat} {p : Nat} :
    readBody decode blob start len () = .ok (c, p) t ↔ start + len ≤ blob.length ∧
      p = start + len ∧ decode ((blob.drop start).take len) () = .ok c () := by
  unfold readBody
  split
  · rename_i h
    simp only [fail_run, reduceCtorEq, false_iff]
    omega
  rename_i h
  have hle : start + len ≤ blob.length := Nat.le_of_not_lt h
  have hslice : (slice blob start (start + len) : Decoder (List UInt8)) = pure _ :=
    if_pos ⟨Nat.le_add_right _ _, hle⟩
  rw [hslice, pure_bind, bind_returns, Nat.add_sub_cancel_left]
  constructor
  · rintro ⟨c', _, hc, h⟩
    cases h
    exact ⟨hle, rfl, hc⟩
  · rintro ⟨-, rfl, hc⟩
    exact ⟨c, (), hc, rfl⟩

/-- What was read as a child: a prefixed blob, which the decoder accepted. -/
theorem drop_of_readChild {p : Nat} (h : readChild decode blob pos () = .ok (c, p) t) :
    ∃ body, decode body () = .ok c () ∧ body.length < blob.length ∧ p ≤ blob.length ∧
      blob.drop pos = withLength body ++ blob.drop p := by
  unfold readChild at h
  split at h
  · cases h
  obtain ⟨low, _, hlow, h⟩ := bind_returns.mp h
  obtain ⟨high, _, hhigh, h⟩ := bind_returns.mp h
  obtain ⟨-, hlow⟩ := index_returns.mp hlow
  obtain ⟨-, hhigh⟩ := index_returns.mp hhigh
  obtain ⟨hle, rfl, hc⟩ := readBody_returns.mp h
  have hlen : ((blob.drop (pos + 2)).take (ofLe [low, high])).length = ofLe [low, high] := by
    rw [length_take, length_drop]
    omega
  refine ⟨_, hc, by omega, hle, ?_⟩
  -- the two bytes of the length, then the body, then what follows it
  have hhead : blob.drop pos = low :: high :: blob.drop (pos + 2) := by
    rw [drop_eq_getElem?_toList_append, hlow, drop_eq_getElem?_toList_append, hhigh]
    rfl
  have hsplit := take_append_drop (ofLe [low, high]) (blob.drop (pos + 2))
  rw [drop_drop] at hsplit
  rw [hhead, ← eq_withLength hlen.symm, cons_append, cons_append, hsplit]

theorem readChild_of_drop {body rest : List UInt8} (h : blob.drop pos = withLength body ++ rest)
    (hlen : body.length ≤ 65535) (hc : decode body () = .ok c ()) :
    readChild decode blob pos () = .ok (c, pos + 2 + body.length) () := by
  have hlength : pos + 2 + body.length ≤ blob.length := by
    have := congrArg List.length h
    simp only [length_drop, length_append, length_withLength] at this
    omega
  obtain ⟨low, high, hle⟩ : ∃ low high, le 2 body.length = [low, high] := ⟨_, _, rfl⟩
  have hof : ofLe [low, high] = body.length := by
    rw [← hle]
    exact ofLe_le (by omega)
  rw [withLength, hle] at h
  have hat : ∀ i, blob[pos + i]? = (low :: high :: (body ++ rest))[i]? := by
    intro i
    rw [← getElem?_drop, h]
    rfl
  have hrest : blob.drop (pos + 2) = body ++ rest := by
    rw [← drop_drop, h]
    rfl
  unfold readChild
  rw [if_neg (by omega), bind_returns]
  refine ⟨low, (), index_returns.mpr ⟨rfl, hat 0⟩, ?_⟩
  rw [bind_returns]
  refine ⟨high, (), index_returns.mpr ⟨rfl, hat 1⟩, ?_⟩
  rw [readBody_returns, hof, hrest, take_left]
  exact ⟨hlength, rfl, hc⟩

end Children

/-! ## One dimension -/

section Dimension

variable {decode decode' : List UInt8 → Decoder Dim} {blob : List UInt8}

theorem decodeDimWith_congr
    (h : ∀ child, child.length < blob.length → decode child = decode' child) :
    decodeDimWith decode blob = decodeDimWith decode' blob := by
  unfold decodeDimWith decodeDimAt
  simp only [readChild_congr h]

/-- **The decoder is its source's recursion.** -/
theorem decodeDim_eq (blob : List UInt8) : decodeDim blob = decodeDimWith decodeDim blob := by
  rw [decodeDim]
  exact decodeDimWith_congr fun child hchild => if_pos hchild

theorem returned_decodeDimAt (pos : Nat)
    (h : ∀ child, child.length < blob.length → Returned (decode child ())) :
    Returned (decodeDimAt decode blob pos ()) := by
  refine (returned_okOr _ _ ()).bind fun tag _ _ => ?_
  split_ifs
  · trivial
  · refine (returned_need 3).bind fun _ _ hneed => ?_
    have hlen := need_returns.mp hneed
    refine (returned_index (by omega) ()).bind fun operand _ _ => ?_
    exact (returned_index (by omega) ()).bind fun axis _ _ => trivial
  · refine (returned_need 9).bind fun _ _ hneed => ?_
    have hlen := need_returns.mp hneed
    exact (returned_slice (by omega) (by omega) ()).bind fun _ _ _ => trivial
  · refine (returned_need 2).bind fun _ _ hneed => ?_
    have hlen := need_returns.mp hneed
    exact (returned_index (by omega) ()).bind fun field _ _ => trivial
  · refine (returned_readChild h).bind fun _ _ _ => ?_
    exact (returned_readChild h).bind fun _ _ _ => trivial
  · trivial

theorem returned_decodeDim (blob : List UInt8) : Returned (decodeDim blob ()) := by
  induction hlen : blob.length using Nat.strongRecOn generalizing blob with
  | ind len ih =>
    rw [decodeDim_eq]
    refine (returned_decodeDimAt 0 ?_).bind fun read _ _ => returned_consumeAll read
    intro child hchild
    exact ih child.length (hlen ▸ hchild) child rfl

/-- An expression whose integers and children fit their fields. -/
def Dim.Encodable : Dim → Prop
  | .extent _ _ | .param _ => True
  | .const c => -2 ^ 63 ≤ c ∧ c < 2 ^ 63
  | .add a b | .sub a b | .mul a b | .div a b =>
    (a.Encodable ∧ a.encode.length ≤ 65535) ∧ b.Encodable ∧ b.encode.length ≤ 65535

theorem i64FromLeBytes_toLeBytes {c : Int} (h : -2 ^ 63 ≤ c ∧ c < 2 ^ 63) :
    i64FromLeBytes (i64ToLeBytes c) = c := by
  unfold i64FromLeBytes i64ToLeBytes
  rw [ofLe_le (by omega), asIsize, Int.bmod_def]
  omega

theorem i64ToLeBytes_fromLeBytes {bytes : List UInt8} (h : bytes.length = 8) :
    i64ToLeBytes (i64FromLeBytes bytes) = bytes := by
  have hlt := ofLe_lt bytes
  rw [h] at hlt
  have hmod : (asIsize (ofLe bytes) % 2 ^ 64).toNat = ofLe bytes := by
    rw [asIsize, Int.bmod_def]
    omega
  rw [i64FromLeBytes, i64ToLeBytes, hmod, le_ofLe_of_length h]

/-- Four tags have two children. -/
theorem encode_binaryDim {tag : UInt8} (a b : Dim)
    (h : tag = tagAdd ∨ tag = tagSub ∨ tag = tagMul ∨ tag = tagDiv) :
    (binaryDim tag a b).encode = encodeBinary tag a.encode b.encode := by
  rcases h with rfl | rfl | rfl | rfl <;> rfl

variable {d : Dim}

/-- What is accepted is the encoding of the result, if that is so for the children. -/
theorem encode_of_decodeDimAt {p : Nat} {t : Unit}
    (hchild : ∀ child, child.length < blob.length → ∀ c, decode child () = .ok c () →
      c.encode = child) (h : decodeDimAt decode blob 0 () = .ok (d, p) t) :
    blob = d.encode ++ blob.drop p := by
  obtain ⟨tag, _, htag, h⟩ := bind_returns.mp h
  obtain ⟨-, htag⟩ := okOr_returns.mp htag
  obtain ⟨tail, rfl⟩ : ∃ tail, blob = tag :: tail := by
    cases blob with
    | nil => cases htag
    | cons b tail =>
      cases htag
      exact ⟨tail, rfl⟩
  split_ifs at h with h0 hext hconst hparam hbin
  · cases h
  · obtain ⟨_, _, hneed, h⟩ := bind_returns.mp h
    have hlen := need_returns.mp hneed
    match tail with
    | operand :: axis :: rest =>
      cases h
      rw [hext]
      rfl
    | [_] | [] => simp at hlen
  · obtain ⟨_, _, hneed, h⟩ := bind_returns.mp h
    have hlen := need_returns.mp hneed
    obtain ⟨bytes, _, hbytes, h⟩ := bind_returns.mp h
    obtain ⟨-, -, -, rfl⟩ := slice_returns.mp hbytes
    cases h
    have hbytes : (tail.take 8).length = 8 := by
      rw [length_take]
      rw [length_cons] at hlen
      omega
    show tag :: tail = tagConst :: i64ToLeBytes (i64FromLeBytes (tail.take 8)) ++ tail.drop 8
    rw [i64ToLeBytes_fromLeBytes hbytes, hconst, cons_append, take_append_drop]
  · obtain ⟨_, _, hneed, h⟩ := bind_returns.mp h
    have hlen := need_returns.mp hneed
    match tail with
    | field :: rest =>
      cases h
      rw [hparam]
      rfl
    | [] => simp at hlen
  · obtain ⟨⟨a, p₁⟩, _, ha, h⟩ := bind_returns.mp h
    obtain ⟨⟨b, p₂⟩, _, hb, h⟩ := bind_returns.mp h
    obtain ⟨bodyA, hda, hlta, -, hdropA⟩ := drop_of_readChild ha
    obtain ⟨bodyB, hdb, hltb, -, hdropB⟩ := drop_of_readChild hb
    cases h
    rw [encode_binaryDim a b hbin, hchild bodyA hlta a hda, hchild bodyB hltb b hdb, encodeBinary,
      cons_append, List.append_assoc, ← hdropB, ← hdropA]
    rfl
  · cases h

/-- **An accepted blob is the encoding of what it decodes to.** -/
theorem encode_of_decodeDim {blob : List UInt8} (h : decodeDim blob () = .ok d ()) :
    d.encode = blob := by
  induction hlen : blob.length using Nat.strongRecOn generalizing blob d with
  | ind len ih =>
    rw [decodeDim_eq] at h
    obtain ⟨read, _, hat, h⟩ := bind_returns.mp h
    obtain rfl := consumeAll_returns.mp h
    have hblob := encode_of_decodeDimAt
      (fun child hchild c hc => ih child.length (hlen ▸ hchild) hc rfl) hat
    rw [drop_length, append_nil] at hblob
    exact hblob.symm

theorem decodeDim_of_at (h : decodeDimAt decodeDim blob 0 () = .ok (d, blob.length) ()) :
    decodeDim blob () = .ok d () := by
  rw [decodeDim_eq]
  exact bind_returns.mpr ⟨_, (), h, consumeAll_returns.mpr rfl⟩

theorem decodeDim_encodeBinary {tag : UInt8} {a b : Dim}
    (htag : tag = tagAdd ∨ tag = tagSub ∨ tag = tagMul ∨ tag = tagDiv)
    (hlenA : a.encode.length ≤ 65535) (hlenB : b.encode.length ≤ 65535)
    (ha : decodeDim a.encode () = .ok a ()) (hb : decodeDim b.encode () = .ok b ()) :
    decodeDim (encodeBinary tag a.encode b.encode) () = .ok (binaryDim tag a b) () := by
  have hreadA : readChild decodeDim (encodeBinary tag a.encode b.encode) (0 + 1) () =
      .ok (a, 3 + a.encode.length) () := readChild_of_drop rfl hlenA ha
  have hdropB : (encodeBinary tag a.encode b.encode).drop (3 + a.encode.length) =
      withLength b.encode ++ [] := by
    rw [encodeBinary, append_nil, Nat.add_comm, drop_succ_cons,
      drop_append_of_le_length (by simp; omega), drop_of_length_le (by simp; omega)]
    rfl
  have hreadB := readChild_of_drop hdropB hlenB hb
  have hlen : (encodeBinary tag a.encode b.encode).length =
      3 + a.encode.length + 2 + b.encode.length := by
    simp [encodeBinary]
    omega
  apply decodeDim_of_at
  rw [hlen]
  refine bind_returns.mpr ⟨tag, (), rfl, ?_⟩
  have hnot : tag ≠ 0 ∧ tag ≠ tagExtent ∧ tag ≠ tagConst ∧ tag ≠ tagParam := by
    rcases htag with rfl | rfl | rfl | rfl <;> decide
  rw [if_neg hnot.1, if_neg hnot.2.1, if_neg hnot.2.2.1, if_neg hnot.2.2.2, if_pos htag]
  exact bind_returns.mpr ⟨_, (), hreadA, bind_returns.mpr ⟨_, (), hreadB, rfl⟩⟩

/-- **An encoding decodes to what it encodes.** -/
theorem decodeDim_encode (h : d.Encodable) : decodeDim d.encode () = .ok d () := by
  induction d with
  | extent operand axis => exact decodeDim_of_at rfl
  | const c =>
    have hlen : (i64ToLeBytes c).length = 8 := length_le 8 _
    apply decodeDim_of_at
    refine bind_returns.mpr ⟨tagConst, (), rfl, ?_⟩
    rw [if_neg (by decide), if_neg (by decide), if_pos rfl]
    refine bind_returns.mpr ⟨⟨⟩, (), need_returns.mpr ?_, bind_returns.mpr ⟨i64ToLeBytes c, (), ?_, ?_⟩⟩
    · simp [Dim.encode, hlen]
    · rw [slice_returns]
      refine ⟨rfl, by decide, by simp [Dim.encode, hlen], ?_⟩
      show (i64ToLeBytes c).take 8 = _
      rw [← hlen, take_length]
    · rw [i64FromLeBytes_toLeBytes h, pure_run]
      simp [Dim.encode, hlen]
  | param field => exact decodeDim_of_at rfl
  | add a b iha ihb =>
    exact decodeDim_encodeBinary (.inl rfl) h.1.2 h.2.2 (iha h.1.1) (ihb h.2.1)
  | sub a b iha ihb =>
    exact decodeDim_encodeBinary (.inr (.inl rfl)) h.1.2 h.2.2 (iha h.1.1) (ihb h.2.1)
  | mul a b iha ihb =>
    exact decodeDim_encodeBinary (.inr (.inr (.inl rfl))) h.1.2 h.2.2 (iha h.1.1) (ihb h.2.1)
  | div a b iha ihb =>
    exact decodeDim_encodeBinary (.inr (.inr (.inr rfl))) h.1.2 h.2.2 (iha h.1.1) (ihb h.2.1)

end Dimension

/-! ## Whole shapes -/

section WholeShape

variable {blob : List UInt8}

def ShapeExpr.Encodable : ShapeExpr → Prop
  | .sameAs _ => True
  | .withDim _ _ dim => dim.Encodable ∧ dim.encode.length ≤ 65535
  | .dims ds => ds.length ≤ 255 ∧ ∀ d ∈ ds, d.Encodable ∧ d.encode.length ≤ 65535

theorem encodeChildren_cons (d : Dim) (ds : List Dim) :
    encodeChildren (d :: ds) = withLength d.encode ++ encodeChildren ds :=
  flatMap_cons ..

theorem returned_readChildren (count p : Nat) : Returned (readChildren blob count p ()) := by
  induction count generalizing p with
  | zero => trivial
  | succ count ih =>
    refine (returned_readChild fun child _ => returned_decodeDim child).bind fun _ _ _ => ?_
    exact (ih _).bind fun _ _ _ => trivial

variable {p : Nat} {e : ShapeExpr}

theorem drop_of_readChildren {count p' : Nat} {ds : List Dim} {t : Unit}
    (h : readChildren blob count p () = .ok (ds, p') t) :
    ds.length = count ∧ blob.drop p = encodeChildren ds ++ blob.drop p' := by
  induction count generalizing p ds t with
  | zero =>
    cases h
    exact ⟨rfl, rfl⟩
  | succ count ih =>
    obtain ⟨⟨c, next⟩, _, hc, h⟩ := bind_returns.mp h
    obtain ⟨⟨rest, q⟩, _, hrest, h⟩ := bind_returns.mp h
    cases h
    obtain ⟨body, hbody, -, -, hdrop⟩ := drop_of_readChild hc
    obtain ⟨hlen, hrest⟩ := ih hrest
    refine ⟨by rw [length_cons, hlen], ?_⟩
    rw [hdrop, hrest, ← encode_of_decodeDim hbody, encodeChildren_cons, List.append_assoc]

theorem readChildren_of_drop {ds : List Dim} {rest : List UInt8}
    (hfits : ∀ d ∈ ds, d.Encodable ∧ d.encode.length ≤ 65535)
    (h : blob.drop p = encodeChildren ds ++ rest) :
    readChildren blob ds.length p () = .ok (ds, p + (encodeChildren ds).length) () := by
  induction ds generalizing p with
  | nil => rfl
  | cons d ds ih =>
    obtain ⟨hd, hds⟩ := forall_mem_cons.mp hfits
    rw [encodeChildren_cons, List.append_assoc] at h
    have hread := readChild_of_drop h hd.2 (decodeDim_encode hd.1)
    have hnext : blob.drop (p + 2 + d.encode.length) = encodeChildren ds ++ rest := by
      rw [Nat.add_assoc, ← drop_drop, h, drop_left' (length_withLength _)]
    have hlen : p + (encodeChildren (d :: ds)).length =
        p + 2 + d.encode.length + (encodeChildren ds).length := by
      rw [encodeChildren_cons, length_append, length_withLength]
      omega
    rw [hlen]
    exact bind_returns.mpr ⟨_, (), hread, bind_returns.mpr ⟨_, (), ih hds hnext, rfl⟩⟩

theorem returned_decodeShape (blob : List UInt8) : Returned (decodeShape blob ()) := by
  refine Returned.bind ?_ fun read _ _ => returned_consumeAll read
  refine (returned_okOr _ _ ()).bind fun tag _ _ => ?_
  split_ifs
  · trivial
  · refine (returned_need 2).bind fun _ _ hneed => ?_
    have hlen := need_returns.mp hneed
    exact (returned_index (by omega) ()).bind fun operand _ _ => trivial
  · refine (returned_need 3).bind fun _ _ hneed => ?_
    have hlen := need_returns.mp hneed
    refine (returned_index (by omega) ()).bind fun operand _ _ => ?_
    refine (returned_index (by omega) ()).bind fun axis _ _ => ?_
    exact (returned_readChild fun child _ => returned_decodeDim child).bind fun _ _ _ => trivial
  · refine (returned_need 2).bind fun _ _ hneed => ?_
    have hlen := need_returns.mp hneed
    refine (returned_index (by omega) ()).bind fun count _ _ => ?_
    exact (returned_readChildren _ _).bind fun _ _ _ => trivial
  · trivial

theorem encode_of_decodeShapeAt {t : Unit} (h : decodeShapeAt blob 0 () = .ok (e, p) t) :
    blob = e.encode ++ blob.drop p := by
  obtain ⟨tag, _, htag, h⟩ := bind_returns.mp h
  obtain ⟨-, htag⟩ := okOr_returns.mp htag
  obtain ⟨tail, rfl⟩ : ∃ tail, blob = tag :: tail := by
    cases blob with
    | nil => cases htag
    | cons b tail =>
      cases htag
      exact ⟨tail, rfl⟩
  split_ifs at h with h0 hsame hwith hdims
  · cases h
  · obtain ⟨_, _, hneed, h⟩ := bind_returns.mp h
    have hlen := need_returns.mp hneed
    match tail with
    | operand :: rest =>
      cases h
      rw [hsame]
      rfl
    | [] => simp at hlen
  · obtain ⟨_, _, hneed, h⟩ := bind_returns.mp h
    have hlen := need_returns.mp hneed
    match tail with
    | operand :: axis :: rest =>
      obtain ⟨_, _, hoperand, h⟩ := bind_returns.mp h
      cases hoperand
      obtain ⟨_, _, haxis, h⟩ := bind_returns.mp h
      cases haxis
      obtain ⟨⟨c, next⟩, _, hc, h⟩ := bind_returns.mp h
      cases h
      obtain ⟨body, hbody, -, -, hdrop⟩ := drop_of_readChild hc
      show tag :: operand :: axis :: rest =
        tagWithDim :: operand :: axis :: withLength c.encode ++ _
      rw [encode_of_decodeDim hbody, cons_append, cons_append, cons_append, ← hdrop,
        hwith]
      rfl
    | [_] | [] => simp at hlen
  · obtain ⟨_, _, hneed, h⟩ := bind_returns.mp h
    have hlen := need_returns.mp hneed
    match tail with
    | count :: rest =>
      obtain ⟨_, _, hcount, h⟩ := bind_returns.mp h
      cases hcount
      obtain ⟨⟨ds, next⟩, _, hds, h⟩ := bind_returns.mp h
      cases h
      obtain ⟨hcount, hdrop⟩ := drop_of_readChildren hds
      show tag :: count :: rest = tagDims :: UInt8.ofNat ds.length :: encodeChildren ds ++ _
      rw [hcount, UInt8.ofNat_toNat, cons_append, cons_append, ← hdrop, hdims]
      rfl
    | [] => simp at hlen
  · cases h

theorem encode_of_decodeShape (h : decodeShape blob () = .ok e ()) : e.encode = blob := by
  obtain ⟨read, _, hat, h⟩ := bind_returns.mp h
  obtain rfl := consumeAll_returns.mp h
  have hblob := encode_of_decodeShapeAt hat
  rw [drop_length, append_nil] at hblob
  exact hblob.symm

theorem decodeShape_of_at (h : decodeShapeAt blob 0 () = .ok (e, blob.length) ()) :
    decodeShape blob () = .ok e () :=
  bind_returns.mpr ⟨_, (), h, consumeAll_returns.mpr rfl⟩

theorem decodeShape_encode (h : e.Encodable) : decodeShape e.encode () = .ok e () := by
  cases e with
  | sameAs operand => exact decodeShape_of_at rfl
  | withDim operand axis dim =>
    have hread : readChild decodeDim (ShapeExpr.withDim operand axis dim).encode (0 + 3) () =
        .ok (dim, 5 + dim.encode.length) () :=
      readChild_of_drop (append_nil _).symm h.2 (decodeDim_encode h.1)
    have hlen : (ShapeExpr.withDim operand axis dim).encode.length = 5 + dim.encode.length := by
      simp [ShapeExpr.encode]
      omega
    apply decodeShape_of_at
    rw [hlen]
    refine bind_returns.mpr ⟨tagWithDim, (), rfl, ?_⟩
    rw [if_neg (by decide), if_neg (by decide), if_pos rfl]
    refine bind_returns.mpr ⟨⟨⟩, (), need_returns.mpr (by omega), ?_⟩
    refine bind_returns.mpr ⟨operand, (), rfl, bind_returns.mpr ⟨axis, (), rfl, ?_⟩⟩
    exact bind_returns.mpr ⟨_, (), hread, rfl⟩
  | dims ds =>
    have hread : readChildren (ShapeExpr.dims ds).encode ds.length (0 + 2) () =
        .ok (ds, 2 + (encodeChildren ds).length) () :=
      readChildren_of_drop h.2 (append_nil _).symm
    have hlen : (ShapeExpr.dims ds).encode.length = 2 + (encodeChildren ds).length := by
      simp [ShapeExpr.encode]
      omega
    have hcount : (UInt8.ofNat ds.length).toNat = ds.length := by
      rw [UInt8.toNat_ofNat']
      have := h.1
      omega
    apply decodeShape_of_at
    rw [hlen]
    refine bind_returns.mpr ⟨tagDims, (), rfl, ?_⟩
    rw [if_neg (by decide), if_neg (by decide), if_neg (by decide), if_pos rfl]
    refine bind_returns.mpr ⟨⟨⟩, (), need_returns.mpr (by omega), ?_⟩
    refine bind_returns.mpr ⟨UInt8.ofNat ds.length, (), rfl, ?_⟩
    rw [hcount]
    exact bind_returns.mpr ⟨_, (), hread, rfl⟩

/-- No tag is read by both grammars. -/
theorem not_both_decode {d : Dim} (hd : decodeDim blob () = .ok d ())
    (he : decodeShape blob () = .ok e ()) : False := by
  have heq := (encode_of_decodeDim hd).trans (encode_of_decodeShape he).symm
  cases d <;> cases e <;> cases heq

end WholeShape

/-- **The codec is canonical.** An expression whose children fit their length fields decodes from
its encoding; both decoders return on every byte string, what they accept is the encoding of the
result, and no byte string is accepted by both. -/
theorem shape_codec_canonical :
    (∀ d : Dim, d.Encodable → decodeDim d.encode () = .ok d ()) ∧
    (∀ e : ShapeExpr, e.Encodable → decodeShape e.encode () = .ok e ()) ∧
    ∀ b : List UInt8, Returned (decodeDim b ()) ∧ Returned (decodeShape b ()) ∧
      (∀ d, decodeDim b () = .ok d () → d.encode = b) ∧
      (∀ e, decodeShape b () = .ok e () → e.encode = b) ∧
      ∀ d e, ¬ (decodeDim b () = .ok d () ∧ decodeShape b () = .ok e ()) := by
  refine ⟨fun _ => decodeDim_encode, fun _ => decodeShape_encode, fun b => ?_⟩
  refine ⟨returned_decodeDim b, returned_decodeShape b, fun _ => encode_of_decodeDim,
    fun _ => encode_of_decodeShape, ?_⟩
  rintro d e ⟨hd, he⟩
  exact not_both_decode hd he

/-- `with_dim(0, last, extent(0, last) / 2)` round-trips. -/
theorem half_last_axis_round_trips :
    decodeShape (ShapeExpr.withDim 0 lastAxis (.div (.extent 0 lastAxis) (.const 2))).encode () =
      .ok (.withDim 0 lastAxis (.div (.extent 0 lastAxis) (.const 2))) () :=
  shape_codec_canonical.2.1 _
    ⟨⟨⟨trivial, by decide⟩, ⟨by decide, by decide⟩, by decide⟩, by decide⟩

end Fuel.Jit
