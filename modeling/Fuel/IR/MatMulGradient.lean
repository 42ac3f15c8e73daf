import Fuel.IR.Valuation
import Fuel.Jit.PrimitiveShape
import Fuel.Lib.Strided

/-!
# Gradients of matrix products

`matmul` appends a product of two operands of one rank, after broadcasting an
operand of rank two over the batch of the other. A batch axis of the left operand
may be a multiple of the right one's, whose slices are then repeated. For a
product the backward walk appends two transposes and two more products, declared
with the shapes of the operands.

A product sums over no batch axis, so for repeated slices the right operand's
gradient is declared with a shape it does not have.
-/

namespace Fuel.IR

open List Strided Jit Arena

variable {S R : Type}

/-! ## The builder and the gradient rule -/

namespace Shape

def batch (s : Shape) : List Nat := s.dims.take (s.rank - 2)

def rows (s : Shape) : Nat := s.dims.getD (s.rank - 2) 0

def cols (s : Shape) : Nat := s.dims.getD (s.rank - 1) 0

end Shape

def matmulDTypesOk (l r : DType) : Bool := l = r || l = .f32 && (r = .bf16 || r = .f16)

/-- Equal batch dims, or the left one a multiple of the right one. -/
def batchDimsOk (la ra : Nat) : Bool := la = ra || la > ra && ra > 0 && la % ra = 0

namespace Arena

/-- `broadcast_to` a batch in front of the dims, which its check allows. -/
def broadcastOver (g : Arena S) (x : NodeId) (n : Node) (batch : List Nat) : Arena S × NodeId :=
  let target := Shape.ofDims (batch ++ n.shape.dims)
  (g.push ⟨.broadcastTo target, [x], target, n.dtype⟩, g.len)

/-- The operands with their ranks made equal. -/
def matmulOperands (g : Arena S) (a b : NodeId) (na nb : Node) :
    Option (Arena S × NodeId × NodeId) :=
  if na.shape.rank = nb.shape.rank then some (g, a, b)
  else if na.shape.rank = 2 ∧ 2 < nb.shape.rank then
    let (g', a') := g.broadcastOver a na nb.shape.batch
    some (g', a', b)
  else if nb.shape.rank = 2 ∧ 2 < na.shape.rank then
    let (g', b') := g.broadcastOver b nb na.shape.batch
    some (g', a, b')
  else none

/-- `matmul`; `none` where an assertion fails. -/
def matmul (g : Arena S) (a b : NodeId) : Option (Arena S × NodeId) := do
  let na ← g.nodes[a]?
  let nb ← g.nodes[b]?
  guard (matmulDTypesOk na.dtype nb.dtype)
  guard (2 ≤ na.shape.rank ∧ 2 ≤ nb.shape.rank)
  let (g', l, r) ← g.matmulOperands a b na nb
  let nl ← g'.nodes[l]?
  let nr ← g'.nodes[r]?
  guard (∀ p ∈ nl.shape.batch.zip nr.shape.batch, batchDimsOk p.1 p.2)
  guard (nl.shape.cols = nr.shape.rows)
  let (shape, dtype) ← primitiveShape .matMul [nl.shape, nr.shape] [nl.dtype, nr.dtype]
  some (g'.push ⟨.matMul, [l, r], shape, dtype⟩, g'.len)

/-- What `backward` appends for a product of `a` and `b`, and the gradients of
both; `transposed_shape` panics below rank two. -/
def matmulBackward (g : Arena S) (a b up : NodeId) : Option (Arena S × NodeId × NodeId) := do
  let na ← g.nodes[a]?
  let nb ← g.nodes[b]?
  let bT ← transposeShape nb.shape
  let g₁ := g.push ⟨.transpose, [b], bT, na.dtype⟩
  let g₂ := g₁.push ⟨.matMul, [up, g.len], na.shape, na.dtype⟩
  let aT ← transposeShape na.shape
  let g₃ := g₂.push ⟨.transpose, [a], aT, na.dtype⟩
  some (g₃.push ⟨.matMul, [g₂.len, up], nb.shape, na.dtype⟩, g₁.len, g₃.len)

/-- The dims a node's op gives on the shapes of its inputs. -/
def inferredDims (g : Arena S) (n : Node) : Option (List Nat) := do
  let ins ← n.inputs.mapM (g.nodes[·]?)
  let (shape, _) ← primitiveShape n.op (ins.map (·.shape)) (ins.map (·.dtype))
  some shape.dims

end Arena

/-! ## Meaning -/

/-- A matrix for each multi-index of the batch. -/
abbrev Batched (R : Type) := List Nat → Nat → Nat → R

/-- The slice of the right operand at a multi-index of the left one's batch. -/
def repeatedSlice (la ra idx : List Nat) : List Nat :=
  zipWith (fun j p => j / (p.1 / p.2)) idx (la.zip ra)

variable [CommRing R]

def product (l r : Den (Batched R)) : Batched R := fun idx i j =>
  ∑ t ∈ .range l.shape.cols,
    l.value idx i t * r.value (repeatedSlice l.shape.batch r.shape.batch idx) t j

/-- The sum of the products of corresponding entries. -/
def entrySum (s : Shape) (x y : Batched R) : R :=
  ((indices s.batch).map fun idx =>
    ∑ i ∈ .range s.rows, ∑ j ∈ .range s.cols, x idx i j * y idx i j).sum

structure Meaning.Products (I : Meaning (Batched R)) : Prop where
  transpose : ∀ s d x, I.apply .transpose s d none [x] = fun idx i j => x.value idx j i
  matMul : ∀ s d l r, I.apply .matMul s d none [l, r] = product l r

/-- **The gradients are the adjoint of the product**: they are emitted with the
operands' shapes, every appended node has the dims its op gives, and pairing the
upstream with a perturbed product is pairing the gradients with the
perturbations. -/
def AdjointGradients (g : Arena S) (a b up : NodeId) (na nb ny : Node) : Prop :=
  ∃ g' ga gb, g.matmulBackward a b up = some (g', ga, gb) ∧
    (g'.nodes[ga]?).map (·.shape) = some na.shape ∧
    (g'.nodes[gb]?).map (·.shape) = some nb.shape ∧
    (∀ id n, g.len ≤ id → g'.nodes[id]? = some n → g'.inferredDims n = some n.shape.dims) ∧
    ∀ (R : Type) [CommRing R] (I : Meaning (Batched R)), I.Products → ∀ val, Valuation I g' val →
      ∀ da db : Batched R, entrySum ny.shape (val up).value (fun idx i j =>
          product ⟨da, na.shape, na.dtype⟩ (val b) idx i j +
            product (val a) ⟨db, nb.shape, nb.dtype⟩ idx i j) =
        entrySum na.shape (val ga).value da + entrySum nb.shape (val gb).value db

/-! ## Shapes -/

section Shapes

variable {lb rb dims : List Nat} {m k n : Nat} {d d' : Option (List DynAxis)}

theorem exists_dims_eq {s : Shape} (h : 2 ≤ s.rank) : ∃ lb m n d, s = ⟨lb ++ [m, n], d⟩ := by
  obtain ⟨dims, d⟩ := s
  obtain ⟨l, n, rfl⟩ := (eq_nil_or_concat dims).resolve_left (by rintro rfl; cases h)
  obtain ⟨lb, m, rfl⟩ := (eq_nil_or_concat l).resolve_left (by rintro rfl; simp [Shape.rank] at h)
  exact ⟨lb, m, n, d, by simp⟩

@[simp] theorem batch_append : Shape.batch ⟨lb ++ [m, n], d⟩ = lb := by
  simp [Shape.batch, Shape.rank]

@[simp] theorem rows_append : Shape.rows ⟨lb ++ [m, n], d⟩ = m := by
  simp [Shape.rows, Shape.rank]

@[simp] theorem cols_append : Shape.cols ⟨lb ++ [m, n], d⟩ = n := by
  simp [Shape.cols, Shape.rank]

theorem transposeShape_append :
    transposeShape ⟨lb ++ [m, n], d⟩ = some ⟨lb ++ [n, m], none⟩ := by
  simp [transposeShape, Shape.rank, Layout.swap, Shape.ofDims]

theorem matMulShape_append (h : rb.length = lb.length) :
    matMulShape ⟨lb ++ [m, k], d⟩ ⟨rb ++ [k, n], d'⟩ = some ⟨lb ++ [m, n], none⟩ := by
  simp [matMulShape, Shape.rank, Shape.ofDims, h, take_append]

end Shapes

/-! ## The adjoint -/

theorem repeatedSlice_self {dims idx : List Nat} (h : Within dims idx) :
    repeatedSlice dims dims idx = idx := by
  induction h with
  | nil => rfl
  | cons hid _ ih =>
    rw [repeatedSlice, zip_cons_cons, zipWith_cons_cons, Nat.div_self (by omega), Nat.div_one]
    exact congrArg _ ih

/-- One slice: the upstream with both perturbed products. -/
theorem adjoint_slice (m k n : Nat) (u a b da db : Nat → Nat → R) :
    ∑ i ∈ .range m, ∑ j ∈ .range n, u i j *
        (∑ t ∈ .range k, da i t * b t j + ∑ t ∈ .range k, a i t * db t j) =
      ∑ i ∈ .range m, ∑ t ∈ .range k, (∑ j ∈ .range n, u i j * b t j) * da i t +
        ∑ t ∈ .range k, ∑ j ∈ .range n, (∑ i ∈ .range m, a i t * u i j) * db t j := by
  simp only [mul_add, Finset.sum_add_distrib, Finset.mul_sum, Finset.sum_mul]
  congr 1
  · refine Finset.sum_congr rfl fun i _ => ?_
    rw [Finset.sum_comm]
    exact Finset.sum_congr rfl fun t _ => Finset.sum_congr rfl fun j _ => by ring
  · rw [Finset.sum_comm]
    simp only [Finset.sum_comm (s := .range m)]
    rw [Finset.sum_comm]
    exact Finset.sum_congr rfl fun t _ => Finset.sum_congr rfl fun j _ =>
      Finset.sum_congr rfl fun i _ => by ring

section Gradients

variable {g g₁ h : Arena S} {a b y up : NodeId} {na nb ny nu : Node}

/-- What the builder appends for operands of one rank. -/
theorem matmul_same_rank (ha : g.nodes[a]? = some na) (hb : g.nodes[b]? = some nb)
    (hrank : na.shape.rank = nb.shape.rank) (hmul : g.matmul a b = some (g₁, y)) :
    ∃ lb rb m k n d d', na.shape = ⟨lb ++ [m, k], d⟩ ∧ nb.shape = ⟨rb ++ [k, n], d'⟩ ∧
      rb.length = lb.length ∧ y = g.len ∧
      g₁ = g.push ⟨.matMul, [a, b], ⟨lb ++ [m, n], none⟩, na.dtype⟩ := by
  simp [matmul, matmulOperands, ha, hb, if_pos hrank, guard, Option.bind_eq_some_iff] at hmul
  obtain ⟨-, ⟨ha2, hb2⟩, -, hinner, shape, dtype, hshape, rfl, rfl⟩ := hmul
  obtain ⟨lb, m, k, d, hsa⟩ := exists_dims_eq ha2
  obtain ⟨rb, k', n, d', hsb⟩ := exists_dims_eq hb2
  have hlen : rb.length = lb.length := by
    simpa [hsa, hsb, Shape.rank] using hrank.symm
  rw [hsa, hsb, cols_append, rows_append] at hinner
  subst hinner
  simp only [primitiveShape, reshaped, firstInput, hsa, hsb, Option.bind_some, getElem?_cons_succ,
    getElem?_cons_zero, matMulShape_append hlen, Option.map_some, Option.some.injEq,
    Prod.mk.injEq] at hshape
  obtain ⟨rfl, rfl⟩ := hshape
  exact ⟨lb, rb, m, k, n, d, d', hsa, hsb, hlen, rfl, rfl⟩

variable {lb rb : List Nat} {m k n : Nat} {d d' : Option (List DynAxis)}

theorem matmulBackward_eq (up : NodeId) (ha : h.nodes[a]? = some na)
    (hb : h.nodes[b]? = some nb) (hsa : na.shape = ⟨lb ++ [m, k], d⟩) (hsb : nb.shape = ⟨rb ++ [k, n], d'⟩) :
    ∃ h', h.matmulBackward a b up = some (h', h.len + 1, h.len + 3) ∧ h.Grows h' ∧
      ∀ i, h'.nodes[h.len + i]? = [⟨.transpose, [b], ⟨rb ++ [n, k], none⟩, na.dtype⟩,
        ⟨.matMul, [up, h.len], na.shape, na.dtype⟩,
        ⟨.transpose, [a], ⟨lb ++ [k, m], none⟩, na.dtype⟩,
        ⟨.matMul, [h.len + 2, up], nb.shape, na.dtype⟩][i]? := by
  simp only [matmulBackward, ha, hb, hsa, hsb, transposeShape_append, Option.bind_eq_bind,
    Option.bind_some, len_push]
  refine ⟨_, rfl, ?_, fun i => by simp [Graph.len, getElem?_append]⟩
  exact ((grows_push _ _).trans (grows_push _ _)).trans ((grows_push _ _).trans (grows_push _ _))

theorem inferredDims_matMul {x : NodeId} {nx : Node} (hx : g.nodes[x]? = some nx)
    (hy : g.nodes[y]? = some ny) (s : Shape) (dt : DType) :
    g.inferredDims ⟨.matMul, [x, y], s, dt⟩ = (matMulShape nx.shape ny.shape).map (·.dims) := by
  cases hs : matMulShape nx.shape ny.shape <;>
    simp [inferredDims, hx, hy, primitiveShape, reshaped, firstInput, hs]

theorem inferredDims_transpose {x : NodeId} {nx : Node} (hx : g.nodes[x]? = some nx)
    (s : Shape) (dt : DType) :
    g.inferredDims ⟨.transpose, [x], s, dt⟩ = (transposeShape nx.shape).map (·.dims) := by
  cases hs : transposeShape nx.shape <;>
    simp [inferredDims, hx, primitiveShape, reshaped, firstInput, hs]

/-- **The gradients of an accepted product of two operands of one rank are its
adjoint exactly when no batch axis is repeated.** `h` is the arena when the walk
meets the product, with the upstream in it. -/
theorem matmul_gradients_adjoint_iff (ha : g.nodes[a]? = some na) (hb : g.nodes[b]? = some nb)
    (hrank : na.shape.rank = nb.shape.rank) (hmul : g.matmul a b = some (g₁, y))
    (hy : g₁.nodes[y]? = some ny) (hgrow : g₁.Grows h) (hup : h.nodes[up]? = some nu)
    (hdims : nu.shape.dims = ny.shape.dims)
    (hrows : ∀ i, h.len ≤ i → h.nodeMatmulRowCount i = none) :
    AdjointGradients h a b up na nb ny ↔ na.shape.batch = nb.shape.batch := by
  obtain ⟨lb, rb, m, k, n, d, d', hsa, hsb, hlen, rfl, rfl⟩ := matmul_same_rank ha hb hrank hmul
  obtain rfl := Option.some.inj ((node_push_len _ _).symm.trans hy)
  obtain ⟨du, hsu⟩ : ∃ du, nu.shape = ⟨lb ++ [m, n], du⟩ :=
    ⟨_, congrArg (Shape.mk · nu.shape.dynamic) hdims⟩
  have hgh := (grows_push g _).trans hgrow
  obtain ⟨h', hback, hgrow', hnew⟩ := matmulBackward_eq up (hgh.node ha) (hgh.node hb) hsa hsb
  have ha' := hgrow'.node (hgh.node ha)
  have hb' := hgrow'.node (hgh.node hb)
  have hup' := hgrow'.node hup
  have hbT : h'.nodes[h.len]? = some _ := hnew 0
  have hga := hnew 1
  have haT := hnew 2
  have hgb := hnew 3
  have hright := inferredDims_matMul haT hup' nb.shape na.dtype
  rw [hsu, matMulShape_append rfl] at hright
  constructor
  · rintro ⟨_, _, _, heq, -, -, hcorrect, -⟩
    obtain ⟨rfl, rfl, rfl⟩ : h' = _ ∧ h.len + 1 = _ ∧ h.len + 3 = _ := by
      simpa [hback] using heq
    have hdims := (hcorrect _ _ (Nat.le_add_right _ 3) hgb).symm.trans hright
    simpa [hsa, hsb] using hdims.symm
  intro hbatch
  obtain rfl : lb = rb := by simpa [hsa, hsb] using hbatch
  refine ⟨h', _, _, hback, by rw [hga]; rfl, by rw [hgb]; rfl, ?_, ?_⟩
  · intro id nd hid hnd
    obtain ⟨i, rfl⟩ := Nat.exists_eq_add_of_le hid
    rw [hnew] at hnd
    have hmem := mem_of_getElem? hnd
    simp only [mem_cons, not_mem_nil, or_false] at hmem
    rcases hmem with rfl | rfl | rfl | rfl
    · simp [inferredDims_transpose hb', hsb, transposeShape_append]
    · simp [inferredDims_matMul hup' hbT, hsu, matMulShape_append, hsa]
    · simp [inferredDims_transpose ha', hsa, transposeShape_append]
    · rw [hright, hsb]
      rfl
  · intro R _ I hI val hval da db
    have hden : ∀ {i nd}, h'.nodes[i]? = some nd → h.len ≤ i → nd.inputs ≠ [] →
        val i = ⟨I.apply nd.op nd.shape nd.dtype none (nd.inputs.map val), nd.shape, nd.dtype⟩ := by
      intro i nd hi hid hne
      rw [hval i nd hi, hgrow'.rowCount, hrows i hid, Meaning.den, Meaning.value_of_inputs hne]
    have hshape : ∀ {i nd}, h'.nodes[i]? = some nd → (val i).shape = nd.shape := fun hi => by
      rw [hval _ _ hi]
      rfl
    rw [hden hga (Nat.le_add_right _ 1) (by simp), hden hgb (Nat.le_add_right _ 3) (by simp)]
    simp only [map_cons, map_nil, hI.matMul]
    rw [hden hbT (Nat.le_refl _) (by simp), hden haT (Nat.le_add_right _ 2) (by simp)]
    simp only [map_cons, map_nil, hI.transpose, entrySum, product, hshape ha', hshape hb',
      hshape hup', hsa, hsb, hsu, batch_append, rows_append, cols_append, ← List.sum_map_add]
    refine congrArg List.sum (map_congr_left fun idx hidx => ?_)
    rw [repeatedSlice_self (mem_indices.mp hidx)]
    exact adjoint_slice m k n _ _ _ _ _

end Gradients

def constOf (dims : List Nat) : Node := ⟨.const, [], .ofDims dims, .f32⟩

/-- Two numbers as a batch, `ra` numbers, and an upstream for their product. -/
def numbers (ra : Nat) : Arena Unit :=
  { nodes := [constOf [2, 1, 1], constOf [ra, 1, 1], constOf [2, 1, 1]] }

theorem matmul_gradients_adjoint_numbers : ∃ h y ny, (numbers 2).matmul 0 1 = some (h, y) ∧
    AdjointGradients h 0 1 2 (constOf [2, 1, 1]) (constOf [2, 1, 1]) ny :=
  ⟨_, _, _, rfl, (matmul_gradients_adjoint_iff (g := numbers 2) rfl rfl rfl rfl rfl (.refl _)
    (show _ = some (constOf [2, 1, 1]) from rfl) (by rfl) fun _ _ => rfl).mpr rfl⟩

/-- A single number times two: its gradient is declared with one entry and has two. -/
theorem matmul_gradients_repeated : ∃ h y ny, (numbers 1).matmul 0 1 = some (h, y) ∧
    h.nodes[y]? = some ny ∧ ny.shape = .ofDims [2, 1, 1] ∧
    ¬ AdjointGradients h 0 1 2 (constOf [2, 1, 1]) (constOf [1, 1, 1]) ny := by
  refine ⟨_, _, _, rfl, rfl, rfl, ?_⟩
  rintro ⟨_, _, _, heq, -, -, hdims, -⟩
  cases heq
  cases hdims 7 _ (by decide) rfl

end Fuel.IR
