import Fuel.KvPool.PrivateCaches

/-!
# Reading the private caches through a page table

A page table of any batch of resident sessions, of either width, leads each
row's positions to the cells of that session's blocks; with the relation of
`Sound`, what is read there is the session's private cache.
-/

namespace Fuel.KvPool

open Fuel Method Paging List KvBlockPool

/-! ## Rows -/

variable {i : Nat} {core : KvBlockPool} {cap : Option Nat} {r : PageRow} {rows : List PageRow}
  {slots : List Slot} {row : List PhysBlockId} {s : SessionHandle} {sessions : List SessionHandle}
  {width b : Nat}

theorem residentRow_eq_ok :
    residentRow i slots = .ok row ↔ slots = row.map .resident := by
  induction slots generalizing i row with
  | nil => cases row <;> simp [residentRow]
  | cons slot rest ih =>
    cases slot with
    | externalized => cases row <;> simp [residentRow]
    | resident p =>
      unfold residentRow
      cases hrest : residentRow (i + 1) rest with
      | error e =>
        cases row with
        | nil => simp
        | cons q row =>
          simp only [map_cons, List.cons.injEq, Slot.resident.injEq, reduceCtorEq, false_iff,
            not_and]
          intro _ hmap
          rw [ih.mpr hmap] at hrest
          cases hrest
      | ok row' =>
        rw [ih.mp hrest]
        cases row with
        | nil => simp
        | cons q row =>
          simp only [Except.ok.injEq, List.cons.injEq, map_cons, Slot.resident.injEq]
          rw [(map_injective_iff.mpr fun a b h => Slot.resident.inj h).eq_iff]

/-- A row is what the session's table says, when every slot is resident. -/
structure RowOf (core : KvBlockPool) (s : SessionHandle) (r : PageRow) : Prop where
  table : ∃ t, core.tables.lookup s = some t ∧ t.slots = r.blocks.map .resident ∧
    r.contextLen = t.filledTokens % 2 ^ 32

theorem sessionBlockTable_eq_ok : core.sessionBlockTable s = .ok row ↔
      ∃ t, core.tables.lookup s = some t ∧ t.slots = row.map .resident := by
  unfold sessionBlockTable
  cases ht : core.tables.lookup s with
  | none => simp
  | some t => simp [residentRow_eq_ok]

theorem checkWidth_eq_ok {n : Nat} :
    checkWidth cap n = .ok () ↔ ∀ c, cap = some c → n ≤ c := by
  cases cap with
  | none => simp [checkWidth]
  | some c =>
    simp only [checkWidth, Option.some.injEq, forall_eq']
    split <;> simp <;> omega

/-- A row is made exactly for a resident session, and one that fits. -/
theorem pageRow_eq_ok :
    core.pageRow cap s = .ok r ↔ RowOf core s r ∧ ∀ c, cap = some c → r.blocks.length ≤ c := by
  unfold pageRow
  cases hrow : core.sessionBlockTable s with
  | error e =>
    constructor
    · intro h
      cases h
    · rintro ⟨⟨t, ht, hslots, -⟩, -⟩
      rw [sessionBlockTable_eq_ok.mpr ⟨t, ht, hslots⟩] at hrow
      cases hrow
  | ok blocks =>
    obtain ⟨t, ht, hslots⟩ := sessionBlockTable_eq_ok.mp hrow
    have hfilled : core.filledTokens s = some t.filledTokens := by
      simp [filledTokens, ht]
    have hblocks : ∀ r, RowOf core s r ↔ r = ⟨blocks, t.filledTokens % 2 ^ 32⟩ := by
      intro r
      constructor
      · rintro ⟨t', ht', hslots', hlen⟩
        obtain rfl : t' = t := Option.mem_unique ht' ht
        have hinj : Function.Injective (List.map Slot.resident) :=
          map_injective_iff.mpr fun a b h => Slot.resident.inj h
        have hsame := hinj (hslots'.symm.trans hslots)
        cases r
        rw [PageRow.mk.injEq]
        exact ⟨hsame, hlen⟩
      · rintro rfl
        exact ⟨t, ht, hslots, rfl⟩
    dsimp only
    rw [hfilled]
    cases hwidth : checkWidth cap blocks.length with
    | error e =>
      constructor
      · intro h
        cases h
      · rintro ⟨hr, hcap⟩
        rw [(hblocks r).mp hr] at hcap
        rw [checkWidth_eq_ok.mpr hcap] at hwidth
        cases hwidth
    | ok u =>
      rw [hblocks r]
      constructor
      · intro h
        cases h
        exact ⟨rfl, checkWidth_eq_ok.mp hwidth⟩
      · rintro ⟨rfl, -⟩
        rfl

/-- The rows of a batch, one per session. -/
theorem pageRows_eq_ok : core.pageRows cap sessions = .ok rows ↔
      List.Forall₂ (fun s r => core.pageRow cap s = .ok r) sessions rows := by
  induction sessions generalizing rows with
  | nil => cases rows <;> simp [pageRows]
  | cons s rest ih =>
    unfold pageRows
    cases hrow : core.pageRow cap s with
    | error e =>
      constructor
      · intro h
        cases h
      · intro h
        cases h with
        | cons hr _ =>
          rw [hrow] at hr
          cases hr
    | ok r =>
      cases hrest : core.pageRows cap rest with
      | error e =>
        constructor
        · intro h
          cases h
        · intro h
          cases h with
          | cons _ hrs =>
            rw [ih.mpr hrs] at hrest
            cases hrest
      | ok rows' =>
        constructor
        · intro h
          cases h
          exact .cons hrow (ih.mp hrest)
        intro h
        cases h with
        | cons hr hrs =>
          rw [hrow] at hr
          cases hr
          rw [ih.mpr hrs] at hrest
          cases hrest
          rfl

/-! ## The flat table -/

/-- Rows of one width, one after the other. -/
theorem getElem?_flatten {α : Type} {rows : List (List α)} (hwidth : ∀ r ∈ rows, r.length = width)
    {r : List α} (hb : rows[b]? = some r) (hi : i < width) :
    rows.flatten[b * width + i]? = r[i]? := by
  induction rows generalizing b with
  | nil => simp at hb
  | cons x rest ih =>
    have hx := hwidth x mem_cons_self
    rw [flatten_cons]
    cases b with
    | zero =>
      rw [getElem?_cons_zero, Option.some.injEq] at hb
      subst hb
      rw [Nat.zero_mul, Nat.zero_add, getElem?_append_left (by omega)]
    | succ b =>
      rw [getElem?_cons_succ] at hb
      have hpos : (b + 1) * width + i = x.length + (b * width + i) := by
        rw [Nat.succ_mul, hx]
        omega
      rw [hpos, getElem?_append_right (by omega), Nat.add_sub_cancel_left]
      exact ih (fun y hy => hwidth y (mem_cons_of_mem _ hy)) hb

/-- Row `b` of the table is the row it was made from. -/
theorem ofRows_blockTable (hwidth : ∀ r ∈ rows, r.blocks.length ≤ width) (hb : rows[b]? = some r)
    (hi : i < r.blocks.length) :
    (PageTableHost.ofRows rows width).blockTable[b * width + i]? = r.blocks[i]? := by
  have hle := hwidth r (mem_of_getElem? hb)
  have hpadded : ∀ x ∈ rows.map fun r => r.blocks ++ List.replicate (width - r.blocks.length) 0,
      x.length = width := by
    intro x hx
    obtain ⟨r', hr', rfl⟩ := mem_map.mp hx
    have := hwidth r' hr'
    rw [length_append, length_replicate]
    omega
  have hget := getElem?_flatten hpadded (by rw [getElem?_map, hb]; rfl) (i := i) (by omega)
  rw [getElem?_append_left hi] at hget
  exact hget

theorem le_foldr_max (h : r ∈ rows) :
    r.blocks.length ≤ rows.foldr (fun r w => max r.blocks.length w) 0 := by
  induction rows with
  | nil => cases h
  | cons x rest ih =>
    rw [foldr_cons]
    rcases mem_cons.mp h with rfl | hold
    · exact Nat.le_max_left _ _
    · exact Nat.le_trans (ih hold) (Nat.le_max_right _ _)

/-- A page table of the batch: made of one row per session, each fitting. -/
structure TableOf (core : KvBlockPool) (sessions : List SessionHandle) (pt : PageTableHost) :
    Prop where
  rows : ∃ rows, pt = .ofRows rows pt.maxBlocks ∧ List.Forall₂ (RowOf core) sessions rows ∧
    ∀ r ∈ rows, r.blocks.length ≤ pt.maxBlocks

section Tables

variable {V : Type} {d : DeviceKvPool V} {sessions : List SessionHandle} {pt : PageTableHost}

theorem materializeBlockTable_tableOf (h : d.materializeBlockTable sessions = .ok pt) :
    TableOf d.core sessions pt := by
  unfold DeviceKvPool.materializeBlockTable at h
  cases hrows : d.core.pageRows none sessions with
  | error e =>
    rw [hrows] at h
    cases h
  | ok rows =>
    rw [hrows] at h
    cases h
    refine ⟨rows, rfl, (pageRows_eq_ok.mp hrows).imp fun s r hr => (pageRow_eq_ok.mp hr).1, ?_⟩
    intro r hr
    exact Nat.le_trans (le_foldr_max hr) (Nat.le_max_right _ _)

theorem materializeBlockTablePadded_tableOf {cap : Nat}
    (h : d.materializeBlockTablePadded sessions cap = .ok pt) : TableOf d.core sessions pt := by
  unfold DeviceKvPool.materializeBlockTablePadded at h
  cases hrows : d.core.pageRows (some (max cap 1)) sessions with
  | error e =>
    simp only [hrows] at h
    cases h
  | ok rows =>
    simp only [hrows] at h
    cases h
    have hall := pageRows_eq_ok.mp hrows
    refine ⟨rows, rfl, hall.imp fun s r hr => (pageRow_eq_ok.mp hr).1, ?_⟩
    intro r hr
    obtain ⟨s, -, hs⟩ := forall₂_exists hall.flip hr
    exact (pageRow_eq_ok.mp hs).2 _ rfl

/-- A row read through the table is read through the session's blocks. -/
theorem TableOf.readCell (h : TableOf d.core sessions pt) {b : Nat} {s : SessionHandle}
    (hb : sessions[b]? = some s) : ∃ t, ∃ row : List PhysBlockId,
      d.core.tables.lookup s = some t ∧ t.slots = row.map .resident ∧
      ∀ i (hi : i < row.length),
        pt.blockTable.getD (b * pt.maxBlocks + i) 0 = row[i] := by
  obtain ⟨rows, hpt, hrows, hwidth⟩ := h.rows
  obtain ⟨r, hr, ⟨t, ht, hslots, -⟩⟩ : ∃ r, rows[b]? = some r ∧ RowOf d.core s r := by
    have hblt : b < rows.length := by
      rw [← hrows.length_eq]
      exact lt_of_getElem? hb
    refine ⟨rows[b], getElem?_eq_getElem hblt, ?_⟩
    obtain ⟨hslt, rfl⟩ := List.getElem?_eq_some_iff.mp hb
    exact List.forall₂_iff_get.mp hrows |>.2 b hslt hblt
  refine ⟨t, r.blocks, ht, hslots, ?_⟩
  intro i hi
  have hcell := ofRows_blockTable hwidth hr hi
  rw [← hpt] at hcell
  rw [getD_eq_getElem?_getD, hcell, getElem?_eq_getElem hi]
  rfl

end Tables

/-! ## What is read -/

/-- The cells at the first `n` positions of row `b` of a page table. -/
def DeviceKvPool.readRow {V : Type} (d : DeviceKvPool V) (pt : PageTableHost) (b n : Nat) :
    List V :=
  (List.range n).map (d.readCell pt b)

section Reads

variable {V : Type} {geom : KvGeometry} {zero : V} {w : Tenancy V} {vals : SessionHandle → List V}
  {sessions : List SessionHandle} {pt : PageTableHost} {b : Nat} {s : SessionHandle}

/-- Through a page table, the private cache is read. -/
theorem Sound.readRow (h : Sound geom w vals) (hbs : 0 < geom.blockSize)
    (hpt : TableOf w.dev.core sessions pt) (hs : s ∈ w.issued) (hb : sessions[b]? = some s) :
    ∃ n, w.dev.core.filledTokens s = some n ∧
      w.dev.readRow pt b n = w.model.caches s := by
  obtain ⟨t, row, ht, hslots, hcell⟩ := hpt.readCell hb
  have hlen : (vals s).length = t.filledTokens := by
    rcases h.filled s t ht with heq | ⟨-, hext⟩
    · exact heq
    · rw [hslots] at hext
      simp at hext
  have hstep := h.core.inStep s t ht
  rw [h.core.geom_eq, inStep_iff hbs, hslots, length_map] at hstep
  refine ⟨t.filledTokens, by simp [filledTokens, ht], ?_⟩
  have hlt : ∀ i, i * geom.blockSize < (vals s).length → i < row.length := by
    intro i hi
    by_contra hge
    have := Nat.mul_le_mul_right geom.blockSize (Nat.not_lt.mp hge)
    omega
  have hrow : ∀ i, i * geom.blockSize < (vals s).length → w.dev.core.residentBlock s i
      = some ((fun i => pt.blockTable.getD (b * pt.maxBlocks + i) 0) i) := by
    intro i hi
    have hilt := hlt i hi
    rw [residentBlock_eq ht, hslots, getElem?_map, getElem?_eq_getElem hilt, ← hcell i hilt]
    rfl
  have hread := h.keeps.read hbs hrow
  rw [← h.own s hs, ← hread, hlen]
  unfold DeviceKvPool.readRow DeviceKvPool.readCell
  rw [h.core.geom_eq]

/-- The cells before the last one, read through a page table. -/
theorem Sound.readRow_before (h : Sound geom w vals) (hbs : 0 < geom.blockSize)
    (hpt : TableOf w.dev.core sessions pt) (hs : s ∈ w.issued) (hb : sessions[b]? = some s)
    {cache : List V} {last : V} (hcache : w.model.caches s = cache ++ [last]) :
    w.dev.readRow pt b cache.length = cache := by
  obtain ⟨n, -, hread⟩ := h.readRow hbs hpt hs hb
  rw [hcache] at hread
  have hn : n = cache.length + 1 := by
    have := congrArg List.length hread
    simpa [DeviceKvPool.readRow] using this
  have htake := congrArg (List.take cache.length) hread
  rw [take_left, hn] at htake
  unfold DeviceKvPool.readRow at htake ⊢
  rwa [← map_take, take_range, Nat.min_eq_left (Nat.le_succ _)] at htake

end Reads

end Fuel.KvPool
