import Fuel.Inference.Session
import Fuel.KvPool.PageTable

/-!
# Paged forwards

The single-token forwards of `PagedDecodeModel`
(`fuel-inference/src/multi_session.rs`), as `fuel-model-llama/src/lib.rs` runs
them on a device pool: room is made for the token's cell, a page table is
materialized, the graph is realized over what the table leads to, and the
token's K and V rows are written.

What a realized graph computes is a parameter: the logits and the new cell are
a function of the fed token and of the cells before it. A realize may also
fail for reasons of its own. A failure comes after the room was made, so the
session has grown by a cell nothing was written to.
-/

namespace Fuel.Inference

open Fuel Method KvPool List Function Outcome DeviceKvPool

inductive PagedDecodePlan where
  | replan
  | planOnce
  deriving DecidableEq, Repr

/-- The errors of a paged forward. -/
inductive ForwardError where
  | unsupported (msg : String)
  | pool (e : DeviceError)
  | table (e : KvAllocError)
  | tokenCount (tokens sessions : Nat)
  | frontierNotResident
  | batchNeeds (needed free : Nat)
  | realize (msg : String)
  deriving DecidableEq, Repr

/-- `PagedDecodeModel`, and the sampling it is used with. -/
structure PagedDecodeModel (V L P : Type) where
  /-- The checks of the model against the pool: RoPE tables, dtype, layers. -/
  unsupported : Option String
  /-- The new cell and the logits, from the cells before it and the fed token. -/
  forward : List V → UInt32 → Except String (V × L)
  /-- What else makes the realize for these sessions, at these positions, fail. -/
  fault : List (SessionHandle × Nat) → Option String
  /-- Which copies of a shared block the device refuses. -/
  writeFault : PhysBlockId → Option String
  /-- The text of an error. -/
  describe : ForwardError → String
  sampleNext : Sampler L P
  /-- `admit_params`. -/
  admitParams : P → Except String SamplingStrategy
  /-- `SamplingParams::seed`. -/
  seed : P → UInt64

abbrev ForwardM (V : Type) := Method ForwardError (DeviceKvPool V)

variable {V L P : Type} (m : PagedDecodeModel V L P)

/-- A call on the pool, its error wrapped. -/
def onDevice {α : Type} (m : DeviceM V α) : ForwardM V α := fun d =>
  match m d with
  | .ok a d => .ok a d
  | .err e d => .err (.pool e) d
  | .abort why => .abort why

/-- The K and V rows of one token, written to their cell. -/
def writeCell (d : DeviceKvPool V) (p : PhysBlockId) (slot : Nat) (x : V) : DeviceKvPool V :=
  { d with cells := Function.update d.cells p (Function.update (d.cells p) slot x) }

/-- The page table of the step: of a fixed width for a held plan. -/
def stepTable (d : DeviceKvPool V) (cap : Option Nat) (sessions : List SessionHandle) :
    Except KvAllocError PageTableHost :=
  match cap with
  | some cap => d.materializeBlockTablePadded sessions cap
  | none => d.materializeBlockTable sessions

/-! ## One session -/

/-- What `advance_paged_session` returns. -/
structure Advance where
  tokPos : Nat
  phys : PhysBlockId
  table : PageTableHost

/-- `advance_paged_session`, and the same lines of `forward_paged_step`. -/
def advancePagedSession (session : SessionHandle) (cap : Option Nat) : ForwardM V Advance := do
  let d ← get
  let tokPos ← okOr (d.core.filledTokens session) (.pool .unknownSession)
  let phys ← onDevice (reserveAt m.writeFault session d.core.geom.blockSize tokPos)
  let d ← get
  match stepTable d cap [session] with
  | .ok table => pure ⟨tokPos, phys, table⟩
  | .error e => fail (.table e)

/-- The realize of a single-token step, on the pool after `advance`. -/
def realizeStep (token : UInt32) (session : SessionHandle)
    (adv : Advance) : ForwardM V L := fun d =>
  match m.fault [(session, adv.tokPos)] with
  | some msg => .err (.realize msg) d
  | none =>
    match m.forward (d.readRow adv.table 0 adv.tokPos) token with
    | .error msg => .err (.realize msg) d
    | .ok (v, logits) =>
      .ok logits (writeCell d adv.phys (adv.tokPos % d.core.geom.blockSize) v)

/-- `forward_paged_step_persistent`; under `Replan`, `forward_paged_step`. -/
def forwardPagedStepPersistent (token : UInt32)
    (session : SessionHandle) (maxBlocksCap : Nat) (plan : PagedDecodePlan) : ForwardM V L :=
  match m.unsupported with
  | some msg => fail (.unsupported msg)
  | none => do
    let adv ← advancePagedSession m session
      (match plan with
      | .planOnce => some maxBlocksCap
      | .replan => none)
    realizeStep m token session adv

/-! ## A batch -/

/-- The positions of a batch. -/
def positionsOf (core : KvBlockPool) : List SessionHandle → Option (List Nat)
  | [] => some []
  | s :: rest =>
    match core.filledTokens s, positionsOf core rest with
    | some p, some ps => some (p :: ps)
    | _, _ => none

/-- The capacity pre-check: a block for each session at a boundary, and one for
each whose last block is shared. -/
def blocksNeeded (core : KvBlockPool) : List (SessionHandle × Nat) → ForwardM V Nat
  | [] => pure 0
  | (s, pos) :: rest => do
    let r ← remUsize pos core.geom.blockSize
    if r = 0 then do
      let n ← blocksNeeded core rest
      pure (n + 1)
    else do
      let frontier ← okOr (core.residentBlock s (pos / core.geom.blockSize)) .frontierNotResident
      let rc ← index core.refcount frontier
      let n ← blocksNeeded core rest
      pure (if rc > 1 then n + 1 else n)

/-- The loop that makes room for the tokens of a batch. -/
def reserveAll (blockSize : Nat) : List (SessionHandle × Nat) →
    ForwardM V (List (PhysBlockId × Nat))
  | [] => pure []
  | (s, pos) :: rest => do
    let phys ← onDevice (reserveAt m.writeFault s blockSize pos)
    let writes ← reserveAll blockSize rest
    pure ((phys, pos % blockSize) :: writes)

/-- The rows of a batched realize, from row `b` on: each is the forward of its session. -/
def realizeRows (m : PagedDecodeModel V L P) (d : DeviceKvPool V) (table : PageTableHost) :
    Nat → List (Nat × UInt32) → Except String (List (V × L))
  | _, [] => .ok []
  | b, (pos, token) :: rest =>
    match m.forward (d.readRow table b pos) token with
    | .error msg => .error msg
    | .ok row =>
      match realizeRows m d table (b + 1) rest with
      | .error msg => .error msg
      | .ok rows => .ok (row :: rows)

/-- The writes of a batch. -/
def writeCells (d : DeviceKvPool V) (writes : List ((PhysBlockId × Nat) × V)) : DeviceKvPool V :=
  writes.foldl (fun d w => writeCell d w.1.1 w.1.2 w.2) d

/-- The realize of a batched step. -/
def realizeBatch (rows : List (SessionHandle × Nat))
    (tokens : List UInt32) (writes : List (PhysBlockId × Nat)) (table : PageTableHost) :
    ForwardM V (List L) := fun d =>
  match m.fault rows with
  | some msg => .err (.realize msg) d
  | none =>
    match realizeRows m d table 0 ((rows.map Prod.snd).zip tokens) with
    | .error msg => .err (.realize msg) d
    | .ok out => .ok (out.map Prod.snd) (writeCells d (writes.zip (out.map Prod.fst)))

/-- `forward_paged_step_batched`. -/
def forwardPagedStepBatched (tokens : List UInt32)
    (sessions : List SessionHandle) : ForwardM V (List L) :=
  match m.unsupported with
  | some msg => fail (.unsupported msg)
  | none =>
    if tokens.length = 0 ∨ tokens.length ≠ sessions.length then
      fail (.tokenCount tokens.length sessions.length)
    else do
      let d ← get
      let positions ← okOr (positionsOf d.core sessions) (.pool .unknownSession)
      let needed ← blocksNeeded d.core (sessions.zip positions)
      if needed > d.core.freeBlocks then fail (.batchNeeds needed d.core.freeBlocks)
      else do
        let writes ← reserveAll m d.core.geom.blockSize (sessions.zip positions)
        let d ← get
        match stepTable d none sessions with
        | .error e => fail (.table e)
        | .ok table => realizeBatch m (sessions.zip positions) tokens writes table

/-! ## What a forward does -/

section Specs

variable {geom : KvGeometry} {w : Tenancy V} {vals : SessionHandle → List V} {s : SessionHandle}
  {d : DeviceKvPool V} {sessions : List SessionHandle} {r : SessionHandle × Nat}
  {rows : List (SessionHandle × Nat)}

theorem stepTable_tableOf {cap : Option Nat} {pt : PageTableHost}
    (h : stepTable d cap sessions = .ok pt) : TableOf d.core sessions pt := by
  cases cap with
  | none => exact materializeBlockTable_tableOf h
  | some cap => exact materializeBlockTablePadded_tableOf h

/-- Writing what a cell holds changes nothing. -/
theorem writeCell_self (d : DeviceKvPool V) (p : PhysBlockId) (slot : Nat) :
    writeCell d p slot (d.cells p slot) = d := by
  unfold writeCell
  rw [update_eq_self, update_eq_self]

/-- `s` has written `x`, and the pool is `d`. -/
def wrote (w : Tenancy V) (s : SessionHandle) (d : DeviceKvPool V) (x : V) : Tenancy V :=
  { w.use s with dev := d, model := w.model.written s x }

@[simp] theorem wrote_dev (w : Tenancy V) (s : SessionHandle) (d : DeviceKvPool V) (x : V) :
    (wrote w s d x).dev = d := rfl

/-- Once there is room for a token of `s`, every value can be written: the decode write of it
is a call of the tenant. -/
theorem step_write_of_reserve {t : BlockTable} (ht : w.dev.core.tables.lookup s = some t)
    {p : PhysBlockId}
    (hrun : reserveAt noFault s w.dev.core.geom.blockSize t.filledTokens w.dev = .ok p d)
    (x : V) : w.step (.write s x) = some
      (wrote w s (writeCell d p (t.filledTokens % w.dev.core.geom.blockSize) x) x) := by
  simp only [Tenancy.step, decodeWrite_run ht, hrun, andThen_ok]
  rfl

/-- Without room, the write is refused whatever the value. -/
theorem step_write_of_refused {t : BlockTable} (ht : w.dev.core.tables.lookup s = some t)
    {e : DeviceError}
    (hrun : reserveAt noFault s w.dev.core.geom.blockSize t.filledTokens w.dev = .err e d)
    (x : V) : w.step (.write s x) = some
      { w.use s with dev := d, refused := s :: w.refused } := by
  simp only [Tenancy.step, decodeWrite_run ht, hrun, andThen_err]
  rfl

/-- No block is copied to make room, so it does not matter which copies the device refuses. -/
theorem reserveAt_noFault (h : Sound geom w vals) (hbs : 0 < geom.blockSize) (hs : s ∈ w.issued)
    (hr : s ∉ w.refused) {t : BlockTable} (ht : w.dev.core.tables.lookup s = some t)
    (fault : PhysBlockId → Option String) :
    reserveAt fault s w.dev.core.geom.blockSize t.filledTokens w.dev
      = reserveAt noFault s w.dev.core.geom.blockSize t.filledTokens w.dev := by
  obtain ⟨o, ho, -⟩ := h.reserveAt hbs hs hr ht
  rw [h.core.geom_eq]
  exact (ho fault w.dev.cells).trans (ho noFault w.dev.cells).symm

/-- How a forward of `s` on `w` ends: with a cell written and the logits, both a function of the
private cache and the token; or with an error, and at most the session itself touched. -/
inductive Forwarded (m : PagedDecodeModel V L P) (geom : KvGeometry) (w : Tenancy V)
    (s : SessionHandle) (token : UInt32) : Outcome ForwardError (DeviceKvPool V) L → Prop
  | ok {w' : Tenancy V} {v : V} {logits : L} (moves : Moves geom [s] w w')
      (computed : m.forward (w.model.caches s) token = .ok (v, logits))
      (cache : w'.model.caches s = w.model.caches s ++ [v]) (healthy : s ∉ w'.refused) :
      Forwarded m geom w s token (.ok logits w'.dev)
  | err {w' : Tenancy V} (e : ForwardError) (moves : Moves geom [s] w w') :
      Forwarded m geom w s token (.err e w'.dev)
  | abort (why : Abort) : Forwarded m geom w s token (.abort why)

theorem forwardPagedStepPersistent_spec (h : Sound geom w vals) (hbs : 0 < geom.blockSize)
    (hs : s ∈ w.issued) (hr : s ∉ w.refused) (m : PagedDecodeModel V L P) (token : UInt32)
    (cap : Nat) (plan : PagedDecodePlan) :
    Forwarded m geom w s token (forwardPagedStepPersistent m token s cap plan w.dev) := by
  unfold forwardPagedStepPersistent
  cases m.unsupported with
  | some msg => exact .err _ (.refl h _)
  | none =>
    dsimp only
    generalize (match plan with
      | .planOnce => some cap
      | .replan => none) = width
    rw [bind_run]
    unfold advancePagedSession
    rw [bind_run, get_run, andThen_ok]
    cases ht : w.dev.core.tables.lookup s with
    | none =>
      have hnone : w.dev.core.filledTokens s = none := by simp [KvBlockPool.filledTokens, ht]
      rw [hnone]
      exact .err _ (.refl h _)
    | some t =>
      have hpos : w.dev.core.filledTokens s = some t.filledTokens := by
        simp [KvBlockPool.filledTokens, ht]
      rw [hpos, okOr_some, bind_run, pure_run, andThen_ok, bind_run]
      have hmoves : ∀ x w', w.step (.write s x) = some w' → Moves geom [s] w w' :=
        fun x w' hstep => Moves.of_step h hbs (c := .write s x) ⟨hs, hr⟩ hstep (by simp)
      have hnone := reserveAt_noFault h hbs hs hr ht m.writeFault
      cases hrun : reserveAt noFault s w.dev.core.geom.blockSize t.filledTokens w.dev with
      | abort why =>
        simp only [onDevice, hnone, hrun, andThen_abort]
        exact .abort why
      | err e d =>
        simp only [onDevice, hnone, hrun, andThen_err]
        exact .err _ (hmoves (w.dev.cells 0 0) _ (step_write_of_refused ht hrun _))
      | ok p d =>
        simp only [onDevice, hnone, hrun, andThen_ok, bind_run, get_run]
        have hwritten := fun x => hmoves x _ (step_write_of_reserve ht hrun x)
        -- a failure leaves the new cell as it was found
        have hfound := hwritten (d.cells p (t.filledTokens % w.dev.core.geom.blockSize))
        rw [writeCell_self] at hfound
        cases hpt : stepTable d width [s] with
        | error e => exact .err _ hfound
        | ok table =>
          simp only [pure_run, andThen_ok, realizeStep]
          obtain ⟨vals', hsound⟩ := hfound.sound
          have hread : d.readRow table 0 t.filledTokens = w.model.caches s := by
            have hlen : t.filledTokens = (w.model.caches s).length := by
              rw [← h.own s hs, h.length_eq hr ht]
            rw [hlen]
            exact hsound.readRow_before hbs (stepTable_tableOf hpt) (hfound.issued s hs) rfl
              (update_self _ _ _)
          rw [hread]
          cases m.fault [(s, t.filledTokens)] with
          | some msg => exact .err _ hfound
          | none =>
            cases hf : m.forward (w.model.caches s) token with
            | error msg => exact .err _ hfound
            | ok out =>
              obtain ⟨v, logits⟩ := out
              have hgeom : d.core.geom = w.dev.core.geom :=
                hsound.core.geom_eq.trans h.core.geom_eq.symm
              rw [hgeom]
              exact .ok (hwritten v) hf (update_self _ _ _) hr

/-! ## What a batch does -/

theorem positionsOf_eq_some {core : KvBlockPool} {positions : List Nat}
    (h : positionsOf core sessions = some positions) :
    (sessions.zip positions).map Prod.fst = sessions ∧
      ∀ r ∈ sessions.zip positions, core.filledTokens r.1 = some r.2 := by
  induction sessions generalizing positions with
  | nil => simp
  | cons s rest ih =>
    unfold positionsOf at h
    split at h
    · rename_i p ps hp hps
      cases h
      obtain ⟨hmap, hfilled⟩ := ih hps
      refine ⟨by rw [zip_cons_cons, map_cons, hmap], ?_⟩
      intro r hmem
      rw [zip_cons_cons] at hmem
      rcases mem_cons.mp hmem with rfl | hold
      · exact hp
      · exact hfilled r hold
    · cases h

/-- The pre-check reads, and does not write. -/
theorem blocksNeeded_leaves (core : KvBlockPool) (rows : List (SessionHandle × Nat))
    (d : DeviceKvPool V) : Leaves d (blocksNeeded core rows d) := by
  induction rows with
  | nil => rfl
  | cons r rest ih =>
    obtain ⟨s, pos⟩ := r
    unfold blocksNeeded
    rw [bind_run]
    refine (leaves_remUsize _ _ d).andThen fun n => ?_
    split
    · exact ih.andThen fun _ => rfl
    · rw [bind_run]
      refine (leaves_okOr _ _ d).andThen fun p => ?_
      rw [bind_run]
      refine (leaves_index _ _ d).andThen fun rc => ?_
      exact ih.andThen fun _ => rfl

/-- The sessions of a batch: different ones, all of them to be used, at their positions. -/
structure Batch (w : Tenancy V) (rows : List (SessionHandle × Nat)) : Prop where
  nodup : (rows.map Prod.fst).Nodup
  issued : ∀ r ∈ rows, r.1 ∈ w.issued
  healthy : ∀ r ∈ rows, r.1 ∉ w.refused
  filled : ∀ r ∈ rows, w.dev.core.filledTokens r.1 = some r.2

section Rows

variable (h : Batch w (r :: rows))

include h

theorem Batch.head_ne {x : SessionHandle × Nat} (hx : x ∈ rows) : x.1 ∉ [r.1] := by
  have hnodup := h.nodup
  rw [map_cons, nodup_cons] at hnodup
  intro hmem
  rw [mem_singleton] at hmem
  exact hnodup.1 (hmem ▸ mem_map_of_mem hx)

/-- The rest of a batch, after calls on its first session. -/
theorem Batch.rest {w' : Tenancy V} (hm : Moves geom [r.1] w w') : Batch w' rows := by
  have hnodup := h.nodup
  rw [map_cons, nodup_cons] at hnodup
  have hne : ∀ x ∈ rows, x.1 ∉ [r.1] := fun x hx => h.head_ne hx
  refine ⟨hnodup.2, ?_, ?_, ?_⟩
  · intro x hx
    exact hm.issued _ (h.issued x (mem_cons_of_mem _ hx))
  · intro x hx
    exact hm.refused _ (h.issued x (mem_cons_of_mem _ hx)) (hne x hx)
      (h.healthy x (mem_cons_of_mem _ hx))
  · intro x hx
    have hold := h.filled x (mem_cons_of_mem _ hx)
    unfold KvBlockPool.filledTokens at hold ⊢
    rw [hm.tables _ (h.issued x (mem_cons_of_mem _ hx)) (hne x hx)]
    exact hold

theorem Batch.head : ∃ t, w.dev.core.tables.lookup r.1 = some t ∧
      t.filledTokens = r.2 := by
  have hfilled := h.filled r mem_cons_self
  unfold KvBlockPool.filledTokens at hfilled
  rwa [Option.map_eq_some_iff] at hfilled

end Rows

theorem reserveAll_cons_run (blockSize : Nat) (s : SessionHandle) (pos : Nat)
    (rest : List (SessionHandle × Nat)) (d : DeviceKvPool V) :
    reserveAll m blockSize ((s, pos) :: rest) d =
      (onDevice (reserveAt m.writeFault s blockSize pos) d).andThen fun p d =>
        (reserveAll m blockSize rest d).andThen fun writes d =>
          .ok ((p, pos % blockSize) :: writes) d := rfl

/-- Making room for a batch is a decode write of each session, of whatever its new cell holds. -/
theorem reserveAll_moves (h : Sound geom w vals) (hbs : 0 < geom.blockSize) (hb : Batch w rows) :
    (∃ why, reserveAll m geom.blockSize rows w.dev = .abort why) ∨
    (∃ e w', reserveAll m geom.blockSize rows w.dev = .err e w'.dev ∧
      Moves geom (rows.map Prod.fst) w w') ∨
    ∃ writes w', reserveAll m geom.blockSize rows w.dev = .ok writes w'.dev ∧
      Moves geom (rows.map Prod.fst) w w' ∧
      ∀ r ∈ rows, ∃ x, w'.model.caches r.1 = w.model.caches r.1 ++ [x] := by
  induction rows generalizing w vals with
  | nil => exact .inr (.inr ⟨[], w, rfl, .refl h _, by simp⟩)
  | cons r rest ih =>
    obtain ⟨s, pos⟩ := r
    obtain ⟨t, ht, rfl⟩ := hb.head
    have hs := hb.issued _ mem_cons_self
    have hr := hb.healthy _ mem_cons_self
    have hmoves : ∀ x w', w.step (.write s x) = some w' → Moves geom [s] w w' :=
      fun x w' hstep => Moves.of_step h hbs (c := .write s x) ⟨hs, hr⟩ hstep (by simp)
    have hsub : ∀ x ∈ [s], x ∈ ((s, t.filledTokens) :: rest).map Prod.fst := by simp
    have hsub' : ∀ x ∈ rest.map Prod.fst, x ∈ ((s, t.filledTokens) :: rest).map Prod.fst :=
      fun x hx => mem_cons_of_mem _ hx
    have hgeom := congrArg KvGeometry.blockSize h.core.geom_eq
    have hnone := reserveAt_noFault h hbs hs hr ht m.writeFault
    rw [hgeom] at hnone
    simp only [reserveAll_cons_run, onDevice, hnone]
    cases hrun : reserveAt noFault s geom.blockSize t.filledTokens w.dev with
    | abort why => exact .inl ⟨why, rfl⟩
    | err e d =>
      rw [← hgeom] at hrun
      exact .inr (.inl ⟨_, _, rfl,
        (hmoves (w.dev.cells 0 0) _ (step_write_of_refused ht hrun _)).mono hsub⟩)
    | ok p d =>
      rw [← hgeom] at hrun
      have hfound := hmoves (d.cells p (t.filledTokens % w.dev.core.geom.blockSize)) _
        (step_write_of_reserve ht hrun _)
      rw [writeCell_self] at hfound
      obtain ⟨vals₁, hsound₁⟩ := hfound.sound
      have hrest := ih hsound₁ (hb.rest hfound)
      rw [wrote_dev] at hrest
      simp only [andThen_ok]
      rcases hrest with
        ⟨why, hrest⟩ | ⟨e, w', hrest, hm⟩ | ⟨writes, w', hrest, hm, hcaches⟩
      · refine .inl ⟨why, ?_⟩
        rw [hrest]
        rfl
      · refine .inr (.inl ⟨e, w', ?_, (hfound.mono hsub).trans (hm.mono hsub')⟩)
        rw [hrest]
        rfl
      refine .inr (.inr ⟨(p, t.filledTokens % geom.blockSize) :: writes, w', ?_,
        (hfound.mono hsub).trans (hm.mono hsub'), ?_⟩)
      · rw [hrest]
        rfl
      have hnodup := hb.nodup
      rw [map_cons, nodup_cons] at hnodup
      intro r hmem
      rcases mem_cons.mp hmem with rfl | hold
      · refine ⟨d.cells p (t.filledTokens % w.dev.core.geom.blockSize), ?_⟩
        exact (hm.caches s (hfound.issued s hs) hnodup.1).trans (update_self _ _ _)
      · obtain ⟨x, hx⟩ := hcaches r hold
        refine ⟨x, hx.trans ?_⟩
        rw [hfound.caches r.1 (hb.issued r (mem_cons_of_mem _ hold)) (hb.head_ne hold)]

/-- The tables do not depend on the cells: once there is room for a batch, any values can be
written, one session after the other. -/
theorem reserveAll_writes (h : Sound geom w vals) (hbs : 0 < geom.blockSize) (hb : Batch w rows)
    {cells : PhysBlockId → Nat → V} {writes : List (PhysBlockId × Nat)}
    (hrun : reserveAll m geom.blockSize rows ⟨w.dev.core, cells⟩ = .ok writes d) (xs : List V)
    (hxs : xs.length = rows.length) :
    d.cells = cells ∧ ∃ w', w'.dev = writeCells ⟨d.core, w.dev.cells⟩ (writes.zip xs) ∧
      Moves geom (rows.map Prod.fst) w w' ∧
      ∀ (i : Nat) (r : SessionHandle × Nat) (x : V), rows[i]? = some r → xs[i]? = some x →
        w'.model.caches r.1 = w.model.caches r.1 ++ [x] ∧ r.1 ∉ w'.refused := by
  induction rows generalizing w vals writes xs with
  | nil =>
    cases hrun
    exact ⟨rfl, w, by simp [writeCells], .refl h _, by simp⟩
  | cons r rest ih =>
    obtain ⟨s, pos⟩ := r
    obtain ⟨t, ht, rfl⟩ := hb.head
    obtain ⟨x, xs, rfl⟩ := exists_cons_of_length_eq_add_one hxs
    have hs := hb.issued _ mem_cons_self
    have hr := hb.healthy _ mem_cons_self
    have hgeom := congrArg KvGeometry.blockSize h.core.geom_eq
    have hnodup := hb.nodup
    rw [map_cons, nodup_cons] at hnodup
    -- the room is made in the same way on the pool the values are written to
    obtain ⟨o, ho, -⟩ := h.reserveAt hbs hs hr ht
    simp only [reserveAll_cons_run, onDevice, ho m.writeFault cells] at hrun
    cases o with
    | abort why => cases hrun
    | err e core => cases hrun
    | ok p core =>
      simp only [withCells, andThen_ok] at hrun
      have hroom : reserveAt noFault s w.dev.core.geom.blockSize t.filledTokens w.dev
          = .ok p ⟨core, w.dev.cells⟩ := by
        rw [hgeom]
        exact ho noFault w.dev.cells
      have hfirst := Moves.of_step h hbs (c := .write s x) ⟨hs, hr⟩
        (step_write_of_reserve ht hroom x) (by simp)
      obtain ⟨vals₁, hsound₁⟩ := hfirst.sound
      cases hrest : reserveAll m geom.blockSize rest ⟨core, cells⟩ with
      | abort why =>
        rw [hrest] at hrun
        cases hrun
      | err e d' =>
        rw [hrest] at hrun
        cases hrun
      | ok writes' d' =>
        rw [hrest] at hrun
        cases hrun
        obtain ⟨hcells, w', hdev, hm, hcaches⟩ := ih hsound₁ (hb.rest hfirst) hrest xs
          (Nat.succ.inj hxs)
        refine ⟨hcells, w', ?_, ?_, ?_⟩
        · rw [hdev, zip_cons_cons, ← hgeom]
          rfl
        · exact (hfirst.mono (by simp [Call.sessions])).trans
            (hm.mono fun y hy => mem_cons_of_mem _ hy)
        intro i r y hi hy
        cases i with
        | zero =>
          cases hi
          cases hy
          refine ⟨(hm.caches s (hfirst.issued s hs) hnodup.1).trans (update_self _ _ _),
            hm.refused s (hfirst.issued s hs) hnodup.1 hr⟩
        | succ i =>
          rw [getElem?_cons_succ] at hi hy
          obtain ⟨hcache, hhealthy⟩ := hcaches i r y hi hy
          have hmem := mem_of_getElem? hi
          refine ⟨hcache.trans ?_, hhealthy⟩
          rw [hfirst.caches r.1 (hb.issued r (mem_cons_of_mem _ hmem)) (hb.head_ne hmem)]

/-- A batched realize computes the forward of each row. -/
theorem realizeRows_eq_ok {m : PagedDecodeModel V L P} {pt : PageTableHost} {b : Nat}
    {rows : List (Nat × UInt32)} {out : List (V × L)} (h : realizeRows m d pt b rows = .ok out) :
    out.length = rows.length ∧
      ∀ (i pos : Nat) (token : UInt32) (v : V) (logits : L), rows[i]? = some (pos, token) →
        out[i]? = some (v, logits) → m.forward (d.readRow pt (b + i) pos) token = .ok (v, logits)
    := by
  induction rows generalizing b out with
  | nil =>
    cases h
    simp
  | cons r rest ih =>
    obtain ⟨pos, token⟩ := r
    unfold realizeRows at h
    cases hrow : m.forward (d.readRow pt b pos) token with
    | error msg =>
      rw [hrow] at h
      cases h
    | ok row =>
      rw [hrow] at h
      cases hrest : realizeRows m d pt (b + 1) rest with
      | error msg =>
        rw [hrest] at h
        cases h
      | ok out' =>
        rw [hrest] at h
        cases h
        obtain ⟨hlen, hrows⟩ := ih hrest
        refine ⟨by simp [hlen], ?_⟩
        intro i pos' token' v logits hi hout
        cases i with
        | zero =>
          cases hi
          cases hout
          exact hrow
        | succ i =>
          have := hrows i pos' token' v logits hi hout
          rwa [Nat.add_assoc, Nat.add_comm 1 i] at this

/-- How a batched forward on `w` ends: with the forward of each session on its private cache, or
with an error, and at most the sessions of the batch touched. -/
inductive BatchForwarded (m : PagedDecodeModel V L P) (geom : KvGeometry) (w : Tenancy V)
    (sessions : List SessionHandle) (tokens : List UInt32) :
    Outcome ForwardError (DeviceKvPool V) (List L) → Prop
  | ok {w' : Tenancy V} {out : List (V × L)} (moves : Moves geom sessions w w')
      (rows : out.length = sessions.length)
      (computed : ∀ (i : Nat) (s : SessionHandle) (token : UInt32) (v : V) (logits : L),
        sessions[i]? = some s → tokens[i]? = some token → out[i]? = some (v, logits) →
          m.forward (w.model.caches s) token = .ok (v, logits) ∧
          w'.model.caches s = w.model.caches s ++ [v] ∧ s ∉ w'.refused) :
      BatchForwarded m geom w sessions tokens (.ok (out.map Prod.snd) w'.dev)
  | err {w' : Tenancy V} (e : ForwardError) (moves : Moves geom sessions w w') :
      BatchForwarded m geom w sessions tokens (.err e w'.dev)
  | abort (why : Abort) : BatchForwarded m geom w sessions tokens (.abort why)

section Realize

variable {w₁ : Tenancy V} {pt : PageTableHost} (h : Sound geom w vals) (hbs : 0 < geom.blockSize)
  (hb : Batch w rows) (hm : Moves geom (rows.map Prod.fst) w w₁)
  (hcaches : ∀ r ∈ rows, ∃ x, w₁.model.caches r.1 = w.model.caches r.1 ++ [x])
  (hpt : stepTable w₁.dev none (rows.map Prod.fst) = .ok pt)

include h hbs hb hm hcaches hpt

/-- Once there is room for a batch, a row of the step table leads to the cells before the new
one. -/
theorem Batch.readRow {i : Nat} (hi : rows[i]? = some r) :
    w₁.dev.readRow pt i r.2 = w.model.caches r.1 := by
  obtain ⟨vals₁, hsound₁⟩ := hm.sound
  have hmem := mem_of_getElem? hi
  have hs := hb.issued r hmem
  obtain ⟨x, hx⟩ := hcaches r hmem
  obtain ⟨t, ht, htpos⟩ := Option.map_eq_some_iff.mp (hb.filled r hmem)
  rw [← htpos, ← h.length_eq (hb.healthy r hmem) ht, h.own _ hs]
  exact hsound₁.readRow_before hbs (stepTable_tableOf hpt) (hm.issued _ hs) (by simp [hi]) hx

theorem realizeBatch_spec {writes : List (PhysBlockId × Nat)}
    (hrun : reserveAll m geom.blockSize rows w.dev = .ok writes w₁.dev) {tokens : List UInt32}
    (htokens : tokens.length = rows.length) :
    BatchForwarded m geom w (rows.map Prod.fst) tokens
      (realizeBatch m rows tokens writes pt w₁.dev) := by
  unfold realizeBatch
  cases m.fault rows with
  | some msg => exact .err _ hm
  | none =>
    cases hrows : realizeRows m w₁.dev pt 0 ((rows.map Prod.snd).zip tokens) with
    | error msg => exact .err _ hm
    | ok out =>
      obtain ⟨hlen, hout⟩ := realizeRows_eq_ok hrows
      rw [length_zip, length_map, htokens, Nat.min_self] at hlen
      obtain ⟨hcells, w', hdev, hm', hwritten⟩ := reserveAll_writes m h hbs hb hrun
        (out.map Prod.fst) (by rw [length_map, hlen])
      rw [← hcells] at hdev
      dsimp only
      rw [← hdev]
      refine .ok hm' (by rw [hlen, length_map]) ?_
      intro i s token v logits hi htoken hrow
      rw [getElem?_map, Option.map_eq_some_iff] at hi
      obtain ⟨r, hri, rfl⟩ := hi
      have hin : ((rows.map Prod.snd).zip tokens)[i]? = some (r.2, token) := by
        rw [getElem?_zip_eq_some, getElem?_map, hri]
        exact ⟨rfl, htoken⟩
      have hcomputed := hout i r.2 token v logits hin hrow
      rw [Nat.zero_add, hb.readRow h hbs hm hcaches hpt hri] at hcomputed
      exact ⟨hcomputed, hwritten i r v hri (by simp [hrow])⟩

end Realize

theorem forwardPagedStepBatched_spec (h : Sound geom w vals) (hbs : 0 < geom.blockSize)
    (hnodup : sessions.Nodup) (hs : ∀ s ∈ sessions, s ∈ w.issued)
    (hr : ∀ s ∈ sessions, s ∉ w.refused) (m : PagedDecodeModel V L P) (tokens : List UInt32) :
    BatchForwarded m geom w sessions tokens (forwardPagedStepBatched m tokens sessions w.dev) := by
  have hstay : Moves geom sessions w w := .refl h _
  unfold forwardPagedStepBatched
  cases m.unsupported with
  | some msg => exact .err _ hstay
  | none =>
    dsimp only
    split
    · exact .err _ hstay
    rw [bind_run, get_run, andThen_ok, bind_run]
    cases hpos : positionsOf w.dev.core sessions with
    | none => exact .err _ hstay
    | some positions =>
      obtain ⟨hfst, hfilled⟩ := positionsOf_eq_some hpos
      rw [okOr_some, pure_run, andThen_ok, bind_run]
      have hneeded := blocksNeeded_leaves w.dev.core (sessions.zip positions) w.dev
      generalize blocksNeeded w.dev.core (sessions.zip positions) w.dev = o at hneeded
      cases o with
      | abort why => exact .abort why
      | err e d =>
        obtain rfl : d = w.dev := hneeded
        exact .err _ hstay
      | ok needed d =>
        obtain rfl : d = w.dev := hneeded
        rw [andThen_ok]
        split
        · exact .err _ hstay
        rw [bind_run, congrArg KvGeometry.blockSize h.core.geom_eq]
        have hmem : ∀ r ∈ sessions.zip positions, r.1 ∈ sessions := by
          intro r hmem
          rw [← hfst]
          exact mem_map_of_mem hmem
        have hbatch : Batch w (sessions.zip positions) :=
          ⟨by rwa [hfst], fun r hmem' => hs _ (hmem r hmem'), fun r hmem' => hr _ (hmem r hmem'),
            hfilled⟩
        rcases reserveAll_moves m h hbs hbatch with
          ⟨why, hrun⟩ | ⟨e, w₁, hrun, hm⟩ | ⟨writes, w₁, hrun, hm, hcaches⟩
        · rw [hrun]
          exact .abort why
        · rw [hrun]
          rw [hfst] at hm
          exact .err _ hm
        rw [hrun, andThen_ok, bind_run, get_run, andThen_ok]
        cases hpt : stepTable w₁.dev none sessions with
        | error e =>
          rw [hfst] at hm
          exact .err _ hm
        | ok pt =>
          have hzip : tokens.length = (sessions.zip positions).length := by
            rw [← length_map Prod.fst, hfst]
            omega
          have hspec := realizeBatch_spec m h hbs hbatch hm hcaches (hfst.symm ▸ hpt) hrun hzip
          rwa [hfst] at hspec

end Specs

end Fuel.Inference
