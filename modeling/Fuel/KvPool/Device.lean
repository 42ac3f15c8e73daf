import Fuel.KvPool.Ops

/-!
# The KV block pool on a device

`DeviceKvPool` (`fuel-tensor/src/kv_block_pool_device.rs`): the pool of
`fuel-kv-pool` together with the buffers its blocks are slots of. A block is
`block_size` cells; what a cell holds — the K and V rows of one token, over
all layers — is one value here; reading a block is exact, and a write is too
unless the device refuses it. Arithmetic is checked for overflow.
`decodeWrite` is the pool's part of one paged decode step
(`advance_paged_session` in `fuel-model-llama/src/lib.rs`).
-/

namespace Fuel.KvPool

open Fuel Method

/-- The pool and the contents of its blocks. -/
structure DeviceKvPool (V : Type) where
  core : KvBlockPool
  cells : PhysBlockId → Nat → V

/-- The errors of the device pool, besides those of the allocator. -/
inductive DeviceError where
  | alloc (e : KvAllocError)
  | unknownSession
  | blockNotResident (logicalBlock : Nat)
  | slotStoppedBeingResident (slot : Nat)
  | handlesDisagree (slot : Nat)
  | write (msg : String)
  deriving DecidableEq, Repr

abbrev DeviceM (V : Type) := Method DeviceError (DeviceKvPool V)

/-- The bytes of one detached block. -/
structure SavedBlock (V : Type) where
  logicalSlot : Nat
  block : Nat → V

/-- The handle of an eviction, with the bytes of the detached blocks. -/
structure DeviceEvicted (V : Type) where
  coreHandle : Externalized
  saved : List (SavedBlock V)

namespace DeviceKvPool

variable {V : Type}

/-- `DeviceKvPool::new`: the buffers are filled with zeros. -/
def new (geom : KvGeometry) (zero : V) : DeviceKvPool V := ⟨.new geom, fun _ _ => zero⟩

/-- A call on the core, its error wrapped. -/
def onCore {α : Type} (m : PoolM α) : DeviceM V α := fun d =>
  match m d.core with
  | .ok a core => .ok a { d with core := core }
  | .err e core => .err (.alloc e) { d with core := core }
  | .abort why => .abort why

/-- `write_block_bytes`, over all layers; `fault` says which writes the device refuses. -/
def writeBlock (fault : PhysBlockId → Option String) (p : PhysBlockId) (block : Nat → V) :
    DeviceM V Unit :=
  match fault p with
  | some msg => fail (.write msg)
  | none => do
    let d ← get
    set { d with cells := Function.update d.cells p block }

/-- Every write succeeds. -/
def noFault (_ : PhysBlockId) : Option String := none

/-! ## The decode write -/

/-- `ensure_writable_block`. -/
def ensureWritableBlock (fault : PhysBlockId → Option String) (session : SessionHandle)
    (logicalBlock : Nat) : DeviceM V PhysBlockId := do
  let d ← get
  let old ← okOr (d.core.residentBlock session logicalBlock) (.blockNotResident logicalBlock)
  let rc ← onCore (refcountAt old)
  if rc ≤ 1 then pure old
  else do
    let new ← onCore (cowBreak .debug session logicalBlock)
    let d ← get
    writeBlock fault new (d.cells old)
    pure new

/-- Room for the token at `tokPos`: the block it goes to, ready to be written. -/
def reserveAt (fault : PhysBlockId → Option String) (session : SessionHandle)
    (blockSize tokPos : Nat) : DeviceM V PhysBlockId := do
  onCore (append .debug session 1)
  ensureWritableBlock fault session (tokPos / blockSize)

/-- `advance_paged_session` and the write it is for: `x` into the next cell
of `session`, on a device that refuses no write. -/
def decodeWrite (session : SessionHandle) (x : V) : DeviceM V Unit := do
  let d ← get
  let blockSize := d.core.geom.blockSize
  let tokPos ← okOr (d.core.filledTokens session) .unknownSession
  onCore (append .debug session 1)
  -- `append` has divided by the block size already
  let phys ← ensureWritableBlock noFault session (tokPos / blockSize)
  let d ← get
  writeBlock noFault phys (Function.update (d.cells phys) (tokPos % blockSize) x)

/-! ## Evict and restore -/

/-- The filter of `evict_blocks`: the resident blocks only this slot
references. -/
def exclusiveSlots (s : SessionHandle) : List Nat → DeviceM V (List Nat)
  | [] => pure []
  | i :: rest => do
    let d ← get
    match d.core.residentBlock s i with
    | none => exclusiveSlots s rest
    | some p => do
      let rc ← onCore (refcountAt p)
      let slots ← exclusiveSlots s rest
      pure (if rc = 1 then i :: slots else slots)

/-- The save loop of `evict_blocks`. -/
def saveBlocks (s : SessionHandle) : List Nat → DeviceM V (List (SavedBlock V))
  | [] => pure []
  | i :: rest => do
    let d ← get
    let p ← okOr (d.core.residentBlock s i) (.slotStoppedBeingResident i)
    let saved ← saveBlocks s rest
    pure (⟨i, d.cells p⟩ :: saved)

/-- `DeviceKvPool::evict_blocks`. -/
def evictBlocks (s : SessionHandle) (indices : List Nat) : DeviceM V (DeviceEvicted V) := do
  let toSave ← exclusiveSlots s indices
  let saved ← saveBlocks s toSave
  let report ← onCore (KvPool.evictBlocks s indices)
  pure ⟨report.handle, saved⟩

/-- `DeviceKvPool::evict`. -/
def evict (s : SessionHandle) : DeviceM V (DeviceEvicted V) := do
  let d ← get
  let n ← okOr (d.core.sessionBlocks s) (.alloc .unknownSession)
  evictBlocks s (List.range n)

/-- The write-back loop body of `DeviceKvPool::restore`. -/
def writeBack (fault : PhysBlockId → Option String) (s : SessionHandle) (sb : SavedBlock V) :
    DeviceM V Unit := do
  let d ← get
  let p ← okOr (d.core.residentBlock s sb.logicalSlot) (.handlesDisagree sb.logicalSlot)
  writeBlock fault p sb.block

/-- `DeviceKvPool::restore`. -/
def restore (fault : PhysBlockId → Option String) (s : SessionHandle) (handle : DeviceEvicted V) :
    DeviceM V Unit := do
  onCore (KvPool.restore s handle.coreHandle)
  forM handle.saved fun sb => writeBack fault s sb

end DeviceKvPool

/-! ## Page tables -/

/-- The operands of the paged attention: a row-major `[batch, maxBlocks]`
table of block ids, rows padded with 0, and the context lengths. -/
structure PageTableHost where
  blockTable : List PhysBlockId
  contextLens : List Nat
  batch : Nat
  maxBlocks : Nat
  deriving DecidableEq, Repr

/-- A row of the table: the blocks of one session, and its fill level as the
`u32` it is stored as. -/
structure PageRow where
  blocks : List PhysBlockId
  contextLen : Nat
  deriving DecidableEq, Repr

namespace KvBlockPool

/-- The padded table refuses a session that has more blocks than `cap`. -/
def checkWidth (cap : Option Nat) (blocks : Nat) : Except KvAllocError Unit :=
  match cap with
  | some cap => if blocks > cap then .error (.outOfBlocks blocks cap) else .ok ()
  | none => .ok ()

/-- The loop body of both `materialize_block_table` functions. -/
def pageRow (pool : KvBlockPool) (cap : Option Nat) (s : SessionHandle) :
    Except KvAllocError PageRow :=
  match pool.sessionBlockTable s with
  | .error e => .error e
  | .ok blocks =>
    match checkWidth cap blocks.length with
    | .error e => .error e
    | .ok _ =>
      match pool.filledTokens s with
      | some filled => .ok ⟨blocks, filled % 2 ^ 32⟩
      | none => .error .unknownSession

def pageRows (pool : KvBlockPool) (cap : Option Nat) :
    List SessionHandle → Except KvAllocError (List PageRow)
  | [] => .ok []
  | s :: rest => do
    let row ← pool.pageRow cap s
    let rows ← pool.pageRows cap rest
    pure (row :: rows)

end KvBlockPool

/-- The rows, written into a table of the given width. -/
def PageTableHost.ofRows (rows : List PageRow) (width : Nat) : PageTableHost where
  blockTable := (rows.map fun r => r.blocks ++ List.replicate (width - r.blocks.length) 0).flatten
  contextLens := rows.map PageRow.contextLen
  batch := rows.length
  maxBlocks := width

namespace DeviceKvPool

variable {V : Type}

/-- `materialize_block_table`: as wide as the longest row, and at least 1. -/
def materializeBlockTable (d : DeviceKvPool V) (sessions : List SessionHandle) :
    Except KvAllocError PageTableHost := do
  let rows ← d.core.pageRows none sessions
  pure (.ofRows rows (max 1 (rows.foldr (fun r w => max r.blocks.length w) 0)))

/-- `materialize_block_table_padded`: of a fixed width. -/
def materializeBlockTablePadded (d : DeviceKvPool V) (sessions : List SessionHandle)
    (maxBlocksCap : Nat) : Except KvAllocError PageTableHost := do
  let cap := max maxBlocksCap 1
  let rows ← d.core.pageRows (some cap) sessions
  pure (.ofRows rows cap)

/-- The cell at `pos` of row `b` of a page table. -/
def readCell (d : DeviceKvPool V) (pt : PageTableHost) (b pos : Nat) : V :=
  d.cells (pt.blockTable.getD (b * pt.maxBlocks + pos / d.core.geom.blockSize) 0)
    (pos % d.core.geom.blockSize)

end DeviceKvPool

end Fuel.KvPool
