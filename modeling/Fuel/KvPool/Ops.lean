import Fuel.KvPool.State

/-!
# The KV block pool: operations

The methods of `fuel-kv-pool/src/lib.rs`, statement by statement. The loops
over a session's table are `forM`/`foldlM` over the list the source iterates;
a `?` is a `Method` bind, so a step that fails half-way through a loop would
leave the earlier iterations' writes behind, exactly as in the source. `build`
says whether arithmetic is checked for overflow.
-/

namespace Fuel.KvPool

open Fuel Method

variable (build : Build)

namespace KvBlockPool

/-! ## Reads -/

/-- `free_blocks`. -/
def freeBlocks (pool : KvBlockPool) : Nat := pool.free.length

/-- `session_blocks`. -/
def sessionBlocks (pool : KvBlockPool) (s : SessionHandle) : Option Nat :=
  (pool.tables.lookup s).map fun t => t.slots.length

/-- `filled_tokens`. -/
def filledTokens (pool : KvBlockPool) (s : SessionHandle) : Option Nat :=
  (pool.tables.lookup s).map BlockTable.filledTokens

/-- `resident_block`. -/
def residentBlock (pool : KvBlockPool) (s : SessionHandle) (i : Nat) :
    Option PhysBlockId :=
  match (pool.tables.lookup s).bind fun t => t.slots[i]? with
  | some (.resident p) => some p
  | _ => none

/-- The loop of `session_block_table`, from slot `i` on. -/
def residentRow (i : Nat) : List Slot → Except KvAllocError (List PhysBlockId)
  | [] => .ok []
  | .resident p :: rest =>
    match residentRow (i + 1) rest with
    | .ok row => .ok (p :: row)
    | .error e => .error e
  | .externalized :: _ => .error (.sessionNotResident i)

/-- `session_block_table`. -/
def sessionBlockTable (pool : KvBlockPool) (s : SessionHandle) :
    Except KvAllocError (List PhysBlockId) :=
  match pool.tables.lookup s with
  | some t => residentRow 0 t.slots
  | none => .error .unknownSession

/-- `is_prefix_owner`. -/
def isPrefixOwner (pool : KvBlockPool) (s : SessionHandle) : Bool :=
  pool.prefixes.entries.any fun o => o.2.owner == s

end KvBlockPool

/-- `blocks_for`. -/
def blocksFor (tokens blockSize : Nat) : PoolM Nat := divCeil tokens blockSize

/-- `blocks_required`. -/
def blocksRequired (curFilled addTokens : Nat) : PoolM Nat := do
  let pool ← get
  let bs := pool.geom.blockSize
  let total ← addUsizeIn build curFilled addTokens
  let want ← blocksFor total bs
  let cur ← blocksFor curFilled bs
  subUsizeIn build want cur

/-! ## The primitive accesses -/

/-- `self.tables.get(&s).ok_or(UnknownSession)?`. -/
def table (s : SessionHandle) : PoolM BlockTable := do
  let pool ← get
  okOr (pool.tables.lookup s) .unknownSession

/-- `table_mut(s)?`, followed by the assignment `f`. -/
def tableMut (s : SessionHandle) (f : BlockTable → BlockTable) : PoolM Unit := do
  let pool ← get
  let t ← okOr (pool.tables.lookup s) .unknownSession
  set { pool with tables := pool.tables.insert s (f t) }

/-- `table_mut(s)?.slots.push(slot)`. -/
def pushSlot (s : SessionHandle) (slot : Slot) : PoolM Unit :=
  tableMut s fun t => { t with slots := t.slots ++ [slot] }

/-- `table_mut(s)?.slots[i] = slot`. -/
def setSlot (s : SessionHandle) (i : Nat) (slot : Slot) : PoolM Unit := do
  let t ← table s
  if i < t.slots.length then
    tableMut s fun t => { t with slots := t.slots.set i slot }
  else abort .indexOutOfBounds

/-- `table_mut(s)?.filled_tokens += tokens`. -/
def addFilled (s : SessionHandle) (tokens : Nat) : PoolM Unit := do
  let t ← table s
  let filled ← addUsizeIn build t.filledTokens tokens
  tableMut s fun t => { t with filledTokens := filled }

/-- `self.refcount[p as usize]`. -/
def refcountAt (p : PhysBlockId) : PoolM Nat := do
  let pool ← get
  index pool.refcount p

/-- `self.refcount[p as usize] = n`. -/
def setRefcount (p : PhysBlockId) (n : Nat) : PoolM Unit := do
  let pool ← get
  if p < pool.refcount.length then
    set { pool with refcount := pool.refcount.set p n }
  else abort .indexOutOfBounds

/-- `self.free.push(p)`. -/
def pushFree (p : PhysBlockId) : PoolM Unit := do
  let pool ← get
  set { pool with free := pool.free ++ [p] }

/-- `take_free`. -/
def takeFree : PoolM PhysBlockId := do
  let pool ← get
  match pool.free.getLast? with
  | some p =>
    set { pool with free := pool.free.dropLast }
    pure p
  | none => fail (.outOfBlocks 1 0)

/-- `*rc -= 1; if *rc == 0 { self.free.push(p) }`, as `discard` and
`release_cached` both write it. -/
def dropRef (p : PhysBlockId) : PoolM Unit := do
  let rc ← refcountAt p
  let rc ← subU32In build rc 1
  setRefcount p rc
  if rc = 0 then pushFree p else pure ()

/-- A fresh block onto the end of `s`'s table: the loop body of `append` and
`alloc_shifted_prefix_slots`. -/
def allocSlot (s : SessionHandle) : PoolM PhysBlockId := do
  let p ← takeFree
  setRefcount p 1
  pushSlot s (.resident p)
  pure p

/-- One more reference to `p`, at the end of `dst`'s table: the loop body of
`splice` and `splice_cached_chain`. -/
def shareSlot (dst : SessionHandle) (p : PhysBlockId) : PoolM Unit := do
  let rc ← refcountAt p
  let rc ← addU32In build rc 1
  setRefcount p rc
  pushSlot dst (.resident p)

/-! ## Session lifecycle -/

/-- `open`. -/
def openSession : PoolM SessionHandle := do
  let pool ← get
  let h : SessionHandle := ⟨pool.nextSession⟩
  set { pool with
    nextSession := pool.nextSession + 1
    tables := pool.tables.insert h ⟨[], 0⟩ }
  pure h

/-- `append`. -/
def append (s : SessionHandle) (addTokens : Nat) : PoolM Unit := do
  let pool ← get
  let bs := pool.geom.blockSize
  let t ← table s
  let total ← addUsizeIn build t.filledTokens addTokens
  let wantBlocks ← blocksFor total bs
  let newBlocks := wantBlocks - t.slots.length
  if newBlocks > pool.free.length then
    fail (.outOfBlocks newBlocks pool.free.length)
  else do
    forM (List.range newBlocks) fun _ => do
      let _ ← allocSlot s
      pure ()
    tableMut s fun t => { t with filledTokens := total }

/-- The loop body of `discard`. -/
def dropSlot : Slot → PoolM Unit
  | .resident p => dropRef build p
  | .externalized => pure ()

/-- `discard`. -/
def discard (s : SessionHandle) : PoolM Unit := do
  let pool ← get
  match pool.tables.lookup s with
  | none => pure ()
  | some t =>
    set { pool with tables := pool.tables.erase s }
    forM t.slots (dropSlot build)

/-! ## State externalization -/

/-- `validate_block_indices`. -/
def validateBlockIndices (s : SessionHandle) (indices : List Nat) : PoolM Unit := do
  let t ← table s
  forM indices fun i =>
    if i ≥ t.slots.length then fail (.badBlockIndex i t.slots.length) else pure ()

/-- The report `evict_blocks` starts from. -/
def EvictReport.empty : EvictReport :=
  ⟨[], [], ⟨.lossy, [.kvBlocks], [], []⟩⟩

/-- `i` was detached by this call. -/
def EvictReport.free (r : EvictReport) (i : Nat) : EvictReport :=
  { r with
    freed := r.freed ++ [i]
    handle := { r.handle with externalizedSlots := r.handle.externalizedSlots ++ [i] } }

/-- `i` was left in place, backed by `p`. -/
def EvictReport.share (r : EvictReport) (i : Nat) (p : PhysBlockId) : EvictReport :=
  { r with
    stillShared := r.stillShared ++ [i]
    handle := { r.handle with residentSlots := r.handle.residentSlots ++ [(i, p)] } }

/-- The loop body of `evict_blocks`. -/
def evictBlock (s : SessionHandle) (owner : Bool) (r : EvictReport) (i : Nat) :
    PoolM EvictReport := do
  let pool ← get
  let t ← expect (pool.tables.lookup s)
  let slot ← index t.slots i
  match slot with
  | .resident p =>
    let rc ← refcountAt p
    if rc = 1 ∧ owner = false then do
      setRefcount p 0
      pushFree p
      setSlot s i .externalized
      pure (r.free i)
    else pure (r.share i p)
  | .externalized => pure r

/-- `evict_blocks`. -/
def evictBlocks (s : SessionHandle) (indices : List Nat) : PoolM EvictReport := do
  validateBlockIndices s indices
  let pool ← get
  indices.foldlM (evictBlock s (pool.isPrefixOwner s)) EvictReport.empty

/-- `evict`. -/
def evict (s : SessionHandle) : PoolM EvictReport := do
  let t ← table s
  evictBlocks s (List.range t.slots.length)

/-- `evict_range`. -/
def evictRange (s : SessionHandle) (lo hi : Nat) : PoolM EvictReport :=
  if lo > hi then fail (.badBlockIndex lo hi)
  else evictBlocks s (List.range' lo (hi - lo))

/-- The table `place_resident_slot` stores: grown with externalized slots up
to `i` if it is shorter, and `p` at `i`. -/
def BlockTable.place (t : BlockTable) (i : Nat) (p : PhysBlockId) : BlockTable :=
  { t with
    slots := (t.slots ++ List.replicate (i + 1 - t.slots.length) Slot.externalized).set i
      (.resident p) }

/-- `place_resident_slot`. -/
def placeResidentSlot (s : SessionHandle) (i : Nat) (p : PhysBlockId) : PoolM Unit :=
  tableMut s fun t => t.place i p

/-- The first loop body of `restore`: a fresh block for an externalized
slot. -/
def restoreSlot (s : SessionHandle) (i : Nat) : PoolM Unit := do
  let p ← takeFree
  setRefcount p 1
  placeResidentSlot s i p

/-- `restore`. -/
def restore (s : SessionHandle) (handle : Externalized) : PoolM Unit := do
  let pool ← get
  let _ ← okOr (pool.tables.lookup s) .unknownSession
  let need := handle.externalizedSlots.length
  if need > pool.free.length then fail (.outOfBlocks need pool.free.length)
  else do
    forM handle.externalizedSlots fun i => restoreSlot s i
    forM handle.residentSlots fun e => placeResidentSlot s e.1 e.2

/-! ## Cross-branch splice -/

/-- The blocks behind a slice of a table, if all of them are resident. -/
def collectResident : List Slot → Option (List PhysBlockId)
  | [] => some []
  | .resident p :: rest => (collectResident rest).map (p :: ·)
  | .externalized :: _ => none

/-- `validate_and_collect_shared`. -/
def validateAndCollectShared (src : SessionHandle) (lo hi : Nat) :
    PoolM (List PhysBlockId × Nat) := do
  let t ← table src
  if lo > hi ∨ hi > t.slots.length then fail .badSpliceRange
  else do
    let shared ← okOr (collectResident ((t.slots.drop lo).take (hi - lo))) .badSpliceRange
    pure (shared, t.filledTokens)

/-- `splice`. -/
def splice (src dst : SessionHandle) (lo hi : Nat) : PoolM Unit := do
  let pool ← get
  let _ ← okOr (pool.tables.lookup dst) .unknownSession
  let (shared, srcFilled) ← validateAndCollectShared src lo hi
  let bs := pool.geom.blockSize
  let span ← mulUsizeIn build (hi - lo) bs
  let skipped ← mulUsizeIn build lo bs
  forM shared fun p => shareSlot build dst p
  addFilled build dst (min span (srcFilled - skipped))

/-- The writing part of `cow_break`: a fresh block in the place of `p`. -/
def cowReplace (s : SessionHandle) (i : Nat) (p : PhysBlockId) : PoolM PhysBlockId := do
  let q ← takeFree
  setRefcount q 1
  let rc ← refcountAt p
  let rc ← subU32In build rc 1
  setRefcount p rc
  setSlot s i (.resident q)
  pure q

/-- `cow_break`. -/
def cowBreak (s : SessionHandle) (i : Nat) : PoolM PhysBlockId := do
  let t ← table s
  match t.slots[i]? with
  | some (.resident p) => do
    let rc ← refcountAt p
    if rc ≤ 1 then pure p
    else do
      let pool ← get
      if pool.free = [] then fail (.outOfBlocks 1 0)
      else cowReplace build s i p
  | _ => fail .badSpliceRange

/-- `splice_prefix`. -/
def splicePrefix (src dst : SessionHandle) (prefixBlocks : Nat) : PoolM Nat := do
  let pool ← get
  let d ← table dst
  if d.slots ≠ [] then fail .prefixTargetNotEmpty
  else do
    let t ← table src
    if prefixBlocks > t.slots.length then fail .badSpliceRange
    else do
      let sharedTokens ← mulUsizeIn build prefixBlocks pool.geom.blockSize
      if sharedTokens > t.filledTokens then
        fail (.prefixNotFullyFilled prefixBlocks t.filledTokens)
      else do
        splice build src dst 0 prefixBlocks
        pure sharedTokens

/-! ## Prefix registry -/

/-- `register_prefix`. -/
def registerPrefix (donor : SessionHandle) (prefixBlocks : Nat) : PoolM PrefixId := do
  let owner ← openSession
  match (← attempt (splicePrefix build donor owner prefixBlocks)) with
  | .ok _ => do
    let pool ← get
    let id : PrefixId := ⟨pool.nextPrefix⟩
    set { pool with
      nextPrefix := pool.nextPrefix + 1
      prefixes := pool.prefixes.insert id ⟨owner, prefixBlocks⟩ }
    pure id
  | .error e => do
    discard build owner
    fail e

/-- `release_prefix`. -/
def releasePrefix (id : PrefixId) : PoolM Unit := do
  let pool ← get
  let o ← okOr (pool.prefixes.lookup id) .unknownPrefix
  set { pool with prefixes := pool.prefixes.erase id }
  discard build o.owner

/-- `splice_prefix_from`. -/
def splicePrefixFrom (id : PrefixId) (dst : SessionHandle) : PoolM Nat := do
  let pool ← get
  let o ← okOr (pool.prefixes.lookup id) .unknownPrefix
  splicePrefix build o.owner dst o.prefixBlocks

/-- `validate_shifted_prefix_alloc`. -/
def validateShiftedPrefixAlloc (id : PrefixId) (dst : SessionHandle) :
    PoolM (Nat × PrefixOwner) := do
  let pool ← get
  let bs := pool.geom.blockSize
  let d ← table dst
  let r ← remUsize d.filledTokens bs
  if r ≠ 0 then fail (.offsetNotBlockAligned d.filledTokens bs)
  else do
    let o ← okOr (pool.prefixes.lookup id) .unknownPrefix
    let t ← table o.owner
    let tokens ← mulUsizeIn build o.prefixBlocks bs
    if tokens > t.filledTokens then
      fail (.prefixNotFullyFilled o.prefixBlocks t.filledTokens)
    else if o.prefixBlocks > pool.free.length then
      fail (.outOfBlocks o.prefixBlocks pool.free.length)
    else pure (d.filledTokens, o)

/-- `alloc_shifted_prefix_slots`. -/
def allocShiftedPrefixSlots (id : PrefixId) (dst : SessionHandle) :
    PoolM (Nat × List (PhysBlockId × PhysBlockId)) := do
  let (m, o) ← validateShiftedPrefixAlloc build id dst
  let pool ← get
  let src ← (List.range o.prefixBlocks).mapM fun i =>
    expect (pool.residentBlock o.owner i)
  let pairs ← src.foldlM (fun pairs p => do
    let fresh ← allocSlot dst
    pure (pairs ++ [(p, fresh)])) []
  let tokens ← mulUsizeIn build o.prefixBlocks pool.geom.blockSize
  addFilled build dst tokens
  pure (m, pairs)

end Fuel.KvPool
