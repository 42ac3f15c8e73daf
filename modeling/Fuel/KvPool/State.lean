import Fuel.Lib.Machine
import Fuel.Lib.AssocMap

/-!
# The KV block pool: state

The data of `fuel-kv-pool` (`lib.rs`, `block_index.rs`): a pool of physical
blocks with a free list and a reference count per block, the sessions' block
tables, the registry of shared prefixes and the content index.

Physical ids and reference counts are `u32` in the source, token counts
`usize`; here they are `Nat`, and the operations that can lose bits are
written out: the cast `num_blocks as PhysBlockId` in `KvBlockPool.new`, and the
arithmetic in `Ops`, in a build with overflow checks or in one without. Ticks,
statistics and the id counters are `u64` that grow by one per call or per hit
and are plain `Nat`.
-/

namespace Fuel.KvPool

open Fuel

/-- Index of a physical block. -/
abbrev PhysBlockId := Nat

/-- An opaque 128-bit content key, computed by the caller. -/
abbrev BlockHash := Nat

/-- Per-session handle minted by `open`. -/
structure SessionHandle where
  id : Nat
  deriving DecidableEq, Repr

/-- Handle of a registered prefix. -/
structure PrefixId where
  id : Nat
  deriving DecidableEq, Repr

inductive Fidelity where
  | lossy
  | exact
  deriving DecidableEq, Repr

inductive StateKind where
  | kvBlocks
  deriving DecidableEq, Repr

/-- Pool geometry. -/
structure KvGeometry where
  nLayers : Nat
  numBlocks : Nat
  blockSize : Nat
  nKvHeads : Nat
  headDim : Nat
  elemSize : Nat
  deriving DecidableEq, Repr

/-- One logical slot of a block table. -/
inductive Slot where
  | resident (p : PhysBlockId)
  | externalized
  deriving DecidableEq, Repr

/-- Logical to physical block map of one session, with its fill level. -/
structure BlockTable where
  slots : List Slot
  filledTokens : Nat
  deriving DecidableEq, Repr

/-- The reversible handle of an eviction. -/
structure Externalized where
  fidelity : Fidelity
  covers : List StateKind
  externalizedSlots : List Nat
  residentSlots : List (Nat × PhysBlockId)
  deriving DecidableEq, Repr

/-- What an eviction did, per logical block index. -/
structure EvictReport where
  freed : List Nat
  stillShared : List Nat
  handle : Externalized
  deriving DecidableEq, Repr

inductive KvAllocError where
  | outOfBlocks (need avail : Nat)
  | unknownSession
  | badSpliceRange
  | badBlockIndex (index sessionBlocks : Nat)
  | sessionNotResident (slot : Nat)
  | prefixTargetNotEmpty
  | prefixNotFullyFilled (prefixBlocks donorFilled : Nat)
  | unknownPrefix
  | offsetNotBlockAligned (filled blockSize : Nat)
  | blockNotFull (index : Nat)
  | unknownCachedBlock
  deriving DecidableEq, Repr

/-- A registered prefix: the internal session that holds the shared blocks
and how many it owns. -/
structure PrefixOwner where
  owner : SessionHandle
  prefixBlocks : Nat
  deriving DecidableEq, Repr

/-- One cached block: where it lives and when it was last used. -/
structure CachedBlock where
  block : PhysBlockId
  lastUsed : Nat
  deriving DecidableEq, Repr

/-- Cumulative counters over the content index. -/
structure CacheStats where
  lookups : Nat := 0
  blockHits : Nat := 0
  blockMisses : Nat := 0
  commits : Nat := 0
  evictions : Nat := 0
  deriving DecidableEq, Repr

/-- The allocator. `free` is in `Vec` order: the last element is the next
one popped. The counts are `u32`: one that overflows wraps or panics, as the build has it. -/
structure KvBlockPool where
  geom : KvGeometry
  free : List PhysBlockId
  refcount : List Nat
  tables : AList (fun _ : SessionHandle => BlockTable)
  nextSession : Nat
  prefixes : AList (fun _ : PrefixId => PrefixOwner)
  nextPrefix : Nat
  cached : AList (fun _ : BlockHash => CachedBlock)
  cachedByBlock : AList (fun _ : PhysBlockId => BlockHash)
  tick : Nat
  cacheStats : CacheStats

abbrev PoolM := Method KvAllocError KvBlockPool

namespace KvBlockPool

/-- `KvBlockPool::new`. The cast to `u32` keeps the low 32 bits. -/
def new (geom : KvGeometry) : KvBlockPool where
  geom := geom
  free := (List.range (geom.numBlocks % 2 ^ 32)).reverse
  refcount := List.replicate geom.numBlocks 0
  tables := ∅
  nextSession := 0
  prefixes := ∅
  nextPrefix := 0
  cached := ∅
  cachedByBlock := ∅
  tick := 0
  cacheStats := {}

/-! ## What the counts are counts of -/

/-- References to `p` among a table's slots. -/
def slotRefsIn (p : PhysBlockId) (t : BlockTable) : Nat :=
  t.slots.count (.resident p)

/-- References to `p` among the slots of all open sessions. -/
def slotRefs (pool : KvBlockPool) (p : PhysBlockId) : Nat :=
  AssocMap.total (slotRefsIn p) pool.tables

/-- Whether the content index holds `p`. -/
def isCached (pool : KvBlockPool) (p : PhysBlockId) : Bool :=
  pool.cached.entries.any fun e => e.2.block == p

/-- References to `p` held by the content index. -/
def indexRefs (pool : KvBlockPool) (p : PhysBlockId) : Nat :=
  if pool.isCached p then 1 else 0

end KvBlockPool

end Fuel.KvPool
