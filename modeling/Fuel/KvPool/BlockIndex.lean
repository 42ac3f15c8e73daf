import Fuel.KvPool.Ops

/-!
# The KV block pool: the content index

The methods of `fuel-kv-pool/src/block_index.rs`. The index owns one
reference on each block it holds; `cachedByBlock` is its reverse map.
-/

namespace Fuel.KvPool

open Fuel Method

variable (build : Build)

/-- `commit_block`. -/
def commitBlock (s : SessionHandle) (i : Nat) (hash : BlockHash) : PoolM Bool := do
  let pool ← get
  let t ← table s
  let slot ← okOr t.slots[i]? (.badBlockIndex i t.slots.length)
  match slot with
  | .externalized => fail (.sessionNotResident i)
  | .resident p => do
    let next ← addUsizeIn build i 1
    let last ← mulUsizeIn build next pool.geom.blockSize
    if t.filledTokens < last then fail (.blockNotFull i)
    else if (pool.cached.lookup hash).isSome ∨ (pool.cachedByBlock.lookup p).isSome then
      pure false
    else do
      let rc ← refcountAt p
      let rc ← addU32In build rc 1
      setRefcount p rc
      let pool ← get
      let tick := pool.tick + 1
      set { pool with
        tick := tick
        cached := pool.cached.insert hash ⟨p, tick⟩
        cachedByBlock := pool.cachedByBlock.insert p hash
        cacheStats := { pool.cacheStats with commits := pool.cacheStats.commits + 1 } }
      pure true

/-- The hit loop of `lookup_chain`: marks each hit as used, stops at the
first miss. -/
def lookupHits : List BlockHash → KvBlockPool → List PhysBlockId × KvBlockPool
  | [], pool => ([], pool)
  | h :: rest, pool =>
    match pool.cached.lookup h with
    | none => ([], pool)
    | some e =>
      let tick := pool.tick + 1
      let hits := lookupHits rest
        { pool with tick := tick, cached := pool.cached.insert h ⟨e.block, tick⟩ }
      (e.block :: hits.1, hits.2)

/-- `lookup_chain`. -/
def lookupChain (hashes : List BlockHash) : PoolM (List PhysBlockId) := do
  let pool ← get
  let (out, pool) := lookupHits hashes pool
  let stats := pool.cacheStats
  set { pool with
    cacheStats := { stats with
      lookups := stats.lookups + 1
      blockHits := stats.blockHits + out.length
      blockMisses := stats.blockMisses + (hashes.length - out.length) } }
  pure out

/-- `splice_cached_chain`. -/
def spliceCachedChain (dst : SessionHandle) (hashes : List BlockHash) : PoolM Nat := do
  let d ← table dst
  if d.slots ≠ [] then fail .prefixTargetNotEmpty
  else do
    let blocks ← lookupChain hashes
    forM blocks fun p => shareSlot build dst p
    let pool ← get
    let tokens ← mulUsizeIn build blocks.length pool.geom.blockSize
    tableMut dst fun t => { t with filledTokens := tokens }
    pure tokens

/-- The filter of `evictable_cached`: stamp and hash of the entries whose
block nothing else references. -/
def evictableEntries : List ((_ : BlockHash) × CachedBlock) → PoolM (List (Nat × BlockHash))
  | [] => pure []
  | ⟨h, c⟩ :: rest => do
    let rc ← refcountAt c.block
    let v ← evictableEntries rest
    pure (if rc = 1 then (c.lastUsed, h) :: v else v)

/-- The order of `sort_unstable` on pairs. -/
def stampedLe (a b : Nat × BlockHash) : Bool :=
  decide (a.1 < b.1 ∨ a.1 = b.1 ∧ a.2 ≤ b.2)

/-- `evictable_cached`. -/
def evictableCached : PoolM (List BlockHash) := do
  let pool ← get
  let v ← evictableEntries pool.cached.entries
  pure ((v.mergeSort stampedLe).map Prod.snd)

/-- `release_cached`. -/
def releaseCached (hash : BlockHash) : PoolM Unit := do
  let pool ← get
  let e ← okOr (pool.cached.lookup hash) .unknownCachedBlock
  set { pool with
    cached := pool.cached.erase hash
    cachedByBlock := pool.cachedByBlock.erase e.block
    cacheStats := { pool.cacheStats with evictions := pool.cacheStats.evictions + 1 } }
  dropRef build e.block

end Fuel.KvPool
