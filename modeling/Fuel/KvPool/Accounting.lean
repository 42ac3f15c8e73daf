import Fuel.KvPool.Run

/-!
# The KV block pool: the accounting invariant

`AccountsFor pending pool` says that every reference count is the number of
references there are: slots of open sessions, the content index, and the
references listed in `pending` — those counted but held by nobody yet, or no
longer. Between two calls `pending` is empty (`Wf`).

Each operation of the pool is a composition of the moves below: a reference
is minted (`mint`, `bump`), changes hands between `pending` and a table
(`retable`, `untable`) or the index (`commit`, `release`), or is given up
(`drop`). None of them is tied to one operation, so a loop of the source is
followed move by move.
-/

namespace Fuel.KvPool

open Fuel List KvBlockPool AssocMap Slot

/-- Exact accounting, up to the references listed in `pending`. -/
structure AccountsFor (pending : List Slot) (pool : KvBlockPool) : Prop where
  refs : ∀ p, pool.refcount.getD p 0
    = pool.slotRefs p + pool.indexRefs p + pending.count (.resident p)
  len : pool.refcount.length = pool.geom.numBlocks
  freeNodup : pool.free.Nodup
  freeLt : ∀ p ∈ pool.free, p < pool.geom.numBlocks
  freeZero : ∀ p ∈ pool.free, pool.refcount.getD p 0 = 0
  zeroFree : ∀ p, p < pool.geom.numBlocks % 2 ^ 32 →
    pool.refcount.getD p 0 = 0 → p ∈ pool.free
  inverse : ∀ h p, (pool.cached.lookup h).map CachedBlock.block = some p ↔
    pool.cachedByBlock.lookup p = some h
  sessions : ∀ s t, pool.tables.lookup s = some t → s.id < pool.nextSession

/-- Exact accounting between two calls. -/
abbrev Wf (pool : KvBlockPool) : Prop := AccountsFor [] pool

/-! ## Reading the counts -/

theorem getD_eq_zero_of_le {l : List Nat} {p : Nat} (h : l.length ≤ p) :
    l.getD p 0 = 0 := by
  simp [getD_eq_getElem?_getD, getElem?_eq_none h]

theorem getD_set {l : List Nat} {p : Nat} (h : p < l.length) (n x : Nat) :
    (l.set p n).getD x 0 = if x = p then n else l.getD x 0 := by
  by_cases hx : p = x
  · subst hx
    simp [h]
  · simp [hx, Ne.symm hx]

variable {p : PhysBlockId}

theorem slotRefsIn_pos {t : BlockTable} (h : resident p ∈ t.slots) :
    0 < slotRefsIn p t :=
  count_pos_iff.mpr h

theorem slotRefs_pos {pool : KvBlockPool} {s : SessionHandle} {t : BlockTable}
    (ht : pool.tables.lookup s = some t) (h : resident p ∈ t.slots) : 0 < pool.slotRefs p :=
  Nat.lt_of_lt_of_le (slotRefsIn_pos h) (le_total _ ht)

theorem isCached_iff {pool : KvBlockPool} : pool.isCached p = true ↔
      ∃ h, (pool.cached.lookup h).map CachedBlock.block = some p := by
  unfold isCached
  rw [any_values_iff (q := fun c : CachedBlock => c.block == p)]
  constructor
  · rintro ⟨h, c, hc, hp⟩
    exact ⟨h, by simp [hc, eq_of_beq hp]⟩
  · rintro ⟨h, hp⟩
    obtain ⟨c, hc, rfl⟩ := Option.map_eq_some_iff.mp hp
    exact ⟨h, c, hc, by simp⟩

namespace AccountsFor

variable {q : List Slot} {pool : KvBlockPool} {p : PhysBlockId} {s : SessionHandle} {t : BlockTable}
  {hash : BlockHash} (h : AccountsFor q pool)

include h

/-- A counted block is a block of the pool. -/
theorem lt_of_pos (hp : 0 < pool.refcount.getD p 0) : p < pool.geom.numBlocks := by
  by_contra hge
  have hle : pool.refcount.length ≤ p := by
    rw [h.len]
    exact Nat.not_lt.mp hge
  have := getD_eq_zero_of_le hle
  omega

/-- A block some slot points at is counted. -/
theorem slot_pos (ht : pool.tables.lookup s = some t) (hp : resident p ∈ t.slots) :
    0 < pool.refcount.getD p 0 := by
  have := slotRefs_pos ht hp
  rw [h.refs]
  omega

/-- A cached block is counted. -/
theorem cached_pos (hp : pool.isCached p = true) : 0 < pool.refcount.getD p 0 := by
  rw [h.refs, indexRefs, if_pos hp]
  omega

/-- Nothing refers to a free block. -/
theorem free_unreferenced (hp : p ∈ pool.free) : pool.slotRefs p = 0 ∧ pool.isCached p = false := by
  have h0 := h.freeZero p hp
  rw [h.refs] at h0
  refine ⟨by omega, ?_⟩
  by_contra hc
  have : pool.isCached p = true := by simpa using hc
  have := h.cached_pos this
  rw [h.refs] at this
  omega

theorem not_free_of_pos (hp : 0 < pool.refcount.getD p 0) : p ∉ pool.free := by
  intro hf
  have := h.freeZero p hf
  omega

/-- A session handle never minted is not open. -/
theorem lookup_fresh {n : Nat} (hn : pool.nextSession ≤ n) : pool.tables.lookup ⟨n⟩ = none := by
  cases hl : pool.tables.lookup ⟨n⟩ with
  | none => rfl
  | some t =>
    have := h.sessions _ t hl
    simp only at this
    omega

/-! ## Moves -/

/-- Pending references can be listed in any order, and externalized slots
among them are none. -/
theorem repending (q' : List Slot) (hq : ∀ p, q'.count (.resident p) = q.count (.resident p)) :
    AccountsFor q' pool :=
  { h with refs := fun p => by rw [h.refs, hq] }

omit h in
/-- A pending reference counts for its own block. -/
theorem count_resident_cons (x : PhysBlockId) :
    (resident p :: q).count (.resident x) = q.count (.resident x) + if x = p then 1 else 0 := by
  rw [count_cons]
  by_cases hx : x = p
  · simp [hx]
  · simp [hx, Ne.symm hx]

/-- A block gets one more reference, and is no longer free if it was. -/
theorem raise {fs : List PhysBlockId} (hp : p < pool.geom.numBlocks) (hnd : fs.Nodup)
    (hfs : ∀ x, x ∈ fs ↔ x ∈ pool.free ∧ x ≠ p) : AccountsFor (.resident p :: q)
      { pool with free := fs, refcount := pool.refcount.set p (pool.refcount.getD p 0 + 1) } := by
  have hlt : p < pool.refcount.length := by rwa [h.len]
  refine ⟨?_, by simpa using h.len, hnd, fun x hx => h.freeLt x ((hfs x).mp hx).1, ?_, ?_,
    h.inverse, h.sessions⟩
  · intro x
    have hx := h.refs x
    show (pool.refcount.set p _).getD x 0
      = pool.slotRefs x + pool.indexRefs x + (resident p :: q).count (.resident x)
    rw [getD_set hlt, count_resident_cons]
    split_ifs with hxp
    · subst hxp
      omega
    · exact hx
  · intro x hx
    obtain ⟨hx, hxp⟩ := (hfs x).mp hx
    rw [getD_set hlt, if_neg hxp]
    exact h.freeZero x hx
  · intro x hx hx0
    have hx0 : (pool.refcount.set p _).getD x 0 = 0 := hx0
    rw [getD_set hlt] at hx0
    split_ifs at hx0 with hxp
    exact (hfs x).mpr ⟨h.zeroFree x hx hx0, hxp⟩

/-- A free block is taken and counted once. -/
theorem mint {fs : List PhysBlockId} (hf : pool.free = fs ++ [p]) : AccountsFor (.resident p :: q)
      { pool with free := fs, refcount := pool.refcount.set p 1 } := by
  have hmem : p ∈ pool.free := by simp [hf]
  obtain ⟨hnd, -, hpfs⟩ := nodup_append.mp (hf ▸ h.freeNodup)
  have hraised := h.raise (h.freeLt p hmem) hnd
  rw [h.freeZero p hmem] at hraised
  refine hraised fun x => ?_
  rw [hf, mem_append, mem_singleton]
  constructor
  · intro hx
    exact ⟨.inl hx, hpfs x hx p (by simp)⟩
  · rintro ⟨hx | hx, hxp⟩
    · exact hx
    · exact absurd hx hxp

/-- One more reference to a block that is already counted. -/
theorem bump (hp : 0 < pool.refcount.getD p 0) : AccountsFor (.resident p :: q)
      { pool with refcount := pool.refcount.set p (pool.refcount.getD p 0 + 1) } := by
  refine h.raise (h.lt_of_pos hp) h.freeNodup fun x => ⟨fun hx => ⟨hx, ?_⟩, And.left⟩
  rintro rfl
  exact h.not_free_of_pos hp hx

omit h in
/-- A pending reference is given up; the last one frees the block. -/
theorem drop (h : AccountsFor (.resident p :: q) pool) :
    AccountsFor q
      { pool with
        refcount := pool.refcount.set p (pool.refcount.getD p 0 - 1)
        free := if pool.refcount.getD p 0 - 1 = 0 then pool.free ++ [p] else pool.free } := by
  have hp := h.refs p
  rw [count_cons_self] at hp
  have hpos : 0 < pool.refcount.getD p 0 := by omega
  have hlt : p < pool.refcount.length := by
    rw [h.len]
    exact h.lt_of_pos hpos
  have hnf := h.not_free_of_pos hpos
  -- the free list gains at most `p`, when its count reaches zero
  have hmem : ∀ x, x ∈ (if pool.refcount.getD p 0 - 1 = 0 then pool.free ++ [p] else pool.free) ↔
      x ∈ pool.free ∨ x = p ∧ pool.refcount.getD p 0 - 1 = 0 := by
    intro x
    by_cases hz : pool.refcount.getD p 0 - 1 = 0
    · rw [if_pos hz, mem_append, mem_singleton, and_iff_left hz]
    · rw [if_neg hz, or_iff_left (fun hc => hz hc.2)]
  refine ⟨?_, by simpa using h.len, ?_, ?_, ?_, ?_, h.inverse, h.sessions⟩
  · intro x
    have hx := h.refs x
    show (pool.refcount.set p _).getD x 0
      = pool.slotRefs x + pool.indexRefs x + q.count (.resident x)
    rw [count_resident_cons] at hx
    rw [getD_set hlt]
    split_ifs at hx ⊢ with hxp
    · subst hxp
      omega
    · exact hx
  · show (if _ then pool.free ++ [p] else pool.free).Nodup
    split
    · rw [nodup_append]
      refine ⟨h.freeNodup, by simp, ?_⟩
      intro a ha b hb
      rw [mem_singleton.mp hb]
      exact fun hc => hnf (hc ▸ ha)
    · exact h.freeNodup
  · intro x hx
    rcases (hmem x).mp hx with hx | ⟨rfl, -⟩
    · exact h.freeLt x hx
    · exact h.lt_of_pos hpos
  · intro x hx
    rw [getD_set hlt]
    rcases (hmem x).mp hx with hx | ⟨rfl, hz⟩
    · rw [if_neg (fun hc : x = p => hnf (hc ▸ hx))]
      exact h.freeZero x hx
    · rw [if_pos rfl]
      exact hz
  · intro x hx hx0
    have hx0 : (pool.refcount.set p _).getD x 0 = 0 := hx0
    rw [getD_set hlt] at hx0
    refine (hmem x).mpr ?_
    by_cases hxp : x = p
    · subst hxp
      rw [if_pos rfl] at hx0
      exact .inr ⟨rfl, hx0⟩
    · rw [if_neg hxp] at hx0
      exact .inl (h.zeroFree x hx hx0)

/-- References move between `pending` and one session's table. -/
theorem retable (q' : List Slot) (ht : pool.tables.lookup s = some t) (t' : BlockTable)
    (hq : ∀ p, slotRefsIn p t' + q'.count (.resident p)
      = slotRefsIn p t + q.count (.resident p)) :
    AccountsFor q' { pool with tables := pool.tables.insert s t' } := by
  refine { h with refs := ?_, sessions := ?_ }
  · intro p
    have hp := h.refs p
    have hs := total_insert_old (slotRefsIn p) ht t'
    have := hq p
    show pool.refcount.getD p 0 = total (slotRefsIn p)
      (pool.tables.insert s t') + pool.indexRefs p + q'.count (.resident p)
    unfold slotRefs at hp
    omega
  · intro s' t'' hl
    rw [lookup_insert_ite] at hl
    by_cases hs : s' = s
    · subst hs
      exact h.sessions s' t ht
    · rw [if_neg hs] at hl
      exact h.sessions s' t'' hl

/-- A session is closed; its references are pending. -/
theorem untable (ht : pool.tables.lookup s = some t) :
    AccountsFor (t.slots ++ q) { pool with tables := pool.tables.erase s } := by
  refine { h with refs := ?_, sessions := ?_ }
  · intro p
    have hp := h.refs p
    have hs := total_erase (slotRefsIn p) ht
    show pool.refcount.getD p 0 = total (slotRefsIn p)
      (pool.tables.erase s) + pool.indexRefs p + (t.slots ++ q).count (.resident p)
    rw [count_append]
    unfold slotRefs at hp
    unfold slotRefsIn at *
    omega
  · intro s' t' hl
    exact h.sessions s' t' (lookup_of_erase hl).2

/-- A session is opened with an empty table. -/
theorem newTable : AccountsFor q
      { pool with
        nextSession := pool.nextSession + 1
        tables := pool.tables.insert ⟨pool.nextSession⟩ ⟨[], 0⟩ } := by
  refine { h with refs := ?_, sessions := ?_ }
  · intro p
    have hp := h.refs p
    have hs := total_insert_new (slotRefsIn p)
      (h.lookup_fresh (Nat.le_refl _)) ⟨[], 0⟩
    show pool.refcount.getD p 0 = total (slotRefsIn p)
      (pool.tables.insert ⟨pool.nextSession⟩ ⟨[], 0⟩) + pool.indexRefs p
        + q.count (.resident p)
    have h0 : slotRefsIn p ⟨[], 0⟩ = 0 := rfl
    unfold slotRefs at hp
    omega
  · intro s t hl
    rw [lookup_insert_ite] at hl
    by_cases hs : s = ⟨pool.nextSession⟩
    · subst hs
      simp
    · rw [if_neg hs] at hl
      exact Nat.lt_succ_of_lt (h.sessions s t hl)

/-- What a change of the index must respect for the counts to stay right. -/
theorem reindex {q' : List Slot} {cached : AList (fun _ : BlockHash => CachedBlock)}
    {byBlock : AList (fun _ : PhysBlockId => BlockHash)} (tick : Nat) (stats : CacheStats)
    (hinv : ∀ h p, (cached.lookup h).map CachedBlock.block = some p ↔ byBlock.lookup p = some h)
    (hrefs : ∀ p, (if (byBlock.lookup p).isSome then 1 else 0) + q'.count (.resident p)
      = (if (pool.cachedByBlock.lookup p).isSome then 1 else 0) + q.count (.resident p)) :
    AccountsFor q'
      { pool with cached := cached, cachedByBlock := byBlock, tick := tick,
                  cacheStats := stats } := by
  -- through `inverse`, holding a block is having it as a key of the reverse map
  have hold : ∀ (pool : KvBlockPool), (∀ h p,
      (pool.cached.lookup h).map CachedBlock.block = some p ↔
        pool.cachedByBlock.lookup p = some h) →
      ∀ p, pool.indexRefs p = if (pool.cachedByBlock.lookup p).isSome then 1 else 0 := by
    intro pool hi p
    have : pool.isCached p = (pool.cachedByBlock.lookup p).isSome := by
      rw [Bool.eq_iff_iff, isCached_iff, Option.isSome_iff_exists]
      exact exists_congr fun h => hi h p
    rw [indexRefs, this]
  refine { h with refs := ?_, inverse := hinv }
  intro p
  have hp := h.refs p
  rw [hold pool h.inverse] at hp
  rw [hold _ hinv]
  have := hrefs p
  show pool.refcount.getD p 0 = pool.slotRefs p
    + (if (byBlock.lookup p).isSome then 1 else 0) + q'.count (.resident p)
  omega

omit h in
/-- A pending reference is handed to the index. -/
theorem commit (h : AccountsFor (.resident p :: q) pool) (hh : pool.cached.lookup hash = none)
    (hp : pool.cachedByBlock.lookup p = none) (tick : Nat) (stats : CacheStats) : AccountsFor q
      { pool with cached := pool.cached.insert hash ⟨p, tick⟩,
                  cachedByBlock := pool.cachedByBlock.insert p hash, tick := tick,
                  cacheStats := stats } := by
  apply h.reindex _ stats
  · intro h' x
    rw [lookup_insert_ite, lookup_insert_ite]
    by_cases hh' : h' = hash <;> by_cases hx : x = p
    · subst hh' hx
      simp
    · subst hh'
      have := (h.inverse h' x).not
      simp only [hh, Option.map_none] at this
      simpa [hx, Ne.symm hx] using this.mp (by simp)
    · subst hx
      have := (h.inverse h' x).not
      rw [hp] at this
      simpa [hh', Ne.symm hh'] using this.mpr (by simp)
    · simpa [hh', hx] using h.inverse h' x
  · intro x
    rw [lookup_insert_ite, count_resident_cons]
    by_cases hx : x = p
    · subst hx
      simp [hp]
      omega
    · simp [hx]

/-- The index lets go of a block; the reference is pending. -/
theorem release {e : CachedBlock} (he : pool.cached.lookup hash = some e) (stats : CacheStats) :
    AccountsFor (.resident e.block :: q)
      { pool with cached := pool.cached.erase hash,
                  cachedByBlock := pool.cachedByBlock.erase e.block,
                  cacheStats := stats } := by
  have hb : pool.cachedByBlock.lookup e.block = some hash :=
    (h.inverse hash e.block).mp (by simp [he])
  apply h.reindex _ stats
  · intro h' x
    rw [lookup_erase_ite, lookup_erase_ite]
    have hi := h.inverse h' x
    by_cases hh' : h' = hash <;> by_cases hx : x = e.block
    · simp [hh', hx]
    · subst hh'
      simp only [hx, ↓reduceIte, Option.map_none, reduceCtorEq, false_iff]
      rw [← hi, he]
      simpa using Ne.symm hx
    · subst hx
      simp only [hh', ↓reduceIte, reduceCtorEq, iff_false]
      rw [hi, hb]
      simpa using Ne.symm hh'
    · simpa [hh', hx] using hi
  · intro x
    rw [lookup_erase_ite, count_resident_cons]
    by_cases hx : x = e.block
    · subst hx
      simp [hb]
      omega
    · simp [hx]

/-- A hit only changes when a cached block was last used. -/
theorem touch {e : CachedBlock} (he : pool.cached.lookup hash = some e) (tick : Nat) : AccountsFor q
      { pool with tick := tick, cached := pool.cached.insert hash ⟨e.block, tick⟩ } := by
  apply h.reindex tick pool.cacheStats
  · intro h' x
    rw [lookup_insert_ite, ← h.inverse h' x]
    by_cases hh' : h' = hash
    · subst hh'
      simp [he]
    · simp [hh']
  · intro x
    rfl

/-- The registry of prefixes is not part of the accounting. -/
theorem withPrefixes (prefixes : AList (fun _ : PrefixId => PrefixOwner)) (n : Nat) :
    AccountsFor q { pool with prefixes := prefixes, nextPrefix := n } :=
  ⟨h.refs, h.len, h.freeNodup, h.freeLt, h.freeZero, h.zeroFree, h.inverse, h.sessions⟩

theorem withStats (stats : CacheStats) : AccountsFor q { pool with cacheStats := stats } :=
  ⟨h.refs, h.len, h.freeNodup, h.freeLt, h.freeZero, h.zeroFree, h.inverse, h.sessions⟩

end AccountsFor

/-- A fresh pool accounts for everything. -/
theorem wf_new (geom : KvGeometry) : Wf (.new geom) := by
  have hz : ∀ p, (new geom).refcount.getD p 0 = 0 := by
    intro p
    simp [new, getD_eq_getElem?_getD, getElem?_replicate]
    split <;> rfl
  have hmod : geom.numBlocks % 2 ^ 32 ≤ geom.numBlocks := Nat.mod_le _ _
  refine ⟨?_, by simp [new], ?_, ?_, fun p _ => hz p, ?_, ?_, ?_⟩
  · intro p
    rw [hz]
    rfl
  · show (List.range _).reverse.Nodup
    rw [nodup_reverse]
    exact nodup_range
  · intro p hp
    have : p < geom.numBlocks % 2 ^ 32 := by
      simpa [new] using hp
    exact Nat.lt_of_lt_of_le this hmod
  · intro p hp _
    simpa [new] using hp
  · intro h p
    simp [new]
  · intro s t hl
    simp [new] at hl

end Fuel.KvPool
