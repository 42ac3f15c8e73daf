import Fuel.KvPool.Invariant
import Fuel.KvPool.Wrapping
import Fuel.Lib.Recency

/-!
# The KV block pool: eviction candidates in order of last use

`evictable_cached` sorts by time stamps and filters by reference counts.
Here both are read off the calls made on the pool: a `History` keeps, beside
the pool, the list of every use of a cached hash, and the stamps turn out to
number those uses (`Stamped`). That the counts say which blocks a session
reads is the accounting invariant, as long as nothing overflows.
-/

namespace Fuel.KvPool

open Fuel Method Recency List KvBlockPool

/-! ## Histories -/

/-- The run of `hashes` that `lookup_chain` matches: up to the first one that
is not in the index. -/
def KvBlockPool.matchedRun (pool : KvBlockPool) (hashes : List BlockHash) : List BlockHash :=
  hashes.takeWhile fun h => (pool.cached.lookup h).isSome

/-- The hashes a call on `pool` that returned `Ok` used, in order: the one it
committed, or the run it matched. -/
def Cmd.uses (pool : KvBlockPool) : Cmd → Reply → List BlockHash
  | .commitBlock _ _ hash, .committed true => [hash]
  | .lookupChain hashes, _ => pool.matchedRun hashes
  | .spliceCachedChain _ hashes, _ => pool.matchedRun hashes
  | _, _ => []

/-- One call that returned, with its uses entered in `past`. -/
def record (build : Build) (pool : KvBlockPool) (past : List BlockHash) (c : Cmd) :
    Option (KvBlockPool × List BlockHash) :=
  match c.exec build pool with
  | .ok r pool' => some (pool', (c.uses pool r).reverse ++ past)
  | .err _ pool' => some (pool', past)
  | .abort _ => none

/-- The pools that calls other than `restore` lead to if they overflow nothing,
each with the uses of cached hashes made on the way, the latest first. -/
inductive History (build : Build) (geom : KvGeometry) : KvBlockPool → List BlockHash → Prop
  | new : History build geom (.new geom) []
  | call {pool past c pool' past'} : History build geom pool past → c.notRestore = true →
      Fits build (Cmd.exec · c) pool → record build pool past c = some (pool', past') →
      History build geom pool' past'

/-- No slot of an open session references `p`. -/
def KvBlockPool.Unread (pool : KvBlockPool) (p : PhysBlockId) : Prop :=
  ∀ s t, pool.tables.lookup s = some t → Slot.resident p ∉ t.slots

/-! ## The stamps number the uses -/

/-- The stamp of a cached hash. -/
def KvBlockPool.stampOf (pool : KvBlockPool) (hash : BlockHash) : Option Nat :=
  (pool.cached.lookup hash).map CachedBlock.lastUsed

/-- The index's stamps are the numbers of its hashes' last uses. -/
def Stamped (pool : KvBlockPool) (past : List BlockHash) : Prop :=
  Stamps past pool.stampOf pool.tick

/-- The index and its clock are the same. -/
structure SameIndex (pool pool' : KvBlockPool) : Prop where
  cached : pool'.cached = pool.cached
  tick : pool'.tick = pool.tick

variable {pool pool' : KvBlockPool}

theorem SameRest.index (h : SameRest pool pool') : SameIndex pool pool' :=
  ⟨h.cached, h.tick⟩

section Stamping

variable {pool pool' : KvBlockPool} {past : List BlockHash}

theorem Stamped.new (geom : KvGeometry) : Stamped (.new geom) [] := Stamps.nil

variable (h : Stamped pool past)

include h

theorem Stamped.same (hs : SameIndex pool pool') : Stamped pool' past := by
  unfold Stamped stampOf
  rw [hs.cached, hs.tick]
  exact h

variable {hash : BlockHash} {hashes : List BlockHash} {r : Reply} {c : Cmd}

theorem Stamped.erase (htick : pool'.tick = pool.tick)
    (hcached : pool'.cached = pool.cached.erase hash) : Stamped pool' past := by
  unfold Stamped
  rw [htick]
  refine Stamps.of_subset h ?_
  intro k t hk
  unfold stampOf at hk ⊢
  obtain ⟨e, he, rfl⟩ := Option.map_eq_some_iff.mp hk
  rw [hcached] at he
  rw [(AssocMap.lookup_of_erase he).2]
  rfl

/-- Entering `hash` with the next tick is a use of it. -/
theorem Stamped.insert {p : PhysBlockId} (htick : pool'.tick = pool.tick + 1)
    (hcached : pool'.cached = pool.cached.insert hash ⟨p, pool.tick + 1⟩) :
    Stamped pool' (hash :: past) := by
  unfold Stamped
  rw [htick]
  apply Stamps.use h
  · simp [stampOf, hcached]
  · intro k hk
    simp [stampOf, hcached, hk]

omit h in
/-- A hit keeps what the index holds. -/
theorem matchedRun_touch (pool : KvBlockPool) {h : BlockHash} {e : CachedBlock}
    (he : pool.cached.lookup h = some e) (tick : Nat) (hashes : List BlockHash) :
    matchedRun
        { pool with tick := tick, cached := pool.cached.insert h ⟨e.block, tick⟩ } hashes
      = pool.matchedRun hashes := by
  unfold matchedRun
  congr 1
  funext x
  rw [AssocMap.lookup_insert_ite]
  by_cases hx : x = h
  · rw [if_pos hx, hx, he]
    rfl
  · rw [if_neg hx]

/-- The hit loop of `lookup_chain` uses exactly the run it matches. -/
theorem Stamped.lookupHits (hashes : List BlockHash) :
    Stamped (lookupHits hashes pool).2 ((pool.matchedRun hashes).reverse ++ past) := by
  induction hashes generalizing pool past with
  | nil => exact h
  | cons x rest ih =>
    cases hx : pool.cached.lookup x with
    | none => simpa [KvPool.lookupHits, matchedRun, hx] using h
    | some e =>
      have hstep : Stamped { pool with
          tick := pool.tick + 1
          cached := pool.cached.insert x ⟨e.block, pool.tick + 1⟩ } (x :: past) :=
        h.insert rfl rfl
      have hrest := ih hstep
      rw [matchedRun_touch pool hx] at hrest
      have hrun : pool.matchedRun (x :: rest) = x :: pool.matchedRun rest := by
        simp [matchedRun, hx]
      rw [hrun, reverse_cons, List.append_assoc, singleton_append]
      simpa only [KvPool.lookupHits, hx] using hrest

theorem Stamped.lookupChain {ps : List PhysBlockId} (hrun : lookupChain hashes pool = .ok ps pool') :
    Stamped pool' ((pool.matchedRun hashes).reverse ++ past) := by
  cases hrun
  exact (h.lookupHits hashes).same ⟨rfl, rfl⟩

omit h in
/-- A reply is made from what the operation returned. -/
theorem ok_of_reply {α : Type} {m : PoolM α} {f : α → Reply}
    (h : (m pool).andThen (fun a pool₁ => .ok (f a) pool₁) = .ok r pool') :
    ∃ a, m pool = .ok a pool' ∧ r = f a := by
  cases hm : m pool with
  | err e pool₁ =>
    rw [hm] at h
    cases h
  | abort why =>
    rw [hm] at h
    cases h
  | ok a pool₁ =>
    rw [hm, Outcome.andThen_ok] at h
    cases h
    exact ⟨a, rfl, rfl⟩

theorem Stamped.commitBlock (hw : Wf pool) {s : SessionHandle} {i : Nat} {b : Bool}
    (hrun : commitBlock .debug s i hash pool = .ok b pool') :
    Stamped pool' (if b then hash :: past else past) := by
  have hspec := commitBlock_spec hw s i hash
  rw [hrun] at hspec
  obtain ⟨t, p, -, -, -, -, ⟨rfl, rfl⟩ | ⟨rfl, -, -, rfl⟩⟩ := hspec.of_ok
  · exact h
  · exact h.insert rfl rfl

theorem Stamped.spliceCachedChain (hw : Wf pool) {dst : SessionHandle} {n : Nat}
    (hrun : spliceCachedChain .debug dst hashes pool = .ok n pool') :
    Stamped pool' ((pool.matchedRun hashes).reverse ++ past) := by
  have hspec := spliceCachedChain_spec hw dst hashes
  rw [hrun] at hspec
  obtain ⟨t, ps, pool₁, hlook, -, -, hon, -⟩ := hspec.of_ok
  exact (h.lookupChain hlook).same hon.rest.index

theorem Stamped.releaseCached (hw : Wf pool) {u : Unit}
    (hrun : releaseCached .debug hash pool = .ok u pool') : Stamped pool' past := by
  have hspec := releaseCached_spec hw hash
  rw [hrun] at hspec
  obtain ⟨e, -, -, -, hcached, -, htick⟩ := hspec.of_ok
  exact h.erase htick hcached

theorem Stamped.registerPrefix (hw : Wf pool) {donor : SessionHandle} {k : Nat} {id : PrefixId}
    (hrun : registerPrefix .debug donor k pool = .ok id pool') : Stamped pool' past := by
  have hspec := registerPrefix_splices hw donor k
  rw [hrun] at hspec
  obtain ⟨-, u, ps, pool₁, hsplice, -, -, rfl⟩ := hspec.of_ok
  exact h.same ⟨hsplice.rest.cached, hsplice.rest.tick⟩

/-- **One call.** Whatever it does, the stamps go on numbering the uses. -/
theorem Stamped.exec (hi : Inv pool) (hc : c.notRestore = true)
    (hrun : c.exec .debug pool = .ok r pool') :
    Stamped pool' ((c.uses pool r).reverse ++ past) := by
  have hspec := exec_spec hi hc
  rw [hrun] at hspec
  cases hspec.of_ok with
  | openSession => exact h.same ⟨rfl, rfl⟩
  | cowKeep => exact h
  | append on => exact h.same on.rest.index
  | evict call ev =>
    have huses : ∀ r, c.uses pool r = [] := by
      cases c <;> cases call <;> exact fun _ => rfl
    rw [huses]
    exact h.same ev.rest.index
  | cowReplace _ _ _ on | allocShifted _ on => exact h.same on.rest.index
  | discard _ rest => exact h.same rest.index
  | releasePrefix _ _ rest => exact h.same ⟨rest.cached, rest.tick⟩
  | splice hs | splicePrefix hs => exact h.same hs.rest.index
  | splicePrefixFrom _ hs => exact h.same hs.rest.index
  | registerPrefix =>
    obtain ⟨id, hok, -⟩ := ok_of_reply hrun
    exact h.registerPrefix hi.wf hok
  | commitKeep =>
    obtain ⟨b, hok, hb⟩ := ok_of_reply hrun
    cases hb
    exact h.commitBlock hi.wf hok
  | commit =>
    obtain ⟨b, hok, hb⟩ := ok_of_reply hrun
    cases hb
    exact h.commitBlock hi.wf hok
  | lookupChain =>
    obtain ⟨ps, hok, -⟩ := ok_of_reply (m := KvPool.lookupChain _) (f := .blocks) hrun
    exact h.lookupChain hok
  | spliceCachedChain =>
    obtain ⟨n, hok, -⟩ := ok_of_reply hrun
    exact h.spliceCachedChain hi.wf hok
  | releaseCached =>
    obtain ⟨u, hok, -⟩ := ok_of_reply hrun
    exact h.releaseCached hi.wf hok

/-- The invariant of a history: the pool's, and stamps that number its uses. -/
structure Kept (pool : KvBlockPool) (past : List BlockHash) : Prop where
  inv : Inv pool
  stamped : Stamped pool past

omit h

theorem Kept.record (h : Kept pool past) (hc : c.notRestore = true) {past' : List BlockHash}
    (hrec : record .debug pool past c = some (pool', past')) : Kept pool' past' := by
  have hspec := exec_spec h.inv hc
  unfold KvPool.record at hrec
  split at hrec
  · rename_i r pool₁ hrun
    cases hrec
    rw [hrun] at hspec
    exact ⟨hspec.of_ok.inv h.inv, h.stamped.exec h.inv hc hrun⟩
  · rename_i e pool₁ hrun
    cases hrec
    rw [hrun] at hspec
    rw [hspec.of_err]
    refine ⟨h.inv.refused c, h.stamped.same ?_⟩
    cases c <;> exact ⟨rfl, rfl⟩
  · cases hrec

theorem History.kept {build : Build} {geom : KvGeometry} (h : History build geom pool past) :
    Kept pool past := by
  induction h with
  | new => exact ⟨inv_new geom, .new geom⟩
  | call _ hc hfits hrec ih =>
    unfold KvPool.record at hrec
    rw [hfits.checked (exec_unchecked _)] at hrec
    exact ih.record hc hrec

end Stamping

/-! ## The candidates -/

section Candidates

variable {pool : KvBlockPool} {hash : BlockHash}

/-- A cached block is counted once, by the index, exactly when no session
reads it. -/
theorem refcount_eq_one_iff (hw : Wf pool) {e : CachedBlock} (he : pool.cached.lookup hash = some e) :
    pool.refcount.getD e.block 0 = 1 ↔ pool.Unread e.block := by
  have hcached : pool.isCached e.block = true := isCached_iff.mpr ⟨hash, by rw [he]; rfl⟩
  have hrefs := hw.refs e.block
  simp only [indexRefs, hcached, if_true, count_nil] at hrefs
  constructor
  · intro hone s t ht hmem
    have := slotRefs_pos ht hmem
    omega
  · intro hunread
    have hzero : pool.slotRefs e.block = 0 := by
      apply AssocMap.total_eq_zero
      intro s t ht
      exact count_eq_zero.mpr (hunread s t ht)
    omega

/-- The entries counted once, with their stamps, in the order of the map. -/
def candidates (pool : KvBlockPool) (es : List ((_ : BlockHash) × CachedBlock)) :
    List (Nat × BlockHash) :=
  (es.filter fun e => pool.refcount.getD e.2.block 0 = 1).map fun e => (e.2.lastUsed, e.1)

theorem evictableEntries_run {es : List ((_ : BlockHash) × CachedBlock)}
    (hlt : ∀ e ∈ es, e.2.block < pool.refcount.length) :
    evictableEntries es pool = .ok (candidates pool es) pool := by
  induction es with
  | nil => rfl
  | cons e rest ih =>
    have hrest := ih fun x hx => hlt x (mem_cons_of_mem _ hx)
    have hp := hlt e mem_cons_self
    simp only [evictableEntries, bind_run, refcountAt_run hp, Outcome.andThen_ok, hrest, pure_run,
      candidates, filter_cons, decide_eq_true_eq]
    split <;> rfl

theorem stampedLe_iff {a b : Nat × BlockHash} :
    stampedLe a b = true ↔ a.1 < b.1 ∨ a.1 = b.1 ∧ Nat.le a.2 b.2 := decide_eq_true_iff

theorem stampedLe_trans (a b c : Nat × BlockHash) (hab : stampedLe a b = true)
    (hbc : stampedLe b c = true) : stampedLe a c = true := by
  rw [stampedLe_iff] at *
  rcases hab with hab | ⟨hab, hab'⟩
  · rcases hbc with hbc | ⟨hbc, -⟩
    · exact .inl (Nat.lt_trans hab hbc)
    · exact .inl (hbc ▸ hab)
  · rcases hbc with hbc | ⟨hbc, hbc'⟩
    · exact .inl (hab ▸ hbc)
    · exact .inr ⟨hab.trans hbc, Nat.le_trans hab' hbc'⟩

theorem stampedLe_total (a b : Nat × BlockHash) : (stampedLe a b || stampedLe b a) = true := by
  rw [Bool.or_eq_true, stampedLe_iff, stampedLe_iff]
  rcases Nat.lt_trichotomy a.1 b.1 with hlt | heq | hlt
  · exact .inl (.inl hlt)
  · rcases Nat.le_total a.2 b.2 with hle | hle
    · exact .inl (.inr ⟨heq, hle⟩)
    · exact .inr (.inr ⟨heq.symm, hle⟩)
  · exact .inr (.inl hlt)

/-- A hash is a candidate when it is cached and no session reads its block. -/
theorem mem_candidates_iff (hw : Wf pool) {t : Nat} :
    (t, hash) ∈ candidates pool pool.cached.entries ↔
      ∃ e, pool.cached.lookup hash = some e ∧ e.lastUsed = t ∧ pool.Unread e.block := by
  constructor
  · intro hmem
    obtain ⟨⟨h, e⟩, he, heq⟩ := mem_map.mp hmem
    cases heq
    obtain ⟨hentry, hone⟩ := mem_filter.mp he
    have hlook := AssocMap.mem_entries_iff.mpr hentry
    exact ⟨e, hlook, rfl, (refcount_eq_one_iff hw hlook).mp (of_decide_eq_true hone)⟩
  · rintro ⟨e, hlook, rfl, hunread⟩
    refine mem_map.mpr ⟨⟨hash, e⟩, mem_filter.mpr ⟨?_, ?_⟩, rfl⟩
    · exact AssocMap.mem_entries_iff.mp hlook
    · exact decide_eq_true ((refcount_eq_one_iff hw hlook).mpr hunread)

/-- No hash is listed twice. -/
theorem candidates_nodup (pool : KvBlockPool) :
    ((candidates pool pool.cached.entries).map Prod.snd).Nodup := by
  unfold candidates
  rw [map_map]
  have hkeys : pool.cached.entries.keys.Nodup := pool.cached.nodupKeys
  exact hkeys.sublist (filter_sublist.map _)

/-- **Eviction candidates come in order of last use.** After any calls but
`restore` that overflow nothing, `evictable_cached` lists exactly the cached hashes whose block no
open session reads, each once and ordered by their last use, without ties. -/
theorem evictableCached_lru {build : Build} {geom : KvGeometry} {past : List BlockHash}
    (h : History build geom pool past) :
    ∃ l, evictableCached pool = .ok l pool ∧ l.Nodup ∧
      (∀ hash, hash ∈ l ↔ ∃ e, pool.cached.lookup hash = some e ∧ pool.Unread e.block) ∧
      (∀ hash ∈ l, hash ∈ past) ∧
      l.Pairwise fun a b => lastUse a past < lastUse b past := by
  obtain ⟨hi, hstamped⟩ := h.kept
  have hlt : ∀ e ∈ pool.cached.entries, e.2.block < pool.refcount.length := by
    rintro ⟨x, e⟩ he
    have hlook := AssocMap.mem_entries_iff.mpr he
    have hcached : pool.isCached e.block = true := isCached_iff.mpr ⟨x, by rw [hlook]; rfl⟩
    exact hi.wf.lt_length (hi.wf.cached_pos hcached)
  set v := candidates pool pool.cached.entries with hv
  have hperm : (v.mergeSort stampedLe).Perm v := mergeSort_perm _ _
  have hstamp : ∀ x ∈ v.mergeSort stampedLe, x.2 ∈ past ∧ x.1 = lastUse x.2 past := by
    rintro ⟨t, hash⟩ hx
    obtain ⟨e, hlook, rfl, -⟩ := (mem_candidates_iff hi.wf).mp (hperm.mem_iff.mp hx)
    have hlook' : pool.stampOf hash = some e.lastUsed := by
      simp [stampOf, hlook]
    exact ⟨hstamped.used _ _ hlook', hstamped.stamp _ _ hlook'⟩
  have hnodup : ((v.mergeSort stampedLe).map Prod.snd).Nodup :=
    (hperm.map Prod.snd).nodup_iff.mpr (candidates_nodup pool)
  refine ⟨(v.mergeSort stampedLe).map Prod.snd, ?_, hnodup, ?_, ?_, ?_⟩
  · simp only [evictableCached, bind_run, get_run, Outcome.andThen_ok, evictableEntries_run hlt,
      pure_run, hv]
  · intro hash
    rw [(hperm.map Prod.snd).mem_iff, mem_map]
    constructor
    · rintro ⟨⟨t, x⟩, hx, rfl⟩
      obtain ⟨e, hlook, -, hunread⟩ := (mem_candidates_iff hi.wf).mp hx
      exact ⟨e, hlook, hunread⟩
    · rintro ⟨e, hlook, hunread⟩
      exact ⟨(e.lastUsed, hash), (mem_candidates_iff hi.wf).mpr ⟨e, hlook, rfl, hunread⟩, rfl⟩
  · intro hash hmem
    obtain ⟨x, hx, rfl⟩ := mem_map.mp hmem
    exact (hstamp x hx).1
  · -- sorted by stamp; equal stamps would be one hash, listed twice
    have hsorted := pairwise_mergeSort stampedLe_trans stampedLe_total v
    rw [pairwise_map]
    have hne : (v.mergeSort stampedLe).Pairwise fun a b => a.2 ≠ b.2 :=
      pairwise_map.mp hnodup
    refine (List.Pairwise.and_mem.mp (hsorted.and hne)).imp ?_
    rintro a b ⟨ha, hb, hle, hab⟩
    obtain ⟨haused, hastamp⟩ := hstamp a ha
    obtain ⟨hbused, hbstamp⟩ := hstamp b hb
    rw [← hastamp, ← hbstamp]
    rcases stampedLe_iff.mp hle with hlt | ⟨heq, -⟩
    · exact hlt
    · rw [hastamp, hbstamp] at heq
      exact absurd (lastUse_inj haused hbused heq) hab

end Candidates

/-- A list of calls, recorded. -/
def recordAll (pool : KvBlockPool) (past : List BlockHash) :
    List Cmd → Option (KvBlockPool × List BlockHash)
  | [] => some (pool, past)
  | c :: cs => (record .debug pool past c).bind fun w => recordAll w.1 w.2 cs

theorem History.recordAll {geom : KvGeometry} {cs : List Cmd} (hcs : ∀ c ∈ cs, c.notRestore = true)
    {past past' : List BlockHash} (h : History .debug geom pool past)
    (hrun : recordAll pool past cs = some (pool', past')) : History .debug geom pool' past' := by
  induction cs generalizing pool past with
  | nil =>
    cases hrun
    exact h
  | cons c cs ih =>
    obtain ⟨⟨pool₁, past₁⟩, hrec, hrest⟩ := Option.bind_eq_some_iff.mp hrun
    refine ih (fun c' hc' => hcs c' (mem_cons_of_mem _ hc')) ?_ hrest
    exact h.call (hcs c mem_cons_self) fits_debug hrec

/-- Two blocks are committed and their session closed; a look at the first
makes the second one the older candidate. -/
theorem evictableCached_after_lookup :
    ∃ pool past l, History .debug smallGeom pool past ∧ evictableCached pool = .ok l pool ∧
      10 ∈ l ∧ 11 ∈ l ∧ lastUse 11 past < lastUse 10 past := by
  have hrun : (match recordAll (.new smallGeom) [] [.openSession, .append ⟨0⟩ 8,
        .commitBlock ⟨0⟩ 0 10, .commitBlock ⟨0⟩ 1 11, .discard ⟨0⟩, .lookupChain [10, 99]] with
      | none => false
      | some (pool, past) => pool.tables.entries.isEmpty && (pool.cached.lookup 10).isSome &&
          (pool.cached.lookup 11).isSome && decide (lastUse 11 past < lastUse 10 past)) = true := by
    decide +kernel
  split at hrun
  · cases hrun
  rename_i pool past hrec
  simp only [Bool.and_eq_true, List.isEmpty_iff, Option.isSome_iff_exists,
    decide_eq_true_eq] at hrun
  obtain ⟨⟨⟨hclosed, ⟨e₀, h₀⟩⟩, ⟨e₁, h₁⟩⟩, hlt⟩ := hrun
  have hhistory : History .debug smallGeom pool past := History.new.recordAll (by decide) hrec
  have hunread : ∀ p, pool.Unread p := by
    intro p s t ht
    have hmem := AssocMap.mem_entries_iff.mp ht
    rw [hclosed] at hmem
    cases hmem
  obtain ⟨l, hok, -, hmem, -⟩ := evictableCached_lru hhistory
  exact ⟨pool, past, l, hhistory, hok, (hmem 10).mpr ⟨e₀, h₀, hunread _⟩,
    (hmem 11).mpr ⟨e₁, h₁, hunread _⟩, hlt⟩

/-- Where the count of a cached block has wrapped to one, the block is a
candidate, with `2 ^ 32` slots of an open session still on it. -/
theorem evictableCached_lists_read_block :
    ∃ w e, Reach .release NoRestore oneBlock w ∧ evictableCached w.pool = .ok [7] w.pool ∧
      w.pool.cached.lookup 7 = some e ∧ ¬ w.pool.Unread e.block := by
  obtain ⟨filled, hreach⟩ := reach_cached_wrapped
  let pool := cachedSeven.holding ⟨0⟩ (2 ^ 32) filled (2 ^ 32 + 1)
  refine ⟨_, _, hreach, ?_, rfl, fun h => ?_⟩
  · have hentries : evictableEntries pool.cached.entries pool = .ok [(1, 7)] pool := rfl
    show evictableCached pool = .ok [7] pool
    simp only [evictableCached, bind_run, get_run, Outcome.andThen_ok, hentries, pure_run,
      mergeSort_singleton, map_cons, map_nil]
  · exact h ⟨0⟩ _ (AList.lookup_insert _) (mem_replicate.mpr ⟨by decide, rfl⟩)

end Fuel.KvPool
