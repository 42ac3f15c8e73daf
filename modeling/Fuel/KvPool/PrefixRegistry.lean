import Fuel.KvPool.Guarantees

/-!
# The KV block pool: registered prefixes

A registered prefix is a session of its own that no consumer has a handle
for. As long as consumers use only the handles `open` gave them, every call
but the prefix's own release leaves that session's table exactly as
`register_prefix` made it, whatever happens to the donor, to the sharers and
to the content index.
-/

namespace Fuel.KvPool

open Fuel Method List AssocMap KvBlockPool

/-! ## What a call leaves alone -/

section Frame

variable {pool pool' : KvBlockPool} {c : Cmd} {r : Reply}

/-- How a call changes the registry and the counters. -/
theorem Effect.registry (h : Effect pool c r pool') :
    (pool' = pool.opened ∧ r.issued = [⟨pool.nextSession⟩]) ∨
    (r.issued = [] ∧
      ((∃ k ps, Registered k ps pool pool') ∨
        ((∃ id o, c = .releasePrefix id ∧ pool.prefixes.lookup id = some o ∧
            pool'.prefixes = pool.prefixes.erase id) ∨ pool'.prefixes = pool.prefixes) ∧
          pool'.nextSession = pool.nextSession)) := by
  cases h with
  | openSession => exact .inl ⟨rfl, rfl⟩
  | cowKeep | commitKeep | commit => exact .inr ⟨rfl, .inr ⟨.inr rfl, rfl⟩⟩
  | append on => exact .inr ⟨rfl, .inr ⟨.inr on.rest.prefixes, on.rest.nextSession⟩⟩
  | evict _ ev => exact .inr ⟨rfl, .inr ⟨.inr ev.rest.prefixes, ev.rest.nextSession⟩⟩
  | cowReplace _ _ _ on | allocShifted _ on =>
    exact .inr ⟨rfl, .inr ⟨.inr on.rest.prefixes, on.rest.nextSession⟩⟩
  | discard _ rest => exact .inr ⟨rfl, .inr ⟨.inr rest.prefixes, rest.nextSession⟩⟩
  | splice h | splicePrefix h =>
    exact .inr ⟨rfl, .inr ⟨.inr h.rest.prefixes, h.rest.nextSession⟩⟩
  | splicePrefixFrom _ h => exact .inr ⟨rfl, .inr ⟨.inr h.rest.prefixes, h.rest.nextSession⟩⟩
  | registerPrefix h => exact .inr ⟨rfl, .inl ⟨_, _, h⟩⟩
  | releasePrefix entry _ rest =>
    exact .inr ⟨rfl, .inr ⟨.inl ⟨_, _, rfl, entry, rest.prefixes⟩, rest.nextSession⟩⟩
  | lookupChain _ touched =>
    exact .inr ⟨rfl, .inr ⟨.inr touched.sessions.prefixes, touched.sessions.nextSession⟩⟩
  | spliceCachedChain touched _ on =>
    exact .inr ⟨rfl, .inr ⟨.inr (on.rest.prefixes.trans touched.sessions.prefixes),
      on.rest.nextSession.trans touched.sessions.nextSession⟩⟩
  | releaseCached _ same => exact .inr ⟨rfl, .inr ⟨.inr same.prefixes, same.nextSession⟩⟩

/-- **The frame of a call**: a session that the call does not name, and whose
prefix it does not release, keeps its table. -/
theorem Effect.others (h : Effect pool c r pool') {s : SessionHandle} (hs : s ∉ c.sessions)
    (hminted : s.id < pool.nextSession)
    (hrel : ∀ id o, c = .releasePrefix id → pool.prefixes.lookup id = some o → o.owner ≠ s) :
    pool'.tables.lookup s = pool.tables.lookup s := by
  have hfresh : s ≠ ⟨pool.nextSession⟩ := by
    rintro rfl
    exact Nat.lt_irrefl _ hminted
  cases h with
  | openSession =>
    show (pool.tables.insert ⟨pool.nextSession⟩ ⟨[], 0⟩).lookup s = _
    rw [lookup_insert_ite, if_neg hfresh]
  | cowKeep | commitKeep | commit => rfl
  | append on => exact on.others s (by simpa [Cmd.sessions] using hs)
  | evict call ev => exact ev.others s (by simpa [Cmd.sessions_of_evicts call] using hs)
  | cowReplace _ _ _ on | allocShifted _ on =>
    exact on.others s (by simpa [Cmd.sessions] using hs)
  | discard _ _ tables =>
    rw [tables, lookup_erase_ite, if_neg (by simpa [Cmd.sessions] using hs)]
  | splice h | splicePrefix h =>
    simp only [Cmd.sessions, mem_cons, not_mem_nil, or_false, not_or] at hs
    exact h.others s hs.2
  | splicePrefixFrom _ h => exact h.others s (by simpa [Cmd.sessions] using hs)
  | registerPrefix h => exact h.others s hfresh
  | releasePrefix entry _ _ tables =>
    rw [tables, lookup_erase_ite, if_neg (fun hc => hrel _ _ rfl entry hc.symm)]
  | lookupChain _ touched => rw [touched.sessions.tables]
  | spliceCachedChain touched _ on =>
    rw [on.others s (by simpa [Cmd.sessions] using hs), touched.sessions.tables]
  | releaseCached _ same => rw [same.tables]

end Frame

/-! ## Consumers with their own handles -/

/-- A call other than `restore`, on handles that `open` returned. -/
def OwnHandles (w : World) (c : Cmd) : Prop :=
  c.notRestore = true ∧ ∀ s ∈ c.sessions, s ∈ w.issued

/-- No consumer has a handle of a prefix's owner, and no two prefixes share
one. -/
structure OwnersHidden (w : World) : Prop where
  minted : ∀ s ∈ w.issued, s.id < w.pool.nextSession
  hidden : ∀ id o, w.pool.prefixes.lookup id = some o → o.owner ∉ w.issued
  distinct : ∀ id id' o o', w.pool.prefixes.lookup id = some o →
    w.pool.prefixes.lookup id' = some o' → o.owner = o'.owner → id = id'

namespace OwnersHidden

theorem new (geom : KvGeometry) : OwnersHidden (.new geom) := by
  refine ⟨?_, ?_, ?_⟩ <;> simp [World.new, KvBlockPool.new]

variable {w w' : World} (h : OwnersHidden w)

include h

/-- Fewer entries, the same handles. -/
theorem of_subset
    (hpre : ∀ id o, w'.pool.prefixes.lookup id = some o → w.pool.prefixes.lookup id = some o)
    (hn : w.pool.nextSession ≤ w'.pool.nextSession) (hiss : w'.issued = w.issued) :
    OwnersHidden w' := by
  refine ⟨fun s hs => ?_, fun id o ho => ?_, fun id id' o o' ho ho' he => ?_⟩
  · rw [hiss] at hs
    exact Nat.lt_of_lt_of_le (h.minted s hs) hn
  · rw [hiss]
    exact h.hidden id o (hpre id o ho)
  · exact h.distinct id id' o o' (hpre id o ho) (hpre id' o' ho') he

theorem opened (hown : OwnersHold w.pool) :
    OwnersHidden ⟨w.pool.opened, w.issued ++ [⟨w.pool.nextSession⟩]⟩ := by
  refine ⟨fun s hs => ?_, fun id o ho hin => ?_, h.distinct⟩
  · rcases mem_append.mp hs with hs | hs
    · exact Nat.lt_succ_of_lt (h.minted s hs)
    · rw [mem_singleton.mp hs]
      exact Nat.lt_succ_self _
  · rcases mem_append.mp hin with hin | hin
    · exact h.hidden id o ho hin
    · exact hown.owner_ne ho (mem_singleton.mp hin)

theorem registered (hown : OwnersHold w.pool) {k : Nat} {ps : List PhysBlockId}
    {pool' : KvBlockPool} (hr : Registered k ps w.pool pool') : OwnersHidden ⟨pool', w.issued⟩ := by
  have hcases : ∀ id o, pool'.prefixes.lookup id = some o →
      (id = ⟨w.pool.nextPrefix⟩ ∧ o.owner = ⟨w.pool.nextSession⟩) ∨
        (w.pool.prefixes.lookup id = some o ∧ o.owner ≠ ⟨w.pool.nextSession⟩) := by
    intro id o hl
    rw [hr.prefixes] at hl
    rcases lookup_of_insert hl with ⟨hid, rfl⟩ | ⟨-, hl⟩
    · exact .inl ⟨hid, rfl⟩
    · exact .inr ⟨hl, hown.owner_ne hl⟩
  refine ⟨fun s hs => ?_, fun id o ho hin => ?_, fun id id' o o' ho ho' he => ?_⟩
  · show s.id < pool'.nextSession
    rw [hr.nextSession]
    exact Nat.lt_succ_of_lt (h.minted s hs)
  · rcases hcases id o ho with ⟨_, howner⟩ | ⟨hold, _⟩
    · have := h.minted _ hin
      rw [howner] at this
      exact Nat.lt_irrefl _ this
    · exact h.hidden id o hold hin
  · rcases hcases id o ho with ⟨hid, howner⟩ | ⟨hold, hne⟩ <;>
      rcases hcases id' o' ho' with ⟨hid', howner'⟩ | ⟨hold', hne'⟩
    · rw [hid, hid']
    · exact absurd (he.symm.trans howner) hne'
    · exact absurd (he.trans howner') hne
    · exact h.distinct id id' o o' hold hold' he

theorem step (hi : Inv w.pool) {c : Cmd} (hc : c.notRestore = true) (hs : w.step .debug c = some w') :
    OwnersHidden w' := by
  rcases World.step_effect hi hc hs with ⟨r, he, hiss⟩ | ⟨hp, hiss⟩
  · rcases he.registry with ⟨hp, hr⟩ | ⟨hr, ⟨k, ps, hreg⟩ | ⟨hpre, hn⟩⟩
    · have hw' : w' = ⟨w.pool.opened, w.issued ++ [⟨w.pool.nextSession⟩]⟩ := by
        rw [← hp, ← hr, ← hiss]
      rw [hw']
      exact h.opened hi.owners
    · have hw' : w' = ⟨w'.pool, w.issued⟩ := by
        rw [show w.issued = w'.issued by rw [hiss, hr, append_nil]]
      rw [hw']
      exact h.registered hi.owners hreg
    · refine h.of_subset (fun id o hl => ?_) (Nat.le_of_eq hn.symm)
        (by rw [hiss, hr, append_nil])
      rcases hpre with ⟨id', o', _, _, hpre⟩ | hpre
      · rw [hpre] at hl
        exact (lookup_of_erase hl).2
      · rwa [hpre] at hl
  · refine h.of_subset (fun id o hl => ?_) ?_ hiss
    · rw [hp] at hl
      cases c <;> exact hl
    · rw [hp]
      cases c with
      | registerPrefix donor k => exact Nat.le_succ _
      | _ => exact Nat.le_refl _

end OwnersHidden

/-! ## Empty sessions -/

/-- A session without blocks has no tokens. -/
def EmptyUnfilled (pool : KvBlockPool) : Prop :=
  ∀ s t, pool.tables.lookup s = some t → t.slots = [] → t.filledTokens = 0

namespace EmptyUnfilled

variable {pool pool' : KvBlockPool} (h : EmptyUnfilled pool)

include h

theorem onSession {s : SessionHandle} {t t' : BlockTable} (ho : OnSession s t t' pool pool')
    (ht : (t.slots = [] → t.filledTokens = 0) → t'.slots = [] → t'.filledTokens = 0) :
    EmptyUnfilled pool' := by
  intro s' u hu
  by_cases hs : s' = s
  · subst hs
    obtain rfl : u = t' := Option.mem_unique hu ho.after
    exact ht (h s' t ho.before)
  · rw [ho.others s' hs] at hu
    exact h s' u hu

theorem sub (ht : ∀ s t, pool'.tables.lookup s = some t → pool.tables.lookup s = some t) :
    EmptyUnfilled pool' := fun s t hs => h s t (ht s t hs)

theorem erased {s : SessionHandle} (ht : pool'.tables = pool.tables.erase s) :
    EmptyUnfilled pool' := by
  refine h.sub fun s' t hs => ?_
  rw [ht] at hs
  exact (lookup_of_erase hs).2

omit h in
/-- A table grown by nothing, with the fill it had. -/
theorem extend {t : BlockTable} {ps : List PhysBlockId} {n : Nat}
    (hn : t.slots = [] → ps = [] → t.filledTokens = 0 → n = 0)
    (ht : t.slots = [] → t.filledTokens = 0) (hnil : (t.extend ps n).slots = []) :
    (t.extend ps n).filledTokens = 0 := by
  unfold BlockTable.extend at hnil
  rw [append_eq_nil_iff, map_eq_nil_iff] at hnil
  exact hn hnil.1 hnil.2 (ht hnil.1)

theorem spliced {src dst : SessionHandle} {lo hi : Nat} {u t : BlockTable} {ps : List PhysBlockId}
    (hs : Spliced src dst lo hi u t ps pool pool') : EmptyUnfilled pool' := by
  refine h.onSession hs.toOnSession (extend fun _ hps h0 => ?_)
  have hlen := hs.spans.length
  rw [hps, length_nil] at hlen
  rw [h0, spliceFill, ← hlen, Nat.zero_mul, Nat.zero_min]

theorem effect {c : Cmd} {r : Reply} (he : Effect pool c r pool') : EmptyUnfilled pool' := by
  cases he with
  | openSession =>
    intro s t hs hnil
    rcases lookup_of_insert hs with ⟨-, rfl⟩ | ⟨-, hs⟩
    · rfl
    · exact h s t hs hnil
  | cowKeep | commitKeep | commit => exact h
  | @append s n t ps _ on _ count size =>
    refine h.onSession on (extend fun hslots hps h0 => ?_)
    -- no block was needed for the `n` tokens, so there were none
    have hzero : (n + pool.geom.blockSize - 1) / pool.geom.blockSize = 0 := by
      simpa [newBlocksFor, hps, hslots, h0, eq_comm] using count
    rcases Nat.div_eq_zero_iff.mp hzero with hsize | hlt
    · exact absurd hsize size
    · omega
  | evict _ ev =>
    refine h.onSession ev.toOnSession fun ht hnil => ?_
    rw [ev.filled]
    refine ht (length_eq_zero_iff.mp ?_)
    rw [← ev.length, hnil, length_nil]
  | discard _ _ tables => exact h.erased tables
  | splice hs | splicePrefix hs => exact h.spliced hs
  | splicePrefixFrom _ hs => exact h.spliced hs
  | cowReplace _ _ _ on =>
    refine h.onSession on fun ht hnil => ht ?_
    simpa using hnil
  | registerPrefix hr =>
    intro s t hs hnil
    by_cases hc : s = ⟨pool.nextSession⟩
    · subst hc
      obtain rfl : t = _ := Option.mem_unique hs hr.owner
      have hps := map_eq_nil_iff.mp hnil
      have := hr.count
      rw [hps, length_nil] at this
      rw [← this, Nat.zero_mul]
    · rw [hr.others s hc] at hs
      exact h s t hs hnil
  | releasePrefix _ _ _ tables => exact h.erased tables
  | allocShifted _ on _ count =>
    refine h.onSession on (extend fun _ hps h0 => ?_)
    rw [h0, ← count, hps, length_nil, Nat.zero_mul]
  | lookupChain _ touched =>
    exact h.sub fun s t hs => by rwa [touched.sessions.tables] at hs
  | spliceCachedChain touched _ on =>
    refine (h.sub fun s t hs => by rwa [touched.sessions.tables] at hs).onSession on
      (extend fun _ hps _ => ?_)
    rw [hps, length_nil, Nat.zero_mul]
  | releaseCached _ same => exact h.sub fun s t hs => by rwa [same.tables] at hs

theorem refused (c : Cmd) : EmptyUnfilled (c.refused pool) :=
  h.sub fun s t hs => by
    cases c <;> exact hs

omit h

theorem new (geom : KvGeometry) : EmptyUnfilled (.new geom) := by
  intro s t hs
  simp [KvBlockPool.new] at hs

end EmptyUnfilled

/-! ## A standing prefix -/

/-- Prefix `id` is registered, and its owner has the table `t`. -/
structure Standing (geom : KvGeometry) (id : PrefixId) (o : PrefixOwner) (t : BlockTable)
    (w : World) : Prop where
  size : w.pool.geom = geom
  inv : Inv w.pool
  hidden : OwnersHidden w
  empty : EmptyUnfilled w.pool
  entry : w.pool.prefixes.lookup id = some o
  table : w.pool.tables.lookup o.owner = some t

/-- One call on own handles, other than the prefix's release, leaves it
standing with the same table. -/
theorem Standing.step {geom : KvGeometry} {id : PrefixId} {o : PrefixOwner} {t : BlockTable}
    {w w' : World} (h : Standing geom id o t w) {c : Cmd} (hc : OwnHandles w c)
    (hrel : c ≠ .releasePrefix id) (hs : w.step .debug c = some w') : Standing geom id o t w' := by
  have hsize := (World.step_geom h.inv hc.1 hs).trans h.size
  have hinv := World.step_inv h.inv hc.1 hs
  have hhid := h.hidden.step h.inv hc.1 hs
  rcases World.step_effect h.inv hc.1 hs with ⟨r, he, _⟩ | ⟨hp, _⟩
  · refine ⟨hsize, hinv, hhid, h.empty.effect he, ?_, ?_⟩
    · rcases he.registry with ⟨hp, _⟩ | ⟨_, ⟨k, ps, hreg⟩ | ⟨hpre, _⟩⟩
      · rw [hp]
        exact h.entry
      · have hne : id ≠ ⟨w.pool.nextPrefix⟩ := by
          rintro rfl
          exact Nat.lt_irrefl _ (h.inv.owners.fresh _ o h.entry)
        rw [hreg.prefixes, lookup_insert_ite, if_neg hne]
        exact h.entry
      rcases hpre with ⟨id', o', hc', _, hpre⟩ | hpre
      · have hne : id ≠ id' := by
          rintro rfl
          exact hrel hc'
        rw [hpre, lookup_erase_ite, if_neg hne]
        exact h.entry
      · rw [hpre]
        exact h.entry
    · have hnamed : o.owner ∉ c.sessions := fun hin =>
        h.hidden.hidden id o h.entry (hc.2 _ hin)
      rw [he.others hnamed (h.inv.owners.minted id o h.entry) ?_]
      · exact h.table
      · rintro id' o' rfl ho' heq
        exact hrel (by rw [h.hidden.distinct id' id o' o ho' h.entry heq])
  · refine ⟨hsize, hinv, hhid, ?_, ?_, ?_⟩
    · rw [hp]
      exact h.empty.refused c
    · rw [hp]
      cases c <;> exact h.entry
    · rw [hp]
      cases c <;> exact h.table

/-- The states reached with own handles, before anything is known of a
prefix. -/
theorem Reach.ownHandles {geom : KvGeometry} {w : World} (hr : Reach .debug OwnHandles geom w) :
    Inv w.pool ∧ OwnersHidden w ∧ EmptyUnfilled w.pool := by
  refine Steps.invariant
    (I := fun w => Inv w.pool ∧ OwnersHidden w ∧ EmptyUnfilled w.pool) ?_ hr
    ⟨inv_new geom, .new geom, .new geom⟩
  rintro w c w' ⟨hi, hh, he⟩ hc hs
  refine ⟨World.step_inv hi hc.1 hs, hh.step hi hc.1 hs, ?_⟩
  rcases World.step_effect hi hc.1 hs with ⟨r, heff, _⟩ | ⟨hp, _⟩
  · exact he.effect heff
  · rw [hp]
    exact he.refused c

/-- `cow_break` never hands out a block that another session refers to. -/
theorem cowBreak_unshared {pool pool' : KvBlockPool} (hw : Wf pool) {s : SessionHandle}
    {i : Nat} {q : PhysBlockId} (hrun : cowBreak .debug s i pool = .ok q pool') {s' : SessionHandle}
    (hne : s' ≠ s) {t' : BlockTable} (ht' : pool.tables.lookup s' = some t') :
    Slot.resident q ∉ t'.slots := by
  intro hmem
  have hspec := cowBreak_spec hw s i
  rw [hrun] at hspec
  obtain ⟨t, p, ht, hslot, ⟨rfl, hrc, _⟩ | ⟨_, htaken, _⟩⟩ := hspec.of_ok
  · -- two sessions refer to it, so it is counted twice
    have h1 := slotRefsIn_pos (mem_of_getElem? hslot)
    have h2 := slotRefsIn_pos hmem
    have h3 := add_le_total (slotRefsIn q) (Ne.symm hne) ht ht'
    have h4 := hw.refs q
    unfold slotRefs at h4
    omega
  · have hfree : q ∈ pool.free := by simp [htaken]
    exact hw.not_free_of_pos (hw.slot_pos ht' hmem) hfree

/-- **A registered prefix is immune until released.** From its registration
on, under any calls on own handles other than its release, its owner is open
with exactly the blocks it was registered with, none of them free or handed
out for writing while shared; splicing it onto any empty session succeeds
with those blocks, and the shifted allocation never fails its `expect` — as
long as nothing overflows. -/
theorem registered_prefix_immune {build : Build} {geom : KvGeometry} {w w' : World}
    {donor : SessionHandle} {k : Nat} {id : PrefixId} {pool₁ : KvBlockPool}
    (hr : Reach build (Unwrapped build OwnHandles) geom w)
    (hfits : Fits build (registerPrefix · donor k) w.pool)
    (hreg : registerPrefix build donor k w.pool = .ok id pool₁)
    (hs : Steps build (Unwrapped build fun w c => OwnHandles w c ∧ c ≠ .releasePrefix id)
      ⟨pool₁, w.issued⟩ w') :
    ∃ owner, ∃ ps : List PhysBlockId, ps.length = k ∧
      pool₁.prefixes.lookup id = some ⟨owner, k⟩ ∧
      pool₁.tables.lookup owner = some ⟨ps.map .resident, k * geom.blockSize⟩ ∧
      w'.pool.prefixes.lookup id = some ⟨owner, k⟩ ∧
      w'.pool.tables.lookup owner = some ⟨ps.map .resident, k * geom.blockSize⟩ ∧
      (∀ p ∈ ps, p ∉ w'.pool.free) ∧
      (∀ s i q pool', Fits build (cowBreak · s i) w'.pool →
        cowBreak build s i w'.pool = .ok q pool' → q ∈ ps → ∀ s' t', s' ≠ s →
          w'.pool.tables.lookup s' = some t' → Slot.resident q ∉ t'.slots) ∧
      (∀ dst t, w'.pool.tables.lookup dst = some t → t.slots = [] →
        ¬ Overflows (splicePrefixFrom .debug id dst w'.pool) → ∃ pool' fill,
          splicePrefixFrom build id dst w'.pool = .ok (k * geom.blockSize) pool' ∧
          pool'.tables.lookup dst = some ⟨ps.map .resident, fill⟩) ∧
      (∀ dst, Fits build (allocShiftedPrefixSlots · id dst) w'.pool →
        allocShiftedPrefixSlots build id dst w'.pool ≠ .abort .expectFailed) := by
  obtain ⟨hi, hg⟩ := Reach.inv (fun w c hc => hc.1) hr.checked
  obtain ⟨_, hhid, hempty⟩ := Reach.ownHandles hr.checked
  have hspec := registerPrefix_spec hi.wf donor k
  rw [← hfits.checked (registerPrefix_unchecked donor k), hreg] at hspec
  obtain ⟨rfl, ps, hR⟩ := hspec.of_ok
  -- the prefix stands at registration, and each later call keeps it so
  have hentry : pool₁.prefixes.lookup ⟨w.pool.nextPrefix⟩
      = some ⟨⟨w.pool.nextSession⟩, k⟩ := by
    rw [hR.prefixes]
    exact AList.lookup_insert _
  have htable := hR.owner
  rw [hg] at htable
  have heff : Effect w.pool (.registerPrefix donor k) (.prefixId ⟨w.pool.nextPrefix⟩) pool₁ :=
    .registerPrefix hR
  have h₁ : Standing geom ⟨w.pool.nextPrefix⟩ ⟨⟨w.pool.nextSession⟩, k⟩
      ⟨ps.map .resident, k * geom.blockSize⟩ ⟨pool₁, w.issued⟩ :=
    ⟨hR.geom.trans hg, heff.inv hi, hhid.registered hi.owners hR, hempty.effect heff, hentry,
      htable⟩
  have h' : Standing geom ⟨w.pool.nextPrefix⟩ ⟨⟨w.pool.nextSession⟩, k⟩
      ⟨ps.map .resident, k * geom.blockSize⟩ w' :=
    Steps.invariant (fun w c w' h hc hs => h.step hc.1 hc.2 hs) hs.checked h₁
  have hw' := h'.inv.wf
  refine ⟨⟨w.pool.nextSession⟩, ps, hR.count, hentry, htable, h'.entry, h'.table, ?_, ?_, ?_, ?_⟩
  · intro p hp
    exact hw'.not_free_of_pos (hw'.slot_pos h'.table (mem_map_of_mem hp))
  · intro s i q pool' hfits hrun _ s' t' hne ht'
    rw [hfits.checked (cowBreak_unchecked s i)] at hrun
    exact cowBreak_unshared hw' hrun hne ht'
  · intro dst t ht hnil hover
    have hdst : w'.pool.tables.lookup dst = some ⟨[], 0⟩ := by
      obtain ⟨slots, filled⟩ := t
      have h0 := h'.empty dst _ ht hnil
      simp only at hnil h0
      rw [ht, hnil, h0]
    have hspans : Spans ⟨ps.map .resident, k * geom.blockSize⟩ 0 k ps :=
      ⟨Nat.zero_le _, by simp [hR.count], by simp [hR.count]⟩
    have hlim := hR.inRange
    rw [hg, ← h'.size] at hlim
    have hshares := splicePrefix_shares hw' h'.table hdst hspans (by rw [h'.size]) hlim
    have hfrom : splicePrefixFrom .debug ⟨w.pool.nextPrefix⟩ dst w'.pool
        = splicePrefix .debug ⟨w.pool.nextSession⟩ dst k w'.pool := by
      simp only [splicePrefixFrom, bind_run, get_run, Outcome.andThen_ok, h'.entry, okOr_some,
        pure_run]
    have hfits' : Fits build (splicePrefixFrom · ⟨w.pool.nextPrefix⟩ dst) w'.pool := fun _ => hover
    rw [hfits'.checked (splicePrefixFrom_unchecked _ dst), hfrom]
    rw [hfrom] at hover
    revert hover hshares
    cases splicePrefix .debug ⟨w.pool.nextSession⟩ dst k w'.pool with
    | ok n pool' =>
      rintro - (⟨rfl, hdst'⟩ | _)
      rw [h'.size] at hdst' ⊢
      exact ⟨pool', _, rfl, hdst'⟩
    | err e pool' => rintro - ⟨⟩
    | abort why =>
      rintro hover (_ | rfl | rfl)
      · exact absurd trivial hover
      · exact absurd trivial hover
  · intro dst hfits hab
    have := allocShiftedPrefixSlots_spec hw' h'.inv.owners ⟨w.pool.nextPrefix⟩ dst
    rw [← hfits.checked (allocShiftedPrefixSlots_unchecked _ dst), hab] at this
    exact absurd this.of_abort (by decide)

/-- The donor registers its only block and is discarded: the block stays with
the owner. -/
theorem registered_prefix_outlives_donor :
    ∃ w id pool₁ w' owner p, (World.mk (new smallGeom).opened [⟨0⟩]).step .debug
        (.append ⟨0⟩ 4) = some w ∧
      registerPrefix .debug ⟨0⟩ 1 w.pool = .ok id pool₁ ∧
      (World.mk pool₁ w.issued).step .debug (.discard ⟨0⟩) = some w' ∧
      w'.pool.prefixes.lookup id = some ⟨owner, 1⟩ ∧
      w'.pool.tables.lookup owner = some ⟨[.resident p], 4⟩ ∧ p ∉ w'.pool.free := by
  have h : ((World.mk (new smallGeom).opened [⟨0⟩]).step .debug (.append ⟨0⟩ 4)).any fun w =>
      (registerPrefix .debug ⟨0⟩ 1 w.pool).any fun _ pool₁ =>
        ((World.mk pool₁ w.issued).step .debug (.discard ⟨0⟩)).any fun _ => w.issued = [⟨0⟩] := by
    decide +kernel
  obtain ⟨w, hstep, h⟩ := (Option.any_eq_true _ _).mp h
  obtain ⟨id, pool₁, hreg, h⟩ := Outcome.any_eq_true.mp h
  obtain ⟨w', hdisc, h⟩ := (Option.any_eq_true _ _).mp h
  have hiss : w.issued = [⟨0⟩] := of_decide_eq_true h
  have hreach : Reach .debug OwnHandles smallGeom w :=
    .tail (.single ⟨.openSession, ⟨rfl, by simp [Cmd.sessions]⟩, rfl⟩)
      ⟨.append ⟨0⟩ 4, ⟨rfl, by simp [Cmd.sessions, World.new, new, Reply.issued]⟩,
        hstep⟩
  have hsteps : Steps .debug (fun w c => OwnHandles w c ∧ c ≠ .releasePrefix id)
      ⟨pool₁, w.issued⟩ w' :=
    .single ⟨.discard ⟨0⟩, ⟨⟨rfl, by simp [Cmd.sessions, hiss]⟩, by simp⟩, hdisc⟩
  obtain ⟨owner, ps, hlen, _, _, hentry, htable, hfree, _⟩ :=
    registered_prefix_immune hreach.unwrapped fits_debug hreg hsteps.unwrapped
  obtain ⟨p, rfl⟩ := length_eq_one_iff.mp hlen
  exact ⟨w, id, pool₁, w', owner, p, hstep, hreg, hdisc, hentry, htable, hfree p (by simp)⟩

/-- The donor spliced onto itself until the count of the registered block has
wrapped to one: a copy-on-write break then hands the block to the donor,
though it is the owner's too. -/
theorem registered_prefix_handed_out :
    ∃ w pool₁ w', Reach .release OwnHandles oneBlock w ∧
      registerPrefix .release ⟨0⟩ 1 w.pool = .ok ⟨0⟩ pool₁ ∧
      pool₁.prefixes.lookup ⟨0⟩ = some ⟨⟨1⟩, 1⟩ ∧
      Steps .release (fun w c => OwnHandles w c ∧ c ≠ .releasePrefix ⟨0⟩) ⟨pool₁, w.issued⟩ w' ∧
      w'.pool.tables.lookup ⟨1⟩ = some ⟨[.resident 0], 1⟩ ∧
      cowBreak .release ⟨0⟩ 0 w'.pool = .ok 0 w'.pool := by
  let pool : KvBlockPool := ⟨oneBlock, [], [], (∅ : AList _).insert ⟨1⟩ ⟨[.resident 0], 1⟩, 2,
    (∅ : AList _).insert ⟨0⟩ ⟨⟨1⟩, 1⟩, 1, ∅, ∅, 0, {}⟩
  have hallowed {pool : KvBlockPool} {n : Nat} : OwnHandles ⟨pool, [⟨0⟩]⟩ (.splice ⟨0⟩ ⟨0⟩ 0 n) ∧
      Cmd.splice ⟨0⟩ ⟨0⟩ 0 n ≠ .releasePrefix ⟨0⟩ := by
    simp [OwnHandles, Cmd.notRestore, Cmd.sessions]
  -- the owner's table was inserted last; the first splice inserts the donor's again
  let registered : KvBlockPool := { pool with
    refcount := [2]
    tables := ((∅ : AList _).insert ⟨0⟩ ⟨[.resident 0], 1⟩).insert ⟨1⟩ ⟨[.resident 0], 1⟩ }
  have hreach : Reach .release OwnHandles oneBlock
      ⟨KvBlockPool.holding ⟨oneBlock, [], [], ∅, 1, ∅, 0, ∅, ∅, 0, {}⟩ ⟨0⟩ 1 1 1, [⟨0⟩]⟩ :=
    .tail (.single ⟨.openSession, ⟨rfl, by simp [Cmd.sessions]⟩, rfl⟩)
      ⟨.append ⟨0⟩ 1, ⟨rfl, by simp [Cmd.sessions, World.new, new, Reply.issued]⟩, rfl⟩
  have hsplice : World.step .release ⟨registered, [⟨0⟩]⟩ (.splice ⟨0⟩ ⟨0⟩ 0 1)
      = some ⟨pool.holding ⟨0⟩ 2 2 3, [⟨0⟩]⟩ := rfl
  obtain ⟨filled, hsteps⟩ := splices_holding pool ⟨0⟩ 2 2 3
    (fun w c => OwnHandles w c ∧ c ≠ .releasePrefix ⟨0⟩) [⟨0⟩] (fun _ _ => hallowed) 31
  refine ⟨_, registered, _, hreach, rfl, rfl,
    .head ⟨.splice ⟨0⟩ ⟨0⟩ 0 1, hallowed, hsplice⟩ hsteps, ?_,
    cowBreak_holding pool ⟨0⟩ (by decide) (by decide)⟩
  show (pool.tables.insert ⟨0⟩ _).lookup ⟨1⟩ = _
  rw [lookup_insert_ite, if_neg (by decide)]
  rfl

end Fuel.KvPool
