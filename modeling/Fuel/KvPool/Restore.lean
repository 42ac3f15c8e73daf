import Fuel.KvPool.Guarantees

/-!
# The KV block pool: restore

`restore` puts fresh blocks into the slots its handle lists as externalized
and writes the remembered block ids of the shared slots back, without looking
at the counts. The counts stay exact as long as the handle still describes
the session (`Restorable`); after a copy-on-write break in between it does
not, and one block is then referenced more often than counted.
-/

namespace Fuel.KvPool

open Fuel Method List

/-! ## Placing a block -/

section Place

variable {t : BlockTable} {i : Nat} {p : PhysBlockId}

/-- The slot `place_resident_slot` overwrites: past the end of the table it
is an externalized one. -/
def BlockTable.slotAt (t : BlockTable) (i : Nat) : Slot := (t.slots[i]?).getD .externalized

theorem place_slot (t : BlockTable) (i : Nat) (p : PhysBlockId) (j : Nat) (q : PhysBlockId) :
    (t.place i p).slots[j]? = some (.resident q) ↔
      (j = i ∧ q = p) ∨ (j ≠ i ∧ t.slots[j]? = some (.resident q)) := by
  unfold BlockTable.place
  simp only [getElem?_set, length_append, length_replicate]
  by_cases hj : i = j
  · subst hj
    have : i < t.slots.length + (i + 1 - t.slots.length) := by omega
    simp [this, eq_comm]
  · rw [if_neg hj]
    have hj' : j ≠ i := fun h => hj h.symm
    by_cases hlt : j < t.slots.length
    · simp [hj', getElem?_append_left hlt]
    · rw [getElem?_append_right (by omega), getElem?_replicate]
      have : t.slots[j]? = none := getElem?_eq_none (by omega)
      split <;> simp [hj', this]

/-- Placing `p` at `i` trades the reference of the slot that was there for
one to `p`. -/
theorem place_refs (t : BlockTable) (i : Nat) (p x : PhysBlockId) :
    KvBlockPool.slotRefsIn x (t.place i p) + [t.slotAt i].count (.resident x)
      = KvBlockPool.slotRefsIn x t + [Slot.resident p].count (.resident x) := by
  have hpad : ∀ n, KvBlockPool.slotRefsIn x
      { t with slots := t.slots ++ List.replicate n Slot.externalized }
      = KvBlockPool.slotRefsIn x t := by
    intro n
    simp [KvBlockPool.slotRefsIn, count_append, count_replicate]
  have hat : (t.slots ++ List.replicate (i + 1 - t.slots.length) Slot.externalized)[i]?
      = some (t.slotAt i) := by
    unfold BlockTable.slotAt
    by_cases hlt : i < t.slots.length
    · rw [getElem?_append_left hlt, getElem?_eq_getElem hlt]
      rfl
    · rw [getElem?_append_right (by omega), getElem?_replicate, if_pos (by omega),
        getElem?_eq_none (by omega)]
      rfl
  have := slotRefsIn_set (t := { t with
    slots := t.slots ++ List.replicate (i + 1 - t.slots.length) Slot.externalized }) hat
    (.resident p) x
  rw [hpad] at this
  exact this

end Place

/-! ## When a handle still describes its session -/

/-- No block is in slot `i`. -/
def BlockTable.vacant (t : BlockTable) (i : Nat) : Bool :=
  match t.slots[i]? with
  | some (.resident _) => false
  | _ => true

theorem BlockTable.vacant_iff {t : BlockTable} {i : Nat} :
    t.vacant i = true ↔ ∀ p : PhysBlockId, t.slots[i]? ≠ some (.resident p) := by
  unfold BlockTable.vacant
  rcases t.slots[i]? with _ | p | _ <;> simp

/-- The handle still describes the table: the slots it lists as externalized
are distinct and vacant, and the shared ones still hold the blocks it
remembers. -/
structure Restorable (t : BlockTable) (h : Externalized) : Prop where
  distinct : h.externalizedSlots.Nodup
  vacant : ∀ i ∈ h.externalizedSlots, t.vacant i = true
  backed : ∀ e ∈ h.residentSlots, t.slots[e.1]? = some (.resident e.2)

instance (t : BlockTable) (h : Externalized) : Decidable (Restorable t h) :=
  decidable_of_iff (h.externalizedSlots.Nodup ∧
    (∀ i ∈ h.externalizedSlots, t.vacant i = true) ∧
    ∀ e ∈ h.residentSlots, t.slots[e.1]? = some (.resident e.2))
    ⟨fun ⟨a, b, c⟩ => ⟨a, b, c⟩, fun ⟨a, b, c⟩ => ⟨a, b, c⟩⟩

/-! ## The loops of `restore` -/

section Loops

variable {pool : KvBlockPool} {s : SessionHandle} {t : BlockTable} {h : Externalized}

/-- Every block in a slot of `pool'` was in that slot of `pool`, or is one of `ps`. -/
def Fills (ps : List PhysBlockId) (pool pool' : KvBlockPool) : Prop :=
  ∀ s t' (i : Nat) (p : PhysBlockId), pool'.tables.lookup s = some t' →
    t'.slots[i]? = some (.resident p) → p ∈ ps ∨
      ∃ t, pool.tables.lookup s = some t ∧ t.slots[i]? = some (.resident p)

/-- What `restore` does to the pool whatever its handle says: it takes blocks
off the free list and writes them, and those the handle remembers, into `s`'s table. -/
structure Refilled (s : SessionHandle) (h : Externalized) (ps : List PhysBlockId)
    (pool pool' : KvBlockPool) : Prop where
  rest : SameRest pool pool'
  taken : pool.free = pool'.free ++ ps.reverse
  blocks : pool'.refcount.length = pool.refcount.length
  session : ∃ t, pool'.tables.lookup s = some t
  fills : Fills (ps ++ h.residentSlots.map Prod.snd) pool pool'

theorem Fills.place {pool' pool'' : KvBlockPool} {ps qs : List PhysBlockId} {i : Nat}
    {p : PhysBlockId} (hf : Fills ps pool pool') (hsub : ps ⊆ qs) (hp : p ∈ qs)
    (ht : pool'.tables.lookup s = some t)
    (htables : pool''.tables = pool'.tables.insert s (t.place i p)) : Fills qs pool pool'' := by
  intro s' t' j q ht' hq
  rw [htables, AssocMap.lookup_insert_ite] at ht'
  split at ht'
  · rename_i hs
    subst hs
    cases ht'
    rcases (place_slot _ _ _ _ _).mp hq with ⟨_, rfl⟩ | ⟨_, hq⟩
    · exact .inl hp
    · exact (hf s' t j q ht hq).imp_left (hsub ·)
  · exact (hf s' t' j q ht' hq).imp_left (hsub ·)

theorem restoreSlot_run {fs : List PhysBlockId} {p : PhysBlockId} (hf : pool.free = fs ++ [p])
    (hp : p < pool.refcount.length) (ht : pool.tables.lookup s = some t) (i : Nat) :
    restoreSlot s i pool = .ok () { pool with
      free := fs
      refcount := pool.refcount.set p 1
      tables := pool.tables.insert s (t.place i p) } := by
  simp [restoreSlot, takeFree_run hf, setRefcount, hp, placeResidentSlot, tableMut, ht]

variable (hw : Wf pool)

include hw

/-- As long as blocks are left, the first loop body returns. -/
theorem Refilled.next {pool' : KvBlockPool} {ps : List PhysBlockId}
    (hr : Refilled s h ps pool pool') (hn : ps.length < pool.free.length) (i : Nat) :
    ∃ p pool'', restoreSlot s i pool' = .ok () pool'' ∧ Refilled s h (ps ++ [p]) pool pool'' := by
  have hne : pool'.free ≠ [] := by
    intro hnil
    have := hr.taken
    rw [hnil] at this
    simp [this] at hn
  have hf := (dropLast_append_getLast hne).symm
  have hmem : pool'.free.getLast hne ∈ pool.free := by
    rw [hr.taken]
    exact mem_append_left _ (getLast_mem hne)
  have hlt : pool'.free.getLast hne < pool'.refcount.length := by
    rw [hr.blocks, hw.len]
    exact hw.freeLt _ hmem
  obtain ⟨t, ht⟩ := hr.session
  refine ⟨pool'.free.getLast hne, _, restoreSlot_run hf hlt ht i, hr.rest.trans rfl, ?_,
    by simp [hr.blocks], ⟨t.place i (pool'.free.getLast hne), by simp⟩,
    hr.fills.place (by grind) (by simp) ht rfl⟩
  rw [reverse_append, reverse_singleton, ← List.append_assoc, ← hf]
  exact hr.taken

theorem restore_spec (s : SessionHandle) (h : Externalized) :
    (restore s h pool).AllOrNothing pool fun _ pool' => ∃ ps, Refilled s h ps pool pool' := by
  unfold restore
  rw [bind_run, get_run, Outcome.andThen_ok, bind_run]
  refine (okOr_reads _ _ pool).read fun t ht => ?_
  split
  · exact .refused _
  obtain ⟨pool₁, hrun₁, ps, hlen, hr⟩ := forM_returns (f := fun i => restoreSlot s i)
    (fun done pool' => ∃ ps : List PhysBlockId, ps.length = done.length ∧
      Refilled s h ps pool pool') h.externalizedSlots
    (fun done i rest pool' hl ⟨ps, hlen, hr⟩ => by
      have hlt : ps.length < pool.free.length := by
        have := congrArg List.length hl
        simp at this
        omega
      obtain ⟨p, pool'', hrun, hr'⟩ := hr.next hw hlt i
      exact ⟨pool'', hrun, ps ++ [p], by simp [hlen], hr'⟩)
    (s := pool) ⟨[], rfl, .refl pool, by simp, rfl, ⟨t, ht⟩, fun _ t _ _ ht hp => .inr ⟨t, ht, hp⟩⟩
  obtain ⟨pool₂, hrun₂, hr₂⟩ := forM_returns
    (f := fun e : Nat × PhysBlockId => placeResidentSlot s e.1 e.2)
    (fun _ pool' => Refilled s h ps pool pool') h.residentSlots
    (fun done e rest pool' hl hr => by
      obtain ⟨t', ht'⟩ := hr.session
      exact ⟨_, tableMut_run ht' _, hr.rest.trans rfl, hr.taken, hr.blocks,
        ⟨t'.place e.1 e.2, by simp⟩, hr.fills.place (fun _ hp => hp)
          (mem_append_right _ (mem_map_of_mem (by simp [hl]))) ht' rfl⟩)
    hr
  rw [bind_run, hrun₁, Outcome.andThen_ok, hrun₂]
  exact .ok ⟨ps, hr₂⟩

omit hw in
/-- How far the refilling of `t` has come: what was resident still is, and
only slots already done are newly so. -/
structure Refilling (done : List Nat) (t t' : BlockTable) : Prop where
  kept : ∀ (j : Nat) (q : PhysBlockId),
    t.slots[j]? = some (.resident q) → t'.slots[j]? = some (.resident q)
  untouched : ∀ (j : Nat) (q : PhysBlockId), j ∉ done →
    t'.slots[j]? = some (.resident q) → t.slots[j]? = some (.resident q)

variable (ht : pool.tables.lookup s = some t)

include ht

/-- A fresh block into a vacant slot keeps the counts exact. -/
theorem restoreSlot_returns {i : Nat} (hv : ∀ p : PhysBlockId, t.slots[i]? ≠ some (.resident p))
    {fs : List PhysBlockId} {p : PhysBlockId} (hf : pool.free = fs ++ [p]) :
    ∃ pool', restoreSlot s i pool = .ok () pool' ∧ pool'.free = fs ∧
      OnSession s t (t.place i p) pool pool' := by
  have hlt : p < pool.refcount.length := by
    rw [hw.len]
    exact hw.freeLt p (by simp [hf])
  have hslot : t.slotAt i = .externalized := by
    unfold BlockTable.slotAt
    rcases hi : t.slots[i]? with _ | q | _
    · rfl
    · exact absurd hi (hv q)
    · rfl
  have hm := (hw.mint hf).retable [] ht (t.place i p) fun x => by
    have := place_refs t i p x
    rw [hslot] at this
    simpa using this
  exact ⟨_, restoreSlot_run hf hlt ht i, rfl, .of_insert ht hm⟩

/-- The first loop, from a handle that still describes the session. -/
theorem restoreSlots_return (hres : Restorable t h)
    (hn : h.externalizedSlots.length ≤ pool.free.length) :
    ∃ pool' t', (forM h.externalizedSlots fun i => restoreSlot s i) pool = .ok ⟨⟩ pool' ∧
      OnSession s t t' pool pool' ∧ Refilling h.externalizedSlots t t' := by
  obtain ⟨pool', hrun, t', _, ho, hr⟩ := forM_returns (f := fun i => restoreSlot s i)
    (fun done pool' => ∃ t', pool'.free.length + done.length = pool.free.length ∧
      OnSession s t t' pool pool' ∧ Refilling done t t') h.externalizedSlots
    (fun done i rest pool' hl ⟨t', hlen, ho, hr⟩ => by
      have hpos : 0 < pool'.free.length := by
        have := congrArg List.length hl
        simp at this
        omega
      have hne : pool'.free ≠ [] := ne_nil_of_length_pos hpos
      have hnd := hres.distinct
      rw [hl] at hnd
      have hi : i ∉ done := fun hin =>
        (nodup_append.mp hnd).2.2 i hin i (by simp) rfl
      have hvac := BlockTable.vacant_iff.mp (hres.vacant i (by simp [hl]))
      obtain ⟨pool'', hrun, hfree, ho'⟩ := restoreSlot_returns ho.wf ho.after
        (i := i) (fun q hq => hvac q (hr.untouched i q hi hq))
        (dropLast_append_getLast hne).symm
      refine ⟨pool'', hrun, _, ?_, ho.trans ho', ?_, ?_⟩
      · rw [hfree, length_dropLast, length_append, length_singleton]
        omega
      · intro j q hq
        refine (place_slot _ _ _ _ _).mpr (.inr ⟨?_, hr.kept j q hq⟩)
        rintro rfl
        exact hvac q hq
      · intro j q hj hq
        rcases (place_slot _ _ _ _ _).mp hq with ⟨rfl, _⟩ | ⟨_, hq⟩
        · simp at hj
        · exact hr.untouched j q (fun hd => hj (by simp [hd])) hq)
    (s := pool) ⟨t, by simp, .refl hw ht, fun _ _ h => h, fun _ _ _ h => h⟩
  exact ⟨pool', t', hrun, ho, hr⟩

/-- The second loop writes back blocks that are already there. -/
theorem replaceSlots_return {t₀ : BlockTable}
    (hb : ∀ e ∈ h.residentSlots, t₀.slots[e.1]? = some (.resident e.2))
    (hk : ∀ (j : Nat) (q : PhysBlockId),
      t₀.slots[j]? = some (.resident q) → t.slots[j]? = some (.resident q)) :
    ∃ pool' t', (forM h.residentSlots fun e => placeResidentSlot s e.1 e.2) pool
        = .ok ⟨⟩ pool' ∧ OnSession s t t' pool pool' := by
  obtain ⟨pool', hrun, t', ho, _⟩ := forM_returns
    (f := fun e : Nat × PhysBlockId => placeResidentSlot s e.1 e.2)
    (fun _ pool' => ∃ t', OnSession s t t' pool pool' ∧ ∀ (j : Nat) (q : PhysBlockId),
      t₀.slots[j]? = some (.resident q) → t'.slots[j]? = some (.resident q)) h.residentSlots
    (fun done e rest pool' hl ⟨t', ho, hk'⟩ => by
      have hslot := hb e (by simp [hl])
      have hat : t'.slotAt e.1 = .resident e.2 := by
        unfold BlockTable.slotAt
        rw [hk' _ _ hslot]
        rfl
      have hm := ho.wf.retable [] ho.after (t'.place e.1 e.2) fun x => by
        have := place_refs t' e.1 e.2 x
        rw [hat] at this
        simpa using this
      refine ⟨_, tableMut_run ho.after _, _, ho.trans (.of_insert ho.after hm), ?_⟩
      intro j q hq
      refine (place_slot _ _ _ _ _).mpr ?_
      by_cases hj : j = e.1
      · subst hj
        rw [hslot] at hq
        cases hq
        exact .inl ⟨rfl, rfl⟩
      · exact .inr ⟨hj, hk' j q hq⟩)
    (s := pool) ⟨t, .refl hw ht, hk⟩
  exact ⟨pool', t', hrun, ho⟩

end Loops

/-- A `restore` whose handle still describes the session keeps the counts
exact. -/
theorem restore_wf {pool pool' : KvBlockPool} {s : SessionHandle} {t : BlockTable}
    {h : Externalized} (hw : Wf pool) (ht : pool.tables.lookup s = some t)
    (hres : Restorable t h) (hrun : restore s h pool = .ok () pool') : Wf pool' := by
  by_cases hroom : h.externalizedSlots.length > pool.free.length
  · simp [restore, ht, hroom] at hrun
  · obtain ⟨pool₁, t₁, hrun₁, ho₁, hr⟩ := restoreSlots_return hw ht hres
      (Nat.not_lt.mp hroom)
    obtain ⟨pool₂, t₂, hrun₂, ho₂⟩ := replaceSlots_return ho₁.wf ho₁.after hres.backed hr.kept
    simp only [restore, bind_run, get_run, Outcome.andThen_ok, ht, okOr_some, pure_run,
      if_neg hroom, hrun₁, hrun₂] at hrun
    cases hrun
    exact ho₂.wf

/-! ## Runs with restores -/

/-- Any call, but a `restore` only with a handle that still describes its
session. -/
def RestoresMatch (w : World) : Cmd → Prop
  | .restore s h => ∀ t, w.pool.tables.lookup s = some t → Restorable t h
  | _ => True

/-- A matching `restore` is all or nothing, like the other calls. -/
theorem restore_exec_spec {pool : KvBlockPool} (hw : Wf pool) {s : SessionHandle}
    {h : Externalized} (hres : ∀ t, pool.tables.lookup s = some t → Restorable t h) :
    ((Cmd.restore s h).exec .debug pool).AllOrNothing pool fun _ pool' =>
      Wf pool' ∧ pool'.geom = pool.geom := by
  have hspec := restore_spec hw s h
  have hexec : (Cmd.restore s h).exec .debug pool
      = (restore s h pool).andThen fun _ pool' => .ok .unit pool' := rfl
  rw [hexec]
  generalize hrun : restore s h pool = out at hspec
  cases hspec with
  | @ok _ pool' hok =>
    obtain ⟨ps, hrf⟩ := hok
    refine .ok ⟨?_, hrf.rest.geom⟩
    cases ht : pool.tables.lookup s with
    | none => simp [restore, ht] at hrun
    | some t => exact restore_wf hw ht (hres t ht) hrun
  | refused e => exact .refused e
  | arith harith => exact .arith harith

/-- Every call that returned kept the counts exact, if it met the condition
on restores. -/
theorem World.step_wf {w w' : World} {c : Cmd} (hw : Wf w.pool) (hc : RestoresMatch w c)
    (hs : w.step .debug c = some w') : Wf w'.pool ∧ w'.pool.geom = w.pool.geom := by
  by_cases hr : c.notRestore = true
  · rcases exec_cases hw hr with hspec | ⟨habort, _⟩
    · rcases World.step_eq_some hs with ⟨r, hrun, _⟩ | ⟨e, hrun, _⟩
      · rw [hrun] at hspec
        exact ⟨hspec.of_ok.wf hw, hspec.of_ok.geom⟩
      · rw [hrun] at hspec
        rw [hspec.of_err]
        exact ⟨hw.refused c, Cmd.refused_geom c w.pool⟩
    · simp [World.step, habort] at hs
  cases c with
  | restore s h =>
    have hspec := restore_exec_spec hw hc
    rcases World.step_eq_some hs with ⟨r, hrun, _⟩ | ⟨e, hrun, _⟩
    · rw [hrun] at hspec
      exact hspec.of_ok
    · rw [hrun] at hspec
      rw [hspec.of_err]
      exact ⟨hw, rfl⟩
  | _ => simp [Cmd.notRestore] at hr

/-- **Restores that match keep the accounting.** In every run, of all the
operations, that overflows nothing and in which each `restore` is given a
handle that still describes its session, every state reached is accounted
for. -/
theorem restore_keeps_accounting {build : Build} {geom : KvGeometry}
    (hn : geom.numBlocks < 2 ^ 32) {w : World}
    (hr : Reach build (Unwrapped build RestoresMatch) geom w) : Accounted w.pool := by
  have key : Wf w.pool ∧ w.pool.geom = geom := by
    refine Steps.invariant (I := fun w => Wf w.pool ∧ w.pool.geom = geom) ?_ hr.checked
      ⟨wf_new geom, rfl⟩
    rintro w c w' ⟨hw, hg⟩ hc hs
    obtain ⟨hw', hg'⟩ := World.step_wf hw hc hs
    exact ⟨hw', hg'.trans hg⟩
  exact key.1.accounted (by rwa [key.2])

/-- One block appended, evicted and restored at once. -/
theorem restore_after_evict_accounted :
    ∃ w w', (World.new smallGeom).run .debug
        [.openSession, .append ⟨0⟩ 4, .evict ⟨0⟩] = some w ∧
      w.step .debug (.restore ⟨0⟩ ⟨.lossy, [.kvBlocks], [0], []⟩) = some w' ∧
      w'.pool.residentBlock ⟨0⟩ 0 = some 0 ∧ Accounted w'.pool := by
  have h : ((World.new smallGeom).run .debug [.openSession, .append ⟨0⟩ 4, .evict ⟨0⟩]).any fun w =>
      (w.pool.tables.lookup ⟨0⟩).any fun t =>
        (w.step .debug (.restore ⟨0⟩ ⟨.lossy, [.kvBlocks], [0], []⟩)).any fun w' =>
          Restorable t ⟨.lossy, [.kvBlocks], [0], []⟩ ∧ w'.pool.residentBlock ⟨0⟩ 0 = some 0 := by
    decide +kernel
  obtain ⟨w, hrun, h⟩ := (Option.any_eq_true _ _).mp h
  obtain ⟨t, ht, h⟩ := (Option.any_eq_true _ _).mp h
  obtain ⟨w', hstep, h⟩ := (Option.any_eq_true _ _).mp h
  obtain ⟨hres, hblock⟩ := of_decide_eq_true h
  have hreach : Reach .debug RestoresMatch smallGeom w' := by
    refine .tail (Steps.of_run (fun c hc w => ?_) hrun) ⟨_, ?_, hstep⟩
    · simp only [mem_cons, not_mem_nil, or_false] at hc
      rcases hc with rfl | rfl | rfl <;> trivial
    · intro t' ht'
      rw [ht] at ht'
      cases ht'
      exact hres
  exact ⟨w, w', hrun, hstep, hblock, restore_keeps_accounting (by decide) hreach.unwrapped⟩

/-- A copy-on-write break between the eviction and the restore: session 0
shares its block with session 1, evicts (the block stays, the handle
remembers it), breaks the sharing and restores. The block is back in both
tables, counted once, and the private copy is counted and referenced by
nobody. -/
theorem restore_after_cow_break_miscounts :
    ∃ w r pool₂ q pool₃ pool₄, (World.new smallGeom).run .debug
        [.openSession, .append ⟨0⟩ 4, .openSession, .splice ⟨0⟩ ⟨1⟩ 0 1] = some w ∧
      evict ⟨0⟩ w.pool = .ok r pool₂ ∧ cowBreak .debug ⟨0⟩ 0 pool₂ = .ok q pool₃ ∧
      restore ⟨0⟩ r.handle pool₃ = .ok () pool₄ ∧
      pool₄.refcount[0]? = some 1 ∧ pool₄.slotRefs 0 = 2 ∧
      pool₄.refcount[1]? = some 1 ∧ pool₄.slotRefs 1 = 0 ∧ ¬ Accounted pool₄ := by
  have h : ((World.new smallGeom).run .debug
      [.openSession, .append ⟨0⟩ 4, .openSession, .splice ⟨0⟩ ⟨1⟩ 0 1]).any fun w =>
        (evict ⟨0⟩ w.pool).any fun r pool₂ => (cowBreak .debug ⟨0⟩ 0 pool₂).any fun _ pool₃ =>
          (restore ⟨0⟩ r.handle pool₃).any fun _ pool₄ =>
            pool₄.refcount[0]? = some 1 ∧ pool₄.slotRefs 0 = 2 ∧ pool₄.refcount[1]? = some 1 ∧
              pool₄.slotRefs 1 = 0 ∧ pool₄.geom.numBlocks = 4 := by
    decide +kernel
  obtain ⟨w, hrun, h⟩ := (Option.any_eq_true _ _).mp h
  obtain ⟨r, pool₂, hevict, h⟩ := Outcome.any_eq_true.mp h
  obtain ⟨q, pool₃, hcow, h⟩ := Outcome.any_eq_true.mp h
  obtain ⟨_, pool₄, hrestore, h⟩ := Outcome.any_eq_true.mp h
  obtain ⟨h1, h2, h3, h4, hn⟩ := of_decide_eq_true h
  refine ⟨w, r, pool₂, q, pool₃, pool₄, hrun, hevict, hcow, hrestore, h1, h2, h3, h4, ?_⟩
  intro hacc
  have := hacc.counts 0 (by omega)
  rw [h1, h2] at this
  have := Option.some.inj this
  omega

end Fuel.KvPool
