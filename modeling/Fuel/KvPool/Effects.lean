import Fuel.KvPool.Accounting

/-!
# The KV block pool: what each operation does

One theorem per operation, with overflow checks, from a pool whose counts are
exact (`Wf`): the call returns with the effect named here, or refuses and changes nothing, or
aborts in the arithmetic on the caller's numbers (`AllOrNothing`). No index
is out of bounds, no decrement underflows and no `?` inside a loop fires,
because the checks made before the first write are enough.

Most operations write one session's table, the free list and the counts:
`OnSession s t t' pool pool'` says that this is all, with `t` the table of
`s` before and `t'` after.
-/

namespace Fuel.KvPool

open Fuel Method List

/-! ## Frames -/

/-- Everything but the free list, the counts and the tables is the same. -/
def SameRest (pool pool' : KvBlockPool) : Prop :=
  { pool with free := [], refcount := [], tables := ∅ }
    = { pool' with free := [], refcount := [], tables := ∅ }

namespace SameRest

variable {pool pool' pool'' : KvBlockPool}

theorem refl (pool : KvBlockPool) : SameRest pool pool := rfl

variable (h : SameRest pool pool')

include h

theorem trans (h' : SameRest pool' pool'') : SameRest pool pool'' :=
  Eq.trans h h'

theorem geom : pool'.geom = pool.geom :=
  (congrArg KvBlockPool.geom h).symm

theorem nextSession : pool'.nextSession = pool.nextSession :=
  (congrArg KvBlockPool.nextSession h).symm

theorem prefixes : pool'.prefixes = pool.prefixes :=
  (congrArg KvBlockPool.prefixes h).symm

theorem nextPrefix : pool'.nextPrefix = pool.nextPrefix :=
  (congrArg KvBlockPool.nextPrefix h).symm

theorem cached : pool'.cached = pool.cached :=
  (congrArg KvBlockPool.cached h).symm

theorem cachedByBlock : pool'.cachedByBlock = pool.cachedByBlock :=
  (congrArg KvBlockPool.cachedByBlock h).symm

theorem tick : pool'.tick = pool.tick :=
  (congrArg KvBlockPool.tick h).symm

end SameRest

/-- The call changed `s`'s table from `t` to `t'`, with the counts exact
again afterwards, and left every other session's table as it was. -/
structure OnSession (s : SessionHandle) (t t' : BlockTable) (pool pool' : KvBlockPool) :
    Prop where
  wf : Wf pool'
  rest : SameRest pool pool'
  before : pool.tables.lookup s = some t
  after : pool'.tables.lookup s = some t'
  others : ∀ s', s' ≠ s → pool'.tables.lookup s' = pool.tables.lookup s'

namespace OnSession

variable {s : SessionHandle} {t t' t'' : BlockTable} {pool pool' pool'' : KvBlockPool}

theorem refl (hw : Wf pool) (ht : pool.tables.lookup s = some t) :
    OnSession s t t pool pool :=
  ⟨hw, .refl pool, ht, ht, fun _ _ => rfl⟩

theorem trans (h : OnSession s t t' pool pool') (h' : OnSession s t' t'' pool' pool'') :
    OnSession s t t'' pool pool'' :=
  ⟨h'.wf, h.rest.trans h'.rest, h.before, h'.after,
    fun s' hs => (h'.others s' hs).trans (h.others s' hs)⟩

/-- The common last step: `pool'` is `pool` with new counts and free list,
and with `t'` stored for `s`. -/
theorem of_insert (ht : pool.tables.lookup s = some t) {free : List PhysBlockId}
    {refcount : List Nat}
    (hw : Wf { pool with free := free, refcount := refcount,
                         tables := pool.tables.insert s t' }) :
    OnSession s t t' pool
      { pool with free := free, refcount := refcount, tables := pool.tables.insert s t' } :=
  ⟨hw, rfl, ht, by simp, fun s' hs => by simp [hs]⟩

end OnSession

/-! ## The primitive accesses -/

section Primitives

variable {pool : KvBlockPool} {s : SessionHandle} {t : BlockTable} {p : PhysBlockId}

theorem table_reads (s : SessionHandle) (pool : KvBlockPool) :
    (table s pool).AllOrNothing pool fun t pool' =>
      pool' = pool ∧ pool.tables.lookup s = some t := by
  exact okOr_reads _ _ pool

variable (ht : pool.tables.lookup s = some t)

include ht

@[simp] theorem table_run : table s pool = .ok t pool := by
  simp [table, ht]

@[simp] theorem tableMut_run (f : BlockTable → BlockTable) :
    tableMut s f pool = .ok () { pool with tables := pool.tables.insert s (f t) } := by
  simp [tableMut, ht]

omit ht

@[simp] theorem refcountAt_run (hp : p < pool.refcount.length) :
    refcountAt p pool = .ok (pool.refcount.getD p 0) pool := by
  simp [refcountAt, index_of_lt hp, getD_eq_getElem?_getD, hp]

@[simp] theorem setRefcount_run (hp : p < pool.refcount.length) (n : Nat) :
    setRefcount p n pool = .ok () { pool with refcount := pool.refcount.set p n } := by
  simp [setRefcount, hp]

@[simp] theorem takeFree_run {fs : List PhysBlockId} (hf : pool.free = fs ++ [p]) :
    takeFree pool = .ok p { pool with free := fs } := by
  simp [takeFree, hf]

theorem AccountsFor.lt_length {q : List Slot} (h : AccountsFor q pool)
    (hp : 0 < pool.refcount.getD p 0) : p < pool.refcount.length := by
  rw [h.len]
  exact h.lt_of_pos hp

theorem slotRefsIn_append (t : BlockTable) (p x : PhysBlockId) :
    KvBlockPool.slotRefsIn x { t with slots := t.slots ++ [.resident p] }
      = KvBlockPool.slotRefsIn x t + [Slot.resident p].count (.resident x) := by
  simp [KvBlockPool.slotRefsIn, count_append]

/-- A fresh block at the end of a table. -/
theorem allocSlot_returns (h : Wf pool) (ht : pool.tables.lookup s = some t)
    {fs : List PhysBlockId} (hf : pool.free = fs ++ [p]) :
    ∃ pool', allocSlot s pool = .ok p pool' ∧ pool'.free = fs ∧
      OnSession s t { t with slots := t.slots ++ [.resident p] } pool pool' := by
  have hlt : p < pool.refcount.length := by
    rw [h.len]
    exact h.freeLt p (by simp [hf])
  have hm := (h.mint hf).retable [] ht { t with slots := t.slots ++ [.resident p] }
    (fun x => by rw [slotRefsIn_append]; simp)
  refine ⟨{ pool with
    free := fs
    refcount := pool.refcount.set p 1
    tables := pool.tables.insert s { t with slots := t.slots ++ [.resident p] } },
    ?_, rfl, .of_insert ht hm⟩
  simp [allocSlot, takeFree_run hf, setRefcount, hlt, pushSlot, tableMut, ht]

/-- One more reference to a counted block, at the end of a table, unless the count is full. -/
theorem shareSlot_cases (h : Wf pool) (ht : pool.tables.lookup s = some t)
    (hp : 0 < pool.refcount.getD p 0) :
    (∃ pool', shareSlot .debug s p pool = .ok () pool' ∧ pool'.free = pool.free ∧
      pool'.refcount = pool.refcount.set p (pool.refcount.getD p 0 + 1) ∧
      OnSession s t { t with slots := t.slots ++ [.resident p] } pool pool') ∨
    shareSlot .debug s p pool = .abort .addOverflow := by
  have hlt := h.lt_length hp
  by_cases hfits : pool.refcount.getD p 0 + 1 < 2 ^ 32
  · have hm := (h.bump hp).retable [] ht { t with slots := t.slots ++ [.resident p] }
      (fun x => by rw [slotRefsIn_append]; simp)
    refine .inl ⟨{ pool with
      refcount := pool.refcount.set p (pool.refcount.getD p 0 + 1)
      tables := pool.tables.insert s { t with slots := t.slots ++ [.resident p] } },
      ?_, rfl, rfl, .of_insert ht hm⟩
    simp only [shareSlot, bind_run, refcountAt_run hlt, Outcome.andThen_ok, addU32In, if_pos hfits,
      pure_run, setRefcount_run hlt]
    simp [pushSlot, tableMut, ht]
  · right
    simp only [shareSlot, bind_run, refcountAt_run hlt, Outcome.andThen_ok, addU32In, if_neg hfits,
      abort_run, Outcome.andThen_abort]

/-- A pending reference is given up. -/
theorem dropRef_returns {q : List Slot} (h : AccountsFor (.resident p :: q) pool) :
    ∃ pool', dropRef .debug p pool = .ok () pool' ∧ AccountsFor q pool' ∧
      SameRest pool pool' ∧ pool'.tables = pool.tables := by
  have hp := h.refs p
  rw [count_cons_self] at hp
  have hpos : 0 < pool.refcount.getD p 0 := by omega
  have hpos1 : 1 ≤ pool.refcount.getD p 0 := hpos
  have hlt := h.lt_length hpos
  have hd := h.drop
  by_cases hz : pool.refcount.getD p 0 - 1 = 0
  · rw [if_pos hz] at hd
    refine ⟨_, ?_, hd, rfl, rfl⟩
    simp only [dropRef, bind_run, refcountAt_run hlt, Outcome.andThen_ok, subU32In,
      if_pos hpos1, pure_run, setRefcount_run hlt, if_pos hz, pushFree, get_run, set_run]
  · rw [if_neg hz] at hd
    refine ⟨_, ?_, hd, rfl, rfl⟩
    simp only [dropRef, bind_run, refcountAt_run hlt, Outcome.andThen_ok, subU32In,
      if_pos hpos1, pure_run, setRefcount_run hlt, if_neg hz]

end Primitives

/-! ## Growing a table -/

/-- `t` with `ps` at its end and a new fill level. -/
def BlockTable.extend (t : BlockTable) (ps : List PhysBlockId) (fill : Nat) : BlockTable :=
  ⟨t.slots ++ ps.map .resident, fill⟩

@[simp] theorem BlockTable.extend_nil (t : BlockTable) : t.extend [] t.filledTokens = t := by
  simp [BlockTable.extend]

theorem BlockTable.extend_snoc (t : BlockTable) (ps : List PhysBlockId) (p : PhysBlockId)
    (fill : Nat) :
    { t.extend ps fill with slots := (t.extend ps fill).slots ++ [.resident p] }
      = t.extend (ps ++ [p]) fill := by
  simp [BlockTable.extend]

section Loops

variable {pool pool' : KvBlockPool} {s : SessionHandle} {t t' : BlockTable}

/-- Storing a fill level moves no reference. -/
theorem OnSession.fill (h : OnSession s t t' pool pool') (n : Nat) :
    OnSession s t { t' with filledTokens := n } pool
      { pool' with tables := pool'.tables.insert s { t' with filledTokens := n } } :=
  h.trans (.of_insert h.after (h.wf.retable [] h.after { t' with filledTokens := n }
    fun _ => rfl))

/-- `ps` came off the end of the free list, one by one, onto the end of
`s`'s table. -/
structure Allocated (s : SessionHandle) (t : BlockTable) (ps : List PhysBlockId)
    (pool pool' : KvBlockPool) : Prop
    extends OnSession s t (t.extend ps t.filledTokens) pool pool' where
  taken : pool.free = pool'.free ++ ps.reverse

theorem Allocated.nil (hw : Wf pool) (ht : pool.tables.lookup s = some t) :
    Allocated s t [] pool pool :=
  ⟨by simpa using OnSession.refl hw ht, by simp⟩

/-- As long as blocks are left, the loop body of an allocation returns. -/
theorem Allocated.next {ps : List PhysBlockId} (h : Allocated s t ps pool pool')
    (hn : ps.length < pool.free.length) :
    ∃ p pool'', allocSlot s pool' = .ok p pool'' ∧ Allocated s t (ps ++ [p]) pool pool'' := by
  have hne : pool'.free ≠ [] := by
    intro hnil
    rw [h.taken, hnil] at hn
    simp at hn
  have hf := (dropLast_append_getLast hne).symm
  obtain ⟨pool'', hrun, hfree, ho⟩ := allocSlot_returns h.wf h.after hf
  rw [BlockTable.extend_snoc] at ho
  refine ⟨_, pool'', hrun, h.toOnSession.trans ho, ?_⟩
  rw [h.taken, hfree, reverse_append, reverse_singleton, ← List.append_assoc, ← hf]

variable (hw : Wf pool) (ht : pool.tables.lookup s = some t)

include hw ht

/-- The allocation loop of `append`. -/
theorem allocSlots_return {n : Nat} (hn : n ≤ pool.free.length) :
    ∃ pool' ps, (forM (List.range n) fun _ => do let _ ← allocSlot s; pure ()) pool
        = .ok ⟨⟩ pool' ∧ ps.length = n ∧ Allocated s t ps pool pool' := by
  have hloop := forM_returns (f := fun _ : Nat => do let _ ← allocSlot s; pure ())
    (fun done pool' => ∃ ps, ps.length = done.length ∧ Allocated s t ps pool pool')
    (List.range n) ?_ ⟨[], rfl, .nil hw ht⟩
  · obtain ⟨pool', hrun, ps, hlen, ha⟩ := hloop
    exact ⟨pool', ps, hrun, by simpa using hlen, ha⟩
  · rintro done a rest pool' hl ⟨ps, hlen, ha⟩
    have hlt : ps.length < pool.free.length := by
      have := congrArg List.length hl
      simp at this
      omega
    obtain ⟨p, pool'', hrun, ha'⟩ := ha.next hlt
    exact ⟨pool'', by simp [hrun], ps ++ [p], by simp [hlen], ha'⟩

/-- The allocation loop of `alloc_shifted_prefix_slots`, which also pairs
each fresh block with its source. -/
theorem allocPairs_return (src : List PhysBlockId)
    (hn : src.length ≤ pool.free.length) :
    ∃ pool' ps, (src.foldlM (fun pairs p => do
        let fresh ← allocSlot s
        pure (pairs ++ [(p, fresh)])) []) pool = .ok (src.zip ps) pool' ∧
      ps.length = src.length ∧ Allocated s t ps pool pool' := by
  have hloop := foldlM_returns
    (f := fun (pairs : List (PhysBlockId × PhysBlockId)) p => do
      let fresh ← allocSlot s
      pure (pairs ++ [(p, fresh)]))
    (fun done pairs pool' => ∃ ps, ps.length = done.length ∧ pairs = done.zip ps ∧
      Allocated s t ps pool pool') src ?_ ⟨[], rfl, rfl, .nil hw ht⟩
  · obtain ⟨pairs, pool', hrun, ps, hlen, rfl, ha⟩ := hloop
    exact ⟨pool', ps, hrun, hlen, ha⟩
  rintro done a rest pairs pool' hl ⟨ps, hlen, rfl, ha⟩
  have hlt : ps.length < pool.free.length := by
    have := congrArg List.length hl
    simp at this
    omega
  obtain ⟨p, pool'', hrun, ha'⟩ := ha.next hlt
  refine ⟨done.zip ps ++ [(a, p)], pool'', by simp [hrun], ps ++ [p], by simp [hlen], ?_, ha'⟩
  rw [zip_append hlen.symm]
  rfl

/-- Each of `ps` got one more reference, from the end of `dst`'s table; no
block changed hands with the free list. -/
structure Shared (dst : SessionHandle) (t : BlockTable) (ps : List PhysBlockId)
    (pool pool' : KvBlockPool) : Prop
    extends OnSession dst t (t.extend ps t.filledTokens) pool pool' where
  free : pool'.free = pool.free
  grew : ∀ p, pool.refcount.getD p 0 ≤ pool'.refcount.getD p 0

/-- The sharing loop of `splice` and `splice_cached_chain`. -/
theorem shareSlots_spec {ps : List PhysBlockId}
    (hp : ∀ p ∈ ps, 0 < pool.refcount.getD p 0) :
    ((forM ps fun p => shareSlot .debug s p) pool).UnlessOverflow fun _ pool' =>
      Shared s t ps pool pool' := by
  refine forM_unlessOverflow (fun done pool' => Shared s t done pool pool') ps ?_
    ⟨by simpa using OnSession.refl hw ht, rfl, fun _ => Nat.le_refl _⟩
  intro done p rest pool' hl h
  have hpos : 0 < pool'.refcount.getD p 0 :=
    Nat.lt_of_lt_of_le (hp p (by simp [hl])) (h.grew p)
  rcases shareSlot_cases h.wf h.after hpos with ⟨pool'', hrun, hfree, hrc, ho⟩ | hrun
  · rw [BlockTable.extend_snoc] at ho
    rw [hrun]
    refine .ok ⟨h.toOnSession.trans ho, hfree.trans h.free, fun x => ?_⟩
    have hx := h.grew x
    rw [hrc, getD_set (h.wf.lt_length hpos)]
    split
    · rename_i hxp
      subst hxp
      omega
    · exact hx
  · rw [hrun]
    exact .overflow (.inl rfl)

omit hw ht in
/-- The teardown loop of `discard`. -/
theorem dropSlots_return {slots : List Slot} (h : AccountsFor slots pool) :
    ∃ pool', (forM slots (dropSlot .debug)) pool = .ok ⟨⟩ pool' ∧
      Wf pool' ∧ SameRest pool pool' ∧ pool'.tables = pool.tables := by
  -- the slots still to come are the pending references
  have hloop := forM_returns (f := dropSlot .debug)
    (fun done pool' => ∀ rest, slots = done ++ rest →
      AccountsFor rest pool' ∧ SameRest pool pool' ∧ pool'.tables = pool.tables)
    slots ?_ (s := pool) (fun rest hl => ⟨by simpa [hl] using h, .refl _, rfl⟩)
  · obtain ⟨pool', hrun, hpost⟩ := hloop
    exact ⟨pool', hrun, hpost [] (by simp)⟩
  intro done slot rest pool' hl hpost
  obtain ⟨ha, hr, htab⟩ := hpost _ hl
  have hrest : ∀ rest', slots = (done ++ [slot]) ++ rest' → rest' = rest := by
    intro rest' hl'
    rw [hl, List.append_assoc] at hl'
    simpa using (append_cancel_left hl').symm
  cases slot with
  | resident p =>
    obtain ⟨pool'', hrun, ha', hr', htab'⟩ := dropRef_returns ha
    refine ⟨pool'', hrun, fun rest' hl' => ?_⟩
    rw [hrest rest' hl']
    exact ⟨ha', hr.trans hr', htab'.trans htab⟩
  | externalized =>
    refine ⟨pool', rfl, fun rest' hl' => ?_⟩
    rw [hrest rest' hl']
    exact ⟨ha.repending _ fun p => by simp, hr, htab⟩

end Loops

end Fuel.KvPool
