import Fuel.KvPool.Restore

/-!
# The KV block pool: what an eviction reports and a restore undoes

`evict_blocks` detaches exactly the listed slots whose block was referenced
once when the call began; its handle lists them, and remembers the blocks of
the others. From such a handle `restore` gives each detached slot a block of
the free list, all different, and changes no other slot.
-/

namespace Fuel.KvPool

open Fuel Method List KvBlockPool

/-! ## Places of a block -/

variable {pool : KvBlockPool} {t : BlockTable} {i : Nat} {p : PhysBlockId}

theorem residentBlock_eq {s : SessionHandle} (ht : pool.tables.lookup s = some t) (i : Nat)
    (p : PhysBlockId) : pool.residentBlock s i = some p ↔ t.slots[i]? = some (.resident p) := by
  unfold residentBlock
  rw [ht, Option.bind_some]
  rcases t.slots[i]? with _ | q | _ <;> simp

theorem residentBlock_table {s : SessionHandle} (h : pool.residentBlock s i = some p) :
    ∃ t, pool.tables.lookup s = some t ∧ t.slots[i]? = some (.resident p) := by
  cases ht : pool.tables.lookup s with
  | none => simp [residentBlock, ht] at h
  | some t => exact ⟨t, rfl, (residentBlock_eq ht i p).mp h⟩

/-- Two places in one list are two occurrences. -/
theorem two_le_count {l : List Slot} {x : Slot} {j : Nat} (hij : i < j) (hi : l[i]? = some x)
    (hj : l[j]? = some x) : 2 ≤ l.count x := by
  have hjlt : j < l.length := lt_of_getElem? hj
  have hsplit : l.count x = (l.take j).count x + (l.drop j).count x := by
    rw [← count_append, take_append_drop]
  have hleft : 0 < (l.take j).count x := by
    apply count_pos_iff.mpr
    apply mem_of_getElem? (i := i)
    rw [getElem?_take_of_lt hij]
    exact hi
  have hright : 0 < (l.drop j).count x := by
    apply count_pos_iff.mpr
    apply mem_of_getElem? (i := 0)
    rw [getElem?_drop, Nat.add_zero]
    exact hj
  omega

/-- Only one place is at most one occurrence. -/
theorem count_le_one {l : List Slot} {x : Slot} (h : ∀ j, l[j]? = some x → j = i) :
    l.count x ≤ 1 := by
  have hsplit : l = l.take i ++ ((l.drop i).take 1 ++ (l.drop i).drop 1) := by
    rw [take_append_drop, take_append_drop]
  have hbefore : (l.take i).count x = 0 := by
    apply count_eq_zero.mpr
    intro hmem
    obtain ⟨j, hj⟩ := mem_iff_getElem?.mp hmem
    have hji : j < i := by
      have := lt_of_getElem? hj
      rw [length_take] at this
      omega
    rw [getElem?_take_of_lt hji] at hj
    have := h j hj
    omega
  have hafter : ((l.drop i).drop 1).count x = 0 := by
    apply count_eq_zero.mpr
    intro hmem
    obtain ⟨j, hj⟩ := mem_iff_getElem?.mp hmem
    rw [drop_drop, getElem?_drop] at hj
    have := h _ hj
    omega
  have hone : ((l.drop i).take 1).count x ≤ 1 :=
    Nat.le_trans count_le_length (by rw [length_take]; exact Nat.min_le_left _ _)
  rw [hsplit, count_append, count_append]
  omega

section Places

variable {pool : KvBlockPool}

/-- A block in two slots of a session is counted twice. -/
theorem two_le_refcount (hw : Wf pool) {s : SessionHandle} {t : BlockTable}
    (ht : pool.tables.lookup s = some t) {i j : Nat} {p : PhysBlockId} (hij : i ≠ j)
    (hi : t.slots[i]? = some (.resident p)) (hj : t.slots[j]? = some (.resident p)) :
    2 ≤ pool.refcount.getD p 0 := by
  have hcount : 2 ≤ slotRefsIn p t := by
    rcases Nat.lt_or_gt_of_ne hij with hlt | hgt
    · exact two_le_count hlt hi hj
    · exact two_le_count hgt hj hi
  have hle : slotRefsIn p t ≤ pool.slotRefs p := AssocMap.le_total _ ht
  have hrefs := hw.refs p
  omega

/-- A block in one place, and not in the index, is counted once. -/
theorem refcount_le_one (hw : Wf pool) (hindex : pool.isCached p = false) {s : SessionHandle}
    {i : Nat} (h : ∀ s' i', pool.residentBlock s' i' = some p → s' = s ∧ i' = i) :
    pool.refcount.getD p 0 ≤ 1 := by
  have hrefs := hw.refs p
  simp only [indexRefs, hindex, count_nil] at hrefs
  have hother : ∀ s' t, s' ≠ s → pool.tables.lookup s' = some t →
      slotRefsIn p t = 0 := by
    intro s' t hne ht
    apply count_eq_zero.mpr
    intro hmem
    obtain ⟨i', hi'⟩ := mem_iff_getElem?.mp hmem
    exact hne (h s' i' ((residentBlock_eq ht i' p).mpr hi')).1
  have hrefsle : pool.slotRefs p ≤ 1 := by
    cases ht : pool.tables.lookup s with
    | none =>
      have hzero : pool.slotRefs p = 0 := by
        apply AssocMap.total_eq_zero
        intro s' t hlook
        refine hother s' t ?_ hlook
        rintro rfl
        rw [ht] at hlook
        cases hlook
      omega
    | some t =>
      have herase : AssocMap.total (slotRefsIn p) (pool.tables.erase s) = 0 := by
        apply AssocMap.total_eq_zero
        intro s' t' hlook
        obtain ⟨hs, hlook⟩ := AssocMap.lookup_of_erase hlook
        exact hother s' t' hs hlook
      have hsplit : AssocMap.total (slotRefsIn p) (pool.tables.erase s)
          + slotRefsIn p t = pool.slotRefs p := AssocMap.total_erase _ ht
      have hone : slotRefsIn p t ≤ 1 := by
        refine count_le_one (i := i) ?_
        intro i' hi'
        exact (h s i' ((residentBlock_eq ht i' p).mpr hi')).2
      omega
  simp only [Bool.false_eq_true, if_false] at hrefs
  omega

/-- A free block has no place. -/
theorem residentBlock_ne_of_free (hw : Wf pool) {p : PhysBlockId} (hp : p ∈ pool.free)
    (s : SessionHandle) (i : Nat) : pool.residentBlock s i ≠ some p := by
  intro h
  obtain ⟨t, ht, hslot⟩ := residentBlock_table h
  exact hw.not_free_of_pos (hw.slot_pos ht (mem_of_getElem? hslot)) hp

end Places

/-! ## What an eviction reports -/

/-- Slot `i` holds a block that nothing else references. -/
def KvBlockPool.exclusiveAt (pool : KvBlockPool) (t : BlockTable) (i : Nat) : Bool :=
  match t.slots[i]? with
  | some (.resident p) => pool.refcount.getD p 0 == 1
  | _ => false

theorem KvBlockPool.exclusiveAt_iff (h : t.slots[i]? = some (.resident p)) :
    pool.exclusiveAt t i = true ↔ pool.refcount.getD p 0 = 1 := by
  unfold exclusiveAt
  rw [h]
  exact beq_iff_eq

/-- What `evict_blocks` has done after the slots `done` of a table `t`: the
exclusive ones are detached and listed, the blocks of the others remembered. -/
structure Detached (pool : KvBlockPool) (t : BlockTable) (done : List Nat) (r : EvictReport)
    (t' : BlockTable) : Prop where
  freed : r.handle.externalizedSlots = done.filter (pool.exclusiveAt t)
  kept : ∀ e ∈ r.handle.residentSlots,
    t.slots[e.1]? = some (.resident e.2) ∧ pool.exclusiveAt t e.1 = false
  slots : ∀ i, t'.slots[i]?
    = if i ∈ done ∧ pool.exclusiveAt t i = true then some .externalized else t.slots[i]?
  filled : t'.filledTokens = t.filledTokens

theorem Detached.nil (pool : KvBlockPool) (t : BlockTable) :
    Detached pool t [] EvictReport.empty t where
  freed := rfl
  kept := by
    intro e he
    cases he
  slots := by
    intro i
    simp
  filled := rfl

namespace Detached

variable {pool : KvBlockPool} {t t' : BlockTable} {done : List Nat} {r : EvictReport} {i : Nat}

/-- A slot that is not exclusive stays as it is. -/
theorem skip (h : Detached pool t done r t') (hi : pool.exclusiveAt t i = false)
    {r' : EvictReport} (hfreed : r'.handle.externalizedSlots = r.handle.externalizedSlots)
    (hkept : ∀ e ∈ r'.handle.residentSlots, e ∈ r.handle.residentSlots ∨
      (e.1 = i ∧ t.slots[i]? = some (.resident e.2))) :
    Detached pool t (done ++ [i]) r' t' where
  freed := by rw [hfreed, h.freed, filter_append, filter_singleton, hi]; simp
  kept := by
    intro e he
    rcases hkept e he with hold | ⟨rfl, hslot⟩
    · exact h.kept e hold
    · exact ⟨hslot, hi⟩
  slots := by
    intro j
    rw [h.slots j]
    by_cases hj : j = i
    · subst hj
      simp [hi]
    · simp [hj]
  filled := h.filled

/-- An exclusive one is detached. -/
theorem free (h : Detached pool t done r t') (hi : pool.exclusiveAt t i = true)
    (hlt : i < t'.slots.length) : Detached pool t (done ++ [i]) (r.free i)
      { t' with slots := t'.slots.set i .externalized } where
  freed := by
    show r.handle.externalizedSlots ++ [i] = _
    rw [h.freed, filter_append, filter_singleton, hi]
    rfl
  kept := h.kept
  slots := by
    intro j
    rw [getElem?_set]
    by_cases hj : i = j
    · subst hj
      simp [hi, hlt]
    · rw [if_neg hj, h.slots j]
      simp [Ne.symm hj]
  filled := h.filled

end Detached

section Evicting

variable {pool : KvBlockPool} {s : SessionHandle} {t : BlockTable}

theorem validateBlockIndices_run (ht : pool.tables.lookup s = some t) {indices : List Nat}
    (hlt : ∀ i ∈ indices, i < t.slots.length) :
    validateBlockIndices s indices pool = .ok () pool := by
  unfold validateBlockIndices
  rw [bind_run, table_run ht, Outcome.andThen_ok]
  induction indices with
  | nil => rfl
  | cons i rest ih =>
    have hi : ¬ i ≥ t.slots.length := Nat.not_le.mpr (hlt i mem_cons_self)
    rw [forM_cons_run, if_neg hi]
    exact ih fun j hj => hlt j (mem_cons_of_mem _ hj)

/-- The loop of `evict_blocks`, with the counts of the blocks in slots still
to come as they were at the start. -/
structure Evicting (pool : KvBlockPool) (s : SessionHandle) (t : BlockTable) (done : List Nat)
    (r : EvictReport) (pool' : KvBlockPool) (t' : BlockTable) : Prop where
  on : OnSession s t t' pool pool'
  detached : Detached pool t done r t'
  counts : ∀ i p, i ∉ done → t.slots[i]? = some (.resident p) →
    pool'.refcount.getD p 0 = pool.refcount.getD p 0

theorem Evicting.step (hw : Wf pool) {done : List Nat} {r : EvictReport} {pool' : KvBlockPool}
    {t' : BlockTable} (h : Evicting pool s t done r pool' t') {i : Nat} (hnew : i ∉ done)
    (hlt : i < t.slots.length) :
    ∃ r' pool'' t'', evictBlock s false r i pool' = .ok r' pool'' ∧
      Evicting pool s t (done ++ [i]) r' pool'' t'' := by
  have hsame : t'.slots[i]? = t.slots[i]? := by
    rw [h.detached.slots i, if_neg fun hd => hnew hd.1]
  have hlater : ∀ j p, j ∉ done ++ [i] → t.slots[j]? = some (.resident p) →
      pool'.refcount.getD p 0 = pool.refcount.getD p 0 := by
    intro j p hj
    exact h.counts j p fun hd => hj (mem_append_left _ hd)
  have hget := getElem?_eq_getElem hlt
  cases hslot : t.slots[i] with
  | externalized =>
    rw [hslot] at hget
    refine ⟨r, pool', t', evictBlock_externalized h.on.after (hsame.trans hget) false r, h.on,
      h.detached.skip ?_ rfl ?_, hlater⟩
    · simp [exclusiveAt, hget]
    · intro e he
      exact .inl he
  | resident p =>
    rw [hslot] at hget
    have hcount := h.counts i p hnew hget
    by_cases hone : pool.refcount.getD p 0 = 1
    · obtain ⟨pool'', hrun, hon', hset⟩ := evictBlock_exclusive h.on.wf h.on.after
        (hsame.trans hget) (hcount.trans hone) r
      have hlt' : i < t'.slots.length := lt_of_getElem? (hsame.trans hget)
      refine ⟨r.free i, pool'', _, hrun, h.on.trans hon',
        h.detached.free ((exclusiveAt_iff hget).mpr hone) hlt', ?_⟩
      intro j q hj hq
      -- another slot holds another block, since this one is counted once
      have hne : q ≠ p := by
        rintro rfl
        have hji : j ≠ i := by
          rintro rfl
          exact hj (by simp)
        have := two_le_refcount hw h.on.before hji hq hget
        omega
      have hplt := h.on.wf.lt_length (h.on.wf.slot_pos h.on.after
        (mem_of_getElem? (hsame.trans hget)))
      rw [hset, getD_set hplt, if_neg hne]
      exact hlater j q hj hq
    · have hno : ¬ (pool'.refcount.getD p 0 = 1 ∧ (false : Bool) = false) := by
        rw [hcount]
        exact fun hc => hone hc.1
      refine ⟨r.share i p, pool', t', evictBlock_shared h.on.wf h.on.after (hsame.trans hget) hno r,
        h.on, h.detached.skip ?_ rfl ?_, hlater⟩
      · exact Bool.eq_false_iff.mpr fun hc => hone ((exclusiveAt_iff hget).mp hc)
      · intro e he
        rcases mem_append.mp he with hold | hnew
        · exact .inl hold
        · rw [mem_singleton.mp hnew]
          exact .inr ⟨rfl, hget⟩

/-- **An eviction is exact**: of a session that owns no prefix, the listed
slots that were exclusive when the call began are detached, and no other. -/
theorem evictBlocks_exact (hw : Wf pool) (ht : pool.tables.lookup s = some t)
    (howner : pool.isPrefixOwner s = false) {indices : List Nat} (hnodup : indices.Nodup)
    (hlt : ∀ i ∈ indices, i < t.slots.length) :
    ∃ r pool' t', evictBlocks s indices pool = .ok r pool' ∧ OnSession s t t' pool pool' ∧
      Detached pool t indices r t' := by
  obtain ⟨r, pool', hrun, t', hev⟩ := foldlM_returns
    (fun done r pool' => ∃ t', Evicting pool s t done r pool' t') indices
    (f := evictBlock s false) (b := EvictReport.empty) (s := pool)
    (fun done i rest r pool' hl ⟨t', hev⟩ => by
      have hnew : i ∉ done := by
        rw [hl] at hnodup
        intro hin
        exact (nodup_append.mp hnodup).2.2 i hin i (by simp) rfl
      obtain ⟨r', pool'', t'', hrun, hev'⟩ := hev.step hw hnew (hlt i (by simp [hl]))
      exact ⟨r', pool'', hrun, t'', hev'⟩)
    ⟨t, .refl hw ht, .nil pool t, fun _ _ _ _ => rfl⟩
  refine ⟨r, pool', t', ?_, hev.on, hev.detached⟩
  unfold evictBlocks
  rw [bind_run, validateBlockIndices_run ht hlt, Outcome.andThen_ok, bind_run, get_run,
    Outcome.andThen_ok, howner, hrun]

end Evicting

/-! ## What a restore puts back -/

/-- The table after the slots `done` of `t` got the blocks `ps`. -/
structure Refits (t : BlockTable) (done : List Nat) (ps : List PhysBlockId) (t' : BlockTable) :
    Prop where
  count : ps.length = done.length
  slots : ∀ (j : Nat) (q : PhysBlockId), t'.slots[j]? = some (.resident q) ↔
    t.slots[j]? = some (.resident q) ∨ ∃ k : Nat, done[k]? = some j ∧ ps[k]? = some q
  length : t'.slots.length = t.slots.length
  filled : t'.filledTokens = t.filledTokens

theorem Refits.nil (t : BlockTable) : Refits t [] [] t where
  count := rfl
  slots := by
    intro j q
    simp
  length := rfl
  filled := rfl

theorem place_length (hi : i < t.slots.length) (p : PhysBlockId) :
    (t.place i p).slots.length = t.slots.length := by
  unfold BlockTable.place
  simp only [length_set, length_append, length_replicate]
  omega

/-- Writing a block where it already is. -/
theorem place_self (h : t.slots[i]? = some (.resident p)) : t.place i p = t := by
  obtain ⟨hi, hget⟩ := List.getElem?_eq_some_iff.mp h
  have hpad : i + 1 - t.slots.length = 0 := by omega
  unfold BlockTable.place
  rw [hpad, replicate_zero, append_nil, ← hget, set_getElem_self]

/-- One more vacant slot. -/
theorem Refits.place {t' : BlockTable} {done : List Nat} {ps : List PhysBlockId}
    (h : Refits t done ps t') (hi : i < t.slots.length)
    (hvac : ∀ q : PhysBlockId, t.slots[i]? ≠ some (.resident q)) (hnew : i ∉ done) (p : PhysBlockId) :
    Refits t (done ++ [i]) (ps ++ [p]) (t'.place i p) where
  count := by rw [length_append, length_append, h.count]; rfl
  slots := by
    intro j q
    rw [place_slot, h.slots j q]
    constructor
    · rintro (⟨rfl, rfl⟩ | ⟨hj, hold | ⟨k, hk, hq⟩⟩)
      · refine .inr ⟨done.length, by simp, ?_⟩
        rw [← h.count]
        simp
      · exact .inl hold
      · exact .inr ⟨k, getElem?_append_left (lt_of_getElem? hk) ▸ hk,
          getElem?_append_left (lt_of_getElem? hq) ▸ hq⟩
    rintro (hold | ⟨k, hk, hq⟩)
    · refine .inr ⟨?_, .inl hold⟩
      rintro rfl
      exact hvac q hold
    rcases Nat.lt_or_ge k done.length with hlt | hge
    · rw [getElem?_append_left hlt] at hk
      rw [getElem?_append_left (by rw [h.count]; exact hlt)] at hq
      refine .inr ⟨?_, .inr ⟨k, hk, hq⟩⟩
      rintro rfl
      exact hnew (mem_of_getElem? hk)
    · have hk' := lt_of_getElem? hk
      rw [length_append, length_singleton] at hk'
      obtain rfl : k = done.length := by omega
      rw [getElem?_append_right (Nat.le_refl _), Nat.sub_self] at hk
      rw [getElem?_append_right (by rw [h.count]), h.count, Nat.sub_self] at hq
      simp only [getElem?_cons_zero, Option.some.injEq] at hk hq
      exact .inl ⟨hk.symm, hq.symm⟩
  length := by rw [place_length (by rw [h.length]; exact hi), h.length]
  filled := h.filled

section Restoring

variable {pool : KvBlockPool} {s : SessionHandle} {t : BlockTable}

/-- A handle that still describes its session: the slots it detached are
distinct and away, the blocks it remembers are in their slots. -/
structure Describes (t : BlockTable) (h : Externalized) : Prop where
  distinct : h.externalizedSlots.Nodup
  away : ∀ i ∈ h.externalizedSlots, t.slots[i]? = some .externalized
  backed : ∀ e ∈ h.residentSlots, t.slots[e.1]? = some (.resident e.2)

/-- The handle of an eviction describes the table it left. -/
theorem Detached.describes {indices : List Nat} {r : EvictReport} {t' : BlockTable}
    (h : Detached pool t indices r t') (hnodup : indices.Nodup) : Describes t' r.handle where
  distinct := by
    rw [h.freed]
    exact hnodup.filter _
  away := by
    intro i hi
    rw [h.freed, mem_filter] at hi
    rw [h.slots i, if_pos hi]
  backed := by
    intro e he
    obtain ⟨hslot, hshared⟩ := h.kept e he
    rw [h.slots e.1, if_neg (by simp [hshared])]
    exact hslot

variable (hw : Wf pool) (ht : pool.tables.lookup s = some t)

include hw ht

/-- The first loop of `restore`: fresh blocks, one after the other. -/
theorem restoreSlots_exact {slots : List Nat} (hnodup : slots.Nodup)
    (haway : ∀ i ∈ slots, t.slots[i]? = some .externalized)
    (hroom : slots.length ≤ pool.free.length) :
    ∃ pool' t' ps, (forM slots fun i => restoreSlot s i) pool = .ok ⟨⟩ pool' ∧
      OnSession s t t' pool pool' ∧ Refits t slots ps t' ∧
      pool.free = pool'.free ++ ps.reverse := by
  obtain ⟨pool', hrun, t', ps, hon, hfit, htaken⟩ := forM_returns (f := fun i => restoreSlot s i)
    (fun done pool' => ∃ t' ps, OnSession s t t' pool pool' ∧ Refits t done ps t' ∧
      pool.free = pool'.free ++ ps.reverse) slots
    (fun done i rest pool' hl ⟨t', ps, hon, hfit, htaken⟩ => by
      have hfree := congrArg List.length htaken
      rw [length_append, length_reverse, hfit.count] at hfree
      have hlen := congrArg List.length hl
      rw [length_append, length_cons] at hlen
      have hne : pool'.free ≠ [] := ne_nil_of_length_pos (by omega)
      have hnew : i ∉ done := by
        rw [hl] at hnodup
        intro hin
        exact (nodup_append.mp hnodup).2.2 i hin i (by simp) rfl
      have hi := haway i (by simp [hl])
      have hvac : ∀ q : PhysBlockId, t.slots[i]? ≠ some (.resident q) := by
        intro q hq
        rw [hi] at hq
        cases hq
      have hvac' : ∀ q : PhysBlockId, t'.slots[i]? ≠ some (.resident q) := by
        intro q hq
        rcases (hfit.slots i q).mp hq with hold | ⟨k, hk, -⟩
        · exact hvac q hold
        · exact hnew (mem_of_getElem? hk)
      obtain ⟨pool'', hrun, hdrop, hon'⟩ := restoreSlot_returns hon.wf hon.after hvac'
        (dropLast_append_getLast hne).symm
      refine ⟨pool'', hrun, _, ps ++ [pool'.free.getLast hne], hon.trans hon',
        hfit.place (lt_of_getElem? hi) hvac hnew _, ?_⟩
      rw [hdrop, reverse_append, reverse_singleton, ← List.append_assoc,
        dropLast_append_getLast hne]
      exact htaken)
    (s := pool) ⟨t, [], .refl hw ht, .nil t, by simp⟩
  exact ⟨pool', t', ps, hrun, hon, hfit, htaken⟩

/-- The second loop writes blocks where they are. -/
theorem replaceSlots_exact {slots : List (Nat × PhysBlockId)}
    (hb : ∀ e ∈ slots, t.slots[e.1]? = some (.resident e.2)) :
    ∃ pool', (forM slots fun e => placeResidentSlot s e.1 e.2) pool = .ok ⟨⟩ pool' ∧
      OnSession s t t pool pool' ∧ pool'.free = pool.free := by
  obtain ⟨pool', hrun, hon, hfree⟩ := forM_returns
    (f := fun e : Nat × PhysBlockId => placeResidentSlot s e.1 e.2)
    (fun _ pool' => OnSession s t t pool pool' ∧ pool'.free = pool.free) slots
    (fun done e rest pool' hl ⟨hon, hfree⟩ => by
      have hself := place_self (hb e (by simp [hl]))
      have hretable := hon.wf.retable [] hon.after t fun x => rfl
      refine ⟨_, tableMut_run hon.after _, ?_, hfree⟩
      rw [hself]
      exact hon.trans (.of_insert hon.after hretable))
    (s := pool) ⟨.refl hw ht, rfl⟩
  exact ⟨pool', hrun, hon, hfree⟩

/-- **A restore is exact** for a handle that describes its session: it is
refused for want of blocks and changes nothing, or gives each detached slot a
block of the free list. -/
theorem restore_exact {h : Externalized} (hdesc : Describes t h) :
    (restore s h pool = .err (.outOfBlocks h.externalizedSlots.length pool.free.length) pool) ∨
    ∃ pool' t' ps, restore s h pool = .ok () pool' ∧ OnSession s t t' pool pool' ∧
      Refits t h.externalizedSlots ps t' ∧ pool.free = pool'.free ++ ps.reverse := by
  by_cases hroom : h.externalizedSlots.length > pool.free.length
  · left
    simp only [restore, bind_run, get_run, Outcome.andThen_ok, ht, okOr_some, pure_run,
      if_pos hroom, fail_run]
  right
  obtain ⟨pool₁, t₁, ps, hrun₁, hon₁, hfit, htaken⟩ := restoreSlots_exact hw ht hdesc.distinct
    hdesc.away (Nat.not_lt.mp hroom)
  have hbacked : ∀ e ∈ h.residentSlots, t₁.slots[e.1]? = some (.resident e.2) := by
    intro e he
    exact (hfit.slots e.1 e.2).mpr (.inl (hdesc.backed e he))
  obtain ⟨pool₂, hrun₂, hon₂, hfree⟩ := replaceSlots_exact hon₁.wf hon₁.after hbacked
  refine ⟨pool₂, t₁, ps, ?_, hon₁.trans hon₂, hfit, by rw [hfree]; exact htaken⟩
  simp only [restore, bind_run, get_run, Outcome.andThen_ok, ht, okOr_some, pure_run,
    if_neg hroom, hrun₁, hrun₂]

end Restoring

end Fuel.KvPool
