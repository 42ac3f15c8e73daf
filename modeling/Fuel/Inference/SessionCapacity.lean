import Fuel.Inference.SessionScheduler
import Fuel.KvPool.Counting
import Fuel.KvPool.Admission
import Fuel.Lib.Lists

/-!
# The session scheduler: reservations

A session reserves the blocks of its prompt and its budget when it is
admitted and gives them back when it is reaped. `Sound` is the phase machine of
one session: how far its cache is, and that the tokens it still may sample fit
into the length it was admitted with. `Ledger` compares the pool with the
sessions that are there.
-/

namespace Fuel.Inference

open Fuel Method KvPool List SessionState SessionScheduler

variable {K L P : Type}

/-! ## One session -/

/-- The session keeps within the length of its cache. -/
structure SessionState.Sound (s : SessionState K L P) : Prop where
  budget : s.tokens.length + s.remaining = s.maxSeqLen
  prefill : s.phase = .prefill → s.cachedLen = 0 ∧ 0 < s.remaining
  decode : s.phase = .decode → s.cachedLen + 1 = s.tokens.length ∧ 0 < s.remaining
  finished : s.phase = .finished → s.cachedLen + 1 ≤ s.maxSeqLen

/-- What a visit may do to a session. -/
structure SessionState.Served (s s' : SessionState K L P) : Prop where
  id : s'.id = s.id
  maxSeqLen : s'.maxSeqLen = s.maxSeqLen
  sound : s.Sound → s'.Sound

namespace SessionState

variable {s : SessionState K L P} {model : DecodeModel K L P}

theorem Served.refl (s : SessionState K L P) : s.Served s := ⟨rfl, rfl, fun h => h⟩

theorem Served.trans {s s' s'' : SessionState K L P} (h : s.Served s') (h' : s'.Served s'') :
    s.Served s'' :=
  ⟨h'.id.trans h.id, h'.maxSeqLen.trans h.maxSeqLen, fun hs => h'.sound (h.sound hs)⟩

theorem Sound.cachedLen_lt (h : s.Sound) : s.cachedLen + 1 ≤ s.maxSeqLen := by
  have hb := h.budget
  cases hp : s.phase with
  | prefill =>
    have := h.prefill hp
    omega
  | decode =>
    have := h.decode hp
    omega
  | finished => exact h.finished hp

/-- Before a token is sampled: its logits are there, and the cache holds every token. -/
structure Pending (s : SessionState K L P) : Prop where
  budget : s.tokens.length + s.remaining = s.maxSeqLen
  cached : s.cachedLen = s.tokens.length
  room : 0 < s.remaining
  decoding : s.phase = .decode
  logits : s.lastLogits.isSome

/-- A session whose forward failed has cached no more than it had. -/
theorem finalize_error (hb : s.tokens.length + s.remaining = s.maxSeqLen)
    (hc : s.cachedLen + 1 ≤ s.maxSeqLen) (msg : String) :
    (s.finalize model (.error msg)).1.Sound where
  budget := hb
  prefill := by
    intro h
    cases h
  decode := by
    intro h
    cases h
  finished := fun _ => hc

theorem finalize_id (advance : Except String Unit) :
    (s.finalize model advance).1.id = s.id := by
  show (s.toSessionCore.finalizeAdvance model.sampleNext advance).1.id = s.id
  cases advance with
  | error msg => rfl
  | ok a =>
    have hsampled := SessionCore.finalizeAdvance_ok model.sampleNext s.toSessionCore
    generalize s.toSessionCore.finalizeAdvance model.sampleNext (.ok ()) = r at hsampled
    cases hsampled with
    | idle h => rfl
    | token logits next rng hf hl hr => rfl
    | failed logits msg rng hf hl hr => rfl

/-- A visit whose forward failed. -/
theorem served_error {s' : SessionState K L P} (hid : s'.id = s.id)
    (hlen : s'.maxSeqLen = s.maxSeqLen) {msg : String} (h : s.Sound →
      s'.tokens.length + s'.remaining = s'.maxSeqLen ∧ s'.cachedLen + 1 ≤ s'.maxSeqLen) :
    s.Served (s'.finalize model (.error msg)).1 :=
  ⟨(finalize_id _).trans hid, hlen, fun hs => finalize_error (h hs).1 (h hs).2 msg⟩

/-- Sampling takes one token of the budget, or finishes the session. -/
theorem Pending.finalize (h : s.Pending) : (s.finalize model (.ok ())).1.Sound := by
  have hb := h.budget
  have hc := h.cached
  have hr := h.room
  have hsampled := SessionCore.finalizeAdvance_ok model.sampleNext s.toSessionCore
  unfold SessionState.finalize
  generalize s.toSessionCore.finalizeAdvance model.sampleNext (.ok ()) = r at hsampled
  cases hsampled with
  | idle hidle =>
    rcases hidle with hf | hl
    · rw [h.decoding] at hf
      cases hf
    · have := h.logits
      rw [hl] at this
      cases this
  | failed logits msg rng hf hl hr =>
    refine ⟨hb, ?_, ?_, ?_⟩
    · intro hp
      cases hp
    · intro hp
      cases hp
    · intro _
      show s.cachedLen + 1 ≤ s.maxSeqLen
      omega
  | token logits next rng hf hl hr =>
    refine ⟨?_, ?_, ?_, ?_⟩
    · show (s.tokens ++ [next]).length + (s.remaining - 1) = s.maxSeqLen
      rw [length_append, length_singleton]
      omega
    · intro hp
      rcases SessionCore.push_phase _ next with ⟨-, hphase⟩ | ⟨-, hphase⟩
      · rw [hphase] at hp
        cases hp
      · rw [hphase] at hp
        cases hp
    · intro hp
      show s.cachedLen + 1 = (s.tokens ++ [next]).length ∧ 0 < s.remaining - 1
      rcases SessionCore.push_phase _ next with ⟨-, hphase⟩ | ⟨hstop, -⟩
      · rw [hphase] at hp
        cases hp
      · have hleft : 0 < s.remaining - 1 := SessionCore.remaining_of_not_stops hstop
        rw [length_append, length_singleton]
        omega
    · intro _
      show s.cachedLen + 1 ≤ s.maxSeqLen
      omega

variable {input : List UInt32} {cache : K}

theorem forwardAndStore_ok {logits : L} (h : model.forward input s.cache = (.ok logits, cache)) :
    s.forwardAndStore model input = (.ok (), { s with
      cache := cache, cachedLen := s.cachedLen + input.length, lastLogits := some logits }) := by
  simp only [forwardAndStore, h]

theorem forwardAndStore_error {msg : String} (h : model.forward input s.cache = (.error msg, cache)) :
    s.forwardAndStore model input = (.error msg, { s with cache := cache }) := by
  simp only [forwardAndStore, h]

theorem prefill_served : s.Served (s.prefill model).1 := by
  unfold prefill
  by_cases hp : s.phase = .prefill
  · rw [if_neg (not_not.mpr hp)]
    rcases hfwd : model.forward s.tokens s.cache with ⟨r, cache⟩
    cases r with
    | error msg =>
      rw [forwardAndStore_error hfwd]
      exact served_error (by rfl) (by rfl) fun hs => ⟨hs.budget, hs.cachedLen_lt⟩
    | ok logits =>
      rw [forwardAndStore_ok hfwd]
      refine ⟨finalize_id _, rfl, ?_⟩
      intro hs
      have hstart := hs.prefill hp
      apply Pending.finalize
      refine ⟨hs.budget, ?_, hstart.2, rfl, rfl⟩
      show s.cachedLen + s.tokens.length = s.tokens.length
      omega
  · rw [if_pos hp]
    exact Served.refl s

variable (hp : s.phase = .decode) (write : K → K)

include hp

theorem serialAdvance_served : s.Served (s.serialAdvance model).1 := by
  unfold serialAdvance
  cases hlast : s.tokens.getLast? with
  | none => exact served_error (by rfl) (by rfl) fun hs => ⟨hs.budget, hs.cachedLen_lt⟩
  | some t =>
    rcases hfwd : model.forward [t] s.cache with ⟨r, cache⟩
    cases r with
    | error msg =>
      simp only [forwardAndStore_error hfwd]
      exact served_error (by rfl) (by rfl) fun hs => ⟨hs.budget, hs.cachedLen_lt⟩
    | ok logits =>
      simp only [forwardAndStore_ok hfwd]
      refine ⟨finalize_id _, rfl, ?_⟩
      intro hs
      have hdec := hs.decode hp
      exact Pending.finalize ⟨hs.budget, hdec.1, hdec.2, hp, rfl⟩

theorem batchAdvance_served (row : L) :
    s.Served (s.batchAdvance model write row).1 := by
  refine ⟨finalize_id _, rfl, ?_⟩
  intro hs
  have hdec := hs.decode hp
  exact Pending.finalize ⟨hs.budget, hdec.1, hdec.2, hp, rfl⟩

theorem batchMalformed_served (msg : String) :
    s.Served (s.batchMalformed model write msg).1 := by
  refine served_error (by rfl) (by rfl) fun hs => ⟨hs.budget, ?_⟩
  have hdec := hs.decode hp
  have hb := hs.budget
  show s.cachedLen + 1 + 1 ≤ s.maxSeqLen
  omega

omit hp

theorem batchFailed_served (msg : String) :
    s.Served (s.batchFailed model write msg).1 :=
  served_error (by rfl) (by rfl) fun hs => ⟨hs.budget, hs.cachedLen_lt⟩

end SessionState

/-! ## A step serves each session -/

open SessionState

variable {i : Nat} {q : Quantum K L P} {v : Visit K L P}

/-- The sessions before and after. -/
abbrev AllServed (l l' : List (SessionState K L P)) : Prop := List.Forall₂ Served l l'

theorem AllServed.refl (l : List (SessionState K L P)) : AllServed l l :=
  List.forall₂_same.mpr fun s _ => Served.refl s

theorem AllServed.trans {l l' l'' : List (SessionState K L P)} (h : AllServed l l')
    (h' : AllServed l' l'') : AllServed l l'' :=
  forall₂_comp (fun _ _ _ hab hbc => hab.trans hbc) h h'

theorem visit_served (h : ∀ s, q.sessions[v.1]? = some s → s.Served (v.2 s).1) :
    AllServed q.sessions (q.visit v.2 v.1).sessions := by
  unfold Quantum.visit
  cases hs : q.sessions[v.1]? with
  | none => exact .refl _
  | some s => exact forall₂_set Served.refl hs (h s hs)

theorem visit_other (hi : i ≠ v.1) : (q.visit v.2 v.1).sessions[i]? = q.sessions[i]? := by
  unfold Quantum.visit
  cases hs : q.sessions[v.1]? with
  | none => rfl
  | some s => exact getElem?_set_ne (Ne.symm hi)

/-- Visits to different sessions do not see each other. -/
theorem visitAll_served {visits : List (Visit K L P)} (hnodup : (visits.map Prod.fst).Nodup)
    (h : ∀ v ∈ visits, ∀ s, q.sessions[v.1]? = some s → s.Served (v.2 s).1) :
    AllServed q.sessions (q.visitAll visits).sessions := by
  induction visits generalizing q with
  | nil => exact .refl _
  | cons v visits ih =>
    rw [map_cons, nodup_cons] at hnodup
    have hfirst := visit_served (h v (by simp))
    refine hfirst.trans (ih hnodup.2 ?_)
    intro w hw s hs
    have hne : w.1 ≠ v.1 := by
      intro heq
      exact hnodup.1 (heq ▸ mem_map_of_mem hw)
    rw [visit_other hne] at hs
    exact h w (by simp [hw]) s hs

section Step

variable {model : DecodeModel K L P} {q : Quantum K L P}

/-- The session at `idx` is decoding. -/
def Decoding (q : Quantum K L P) (idx : Nat) : Prop :=
  ∀ s, q.sessions[idx]? = some s → s.phase = .decode

theorem serialVisits_served {idxs : List Nat} (h : ∀ idx ∈ idxs, Decoding q idx) :
    ∀ v ∈ serialVisits model idxs, ∀ s, q.sessions[v.1]? = some s → s.Served (v.2 s).1 := by
  intro v hv s hs
  obtain ⟨idx, hidx, rfl⟩ := mem_map.mp hv
  exact serialAdvance_served (h idx hidx s hs)

theorem map_fst_serialVisits (idxs : List Nat) :
    (serialVisits model idxs).map Prod.fst = idxs := by
  simp [serialVisits, Function.comp_def]

/-- The batched arm visits the sessions of the batch, each once. -/
theorem batchVisits_served {batch : List Nat} (h : ∀ idx ∈ batch, Decoding q idx)
    {outcome : BatchOutcome K L} {visits : List (Visit K L P)}
    (hv : batchVisits model batch outcome = some visits) :
    visits.map Prod.fst = batch ∧
      ∀ v ∈ visits, ∀ s, q.sessions[v.1]? = some s → s.Served (v.2 s).1 := by
  cases outcome with
  | notBatchable => cases hv
  | failed msg write =>
    cases hv
    refine ⟨(map_fst_mapIdx _ _ _).trans (map_id' _), ?_⟩
    intro v hv s hs
    obtain ⟨slot, hslot, rfl⟩ := mem_mapIdx.mp hv
    exact batchFailed_served _ _
  | advanced rows write =>
    dsimp only [batchVisits] at hv
    by_cases hlen : rows.length = batch.length
    · rw [if_pos hlen] at hv
      cases hv
      refine ⟨(map_fst_mapIdx _ _ _).trans (map_fst_zip (by omega)), ?_⟩
      · intro v hv s hs
        obtain ⟨slot, hslot, rfl⟩ := mem_mapIdx.mp hv
        have hmem : ((batch.zip rows)[slot]).1 ∈ batch :=
          (of_mem_zip (getElem_mem hslot)).1
        exact batchAdvance_served (h _ hmem s hs) _ _
    · rw [if_neg hlen] at hv
      cases hv
      refine ⟨(map_fst_mapIdx _ _ _).trans (map_id' _), ?_⟩
      intro v hv s hs
      obtain ⟨slot, hslot, rfl⟩ := mem_mapIdx.mp hv
      exact batchMalformed_served (h _ (getElem_mem hslot) s hs) _ _

theorem advanceBatched_served {ready : List Nat} (hnodup : ready.Nodup)
    (h : ∀ idx ∈ ready, Decoding q idx) (maxBatch : Nat) :
    AllServed q.sessions (advanceBatched model ready maxBatch q).sessions := by
  have hbatch : ∀ idx ∈ ready.take maxBatch, Decoding q idx :=
    fun idx hidx => h idx (mem_of_mem_take hidx)
  have hrest : ∀ idx ∈ ready.drop maxBatch, Decoding q idx :=
    fun idx hidx => h idx (mem_of_mem_drop hidx)
  -- whichever arm serves the batch, it visits the batch
  have hfirst : ∀ outcome : BatchOutcome K L,
      (((batchVisits model (ready.take maxBatch) outcome).getD
        (serialVisits model (ready.take maxBatch))).map Prod.fst = ready.take maxBatch) ∧
      ∀ v ∈ (batchVisits model (ready.take maxBatch) outcome).getD
        (serialVisits model (ready.take maxBatch)),
        ∀ s, q.sessions[v.1]? = some s → s.Served (v.2 s).1 := by
    intro outcome
    cases hv : batchVisits model (ready.take maxBatch) outcome with
    | none => exact ⟨map_fst_serialVisits _, serialVisits_served hbatch⟩
    | some visits => exact batchVisits_served hbatch hv
  unfold advanceBatched
  obtain ⟨hfst, hserved⟩ := hfirst (batchAttempt model (ready.take maxBatch) q)
  dsimp only
  generalize q.report.append _ = report
  refine visitAll_served (q := ⟨q.sessions, report⟩) ?_ ?_
  · rw [map_append, hfst, map_fst_serialVisits, take_append_drop]
    exact hnodup
  · intro v hv s hs
    rcases mem_append.mp hv with hv | hv
    · exact hserved v hv s hs
    · exact serialVisits_served hrest v hv s hs

/-- **A step serves each session on its own.** -/
theorem stepQuantum_served (policy : SchedulePolicy) (sessions : List (SessionState K L P)) :
    AllServed sessions (stepQuantum model policy sessions).sessions := by
  have hprefill : AllServed sessions (Quantum.visitAll ⟨sessions, {}⟩
      ((List.range sessions.length).map fun idx => (idx, prefill model))).sessions := by
    refine visitAll_served (q := ⟨sessions, {}⟩) ?_ ?_
    · rw [map_map, Function.comp_def, map_id']
      exact nodup_range
    · intro v hv s hs
      obtain ⟨idx, -, rfl⟩ := mem_map.mp hv
      exact prefill_served
  unfold stepQuantum
  generalize Quantum.visitAll ⟨sessions, {}⟩
    ((List.range sessions.length).map fun idx => (idx, prefill model)) = q at hprefill
  have hnodup : ((List.range q.sessions.length).filter fun idx =>
      (q.sessions[idx]?).any fun s => s.phase = .decode).Nodup := nodup_range.filter _
  have hready : ∀ idx ∈ (List.range q.sessions.length).filter fun idx =>
      (q.sessions[idx]?).any fun s => s.phase = .decode, Decoding q idx := by
    intro idx hidx s hs
    have := (mem_filter.mp hidx).2
    rw [hs] at this
    simpa using this
  cases policy with
  | roundRobin =>
    refine hprefill.trans (visitAll_served ?_ (serialVisits_served hready))
    rw [map_fst_serialVisits]
    exact hnodup
  | batched maxBatch => exact hprefill.trans (advanceBatched_served hnodup hready maxBatch)

end Step

/-! ## The books of the scheduler -/

/-- A session that was admitted: its prompt and its budget. -/
structure Admission where
  id : SessionId
  promptLen : Nat
  maxNew : Nat
  deriving DecidableEq, Repr

/-- The blocks a session of this length takes. -/
def Admission.blocks (blockSize : Nat) (e : Admission) : Nat :=
  (e.promptLen + e.maxNew + blockSize - 1) / blockSize

/-- The pool holds the reservations of `entries` and nothing else, under the handles
the scheduler keeps for them. -/
structure Books (geom : KvGeometry) (pool : KvBlockPool)
    (handles : AList (fun _ : SessionId => SessionHandle)) (entries : List Admission) : Prop where
  geom_eq : pool.geom = geom
  wf : Wf pool
  unshared : Unshared pool
  held : pool.slotsHeld = (entries.map (Admission.blocks geom.blockSize)).sum
  nodup : (entries.map Admission.id).Nodup
  table : ∀ e ∈ entries, ∃ h t, handles.lookup e.id = some h ∧
    pool.tables.lookup h = some t ∧ t.slots.length = e.blocks geom.blockSize
  known : ∀ id h, handles.lookup id = some h → (pool.tables.lookup h).isSome
  distinct : ∀ i j h, handles.lookup i = some h → handles.lookup j = some h → i = j

/-- A session is the one that was admitted, and sound. -/
structure Matches (s : SessionState K L P) (e : Admission) : Prop where
  id : s.id = e.id
  length : s.maxSeqLen = e.promptLen + e.maxNew
  sound : s.Sound

/-- What every run keeps. -/
structure Ledger (geom : KvGeometry) (s : SessionScheduler K L P) (entries : List Admission) :
    Prop where
  books : Books geom s.kvPool s.kvHandles entries
  sessions : List.Forall₂ Matches s.sessions entries
  below : ∀ e ∈ entries, e.id < s.nextId

section Bookkeeping

variable {geom : KvGeometry} {pool : KvBlockPool}
  {handles : AList (fun _ : SessionId => SessionHandle)} {entries : List Admission}

theorem Books.new (geom : KvGeometry) : Books geom (.new geom) ∅ [] where
  geom_eq := rfl
  wf := wf_new geom
  unshared := .new geom
  held := rfl
  nodup := nodup_nil
  table := by
    intro e he
    cases he
  known := by
    intro id h hid
    cases hid
  distinct := by
    intro i j h hi
    cases hi

variable (h : Books geom pool handles entries)

include h

/-- **The free blocks are those nobody reserved.** -/
theorem Books.free_add_reserved (hn : geom.numBlocks < 2 ^ 32) :
    pool.freeBlocks + (entries.map (Admission.blocks geom.blockSize)).sum = geom.numBlocks := by
  have hcount := h.unshared.free_add_slotsHeld h.wf (by rw [h.geom_eq]; exact hn)
  rw [h.held, h.geom_eq] at hcount
  exact hcount

omit h in
/-- The blocks `append` takes for a whole session. -/
theorem newBlocksFor_empty (blockSize promptLen maxNew : Nat) (id : SessionId) :
    newBlocksFor ⟨[], 0⟩ blockSize (promptLen + maxNew)
      = (⟨id, promptLen, maxNew⟩ : Admission).blocks blockSize := by
  simp [newBlocksFor, Admission.blocks]

variable {e : Admission}

/-- A session admitted: opened and extended to its whole length. -/
theorem Books.reserve (hnew : e.id ∉ entries.map Admission.id) (hbs : 0 < geom.blockSize)
    (hlt : e.promptLen + e.maxNew < 2 ^ 64) (hroom : e.blocks geom.blockSize ≤ pool.freeBlocks) :
    ∃ pool', append .debug ⟨pool.nextSession⟩ (e.promptLen + e.maxNew) pool.opened = .ok () pool' ∧
      Books geom pool' (handles.insert e.id ⟨pool.nextSession⟩) (entries ++ [e]) := by
  have hgeom : pool.opened.geom = geom := h.geom_eq
  have hfresh : pool.tables.lookup ⟨pool.nextSession⟩ = none :=
    h.wf.lookup_fresh (Nat.le_refl _)
  have ht : pool.opened.tables.lookup ⟨pool.nextSession⟩ = some ⟨[], 0⟩ := AList.lookup_insert _
  have hneed : newBlocksFor ⟨[], 0⟩ pool.opened.geom.blockSize (e.promptLen + e.maxNew)
      = e.blocks geom.blockSize := by
    rw [hgeom, newBlocksFor_empty geom.blockSize e.promptLen e.maxNew e.id]
  rcases append_cases (opened_wf h.wf) ht (n := e.promptLen + e.maxNew) (by simpa using hlt)
    (by rw [hgeom]; omega) with ⟨hfew, -⟩ | ⟨-, pool', ps, hrun, hon, hfree, hps⟩
  · rw [hneed] at hfew
    exact absurd hroom (Nat.not_le.mpr hfew)
  rw [hneed] at hps
  have hother : ∀ s', s' ≠ ⟨pool.nextSession⟩ →
      pool'.tables.lookup s' = pool.tables.lookup s' := by
    intro s' hs
    rw [hon.others s' hs]
    exact AList.lookup_insert_ne hs
  -- handles in use are not the one just opened
  have hused : ∀ i hd, handles.lookup i = some hd → hd ≠ ⟨pool.nextSession⟩ := by
    intro i hd hi heq
    have := h.known i hd hi
    rw [heq, hfresh] at this
    cases this
  refine ⟨pool', hrun, ?_, hon.wf, ?_, ?_, ?_, ?_, ?_, ?_⟩
  · rw [hon.rest.geom, hgeom]
  · exact (h.unshared.opened h.wf).extended (opened_wf h.wf) hon hfree
  · have htotal := hon.total_eq fun t => t.slots.length
    have hopened := slotsHeld_opened h.wf
    unfold KvBlockPool.slotsHeld at hopened htotal ⊢
    rw [map_append, sum_append, ← h.held]
    unfold KvBlockPool.slotsHeld
    simp only [BlockTable.extend, nil_append, length_map, length_nil] at htotal
    simp only [map_cons, map_nil, sum_cons, sum_nil]
    omega
  · rw [map_append, map_cons, map_nil, nodup_append]
    refine ⟨h.nodup, nodup_singleton _, ?_⟩
    intro a ha b hb heq
    rw [mem_singleton.mp hb] at heq
    exact hnew (heq ▸ ha)
  · intro e' he'
    rcases mem_append.mp he' with he' | he'
    · obtain ⟨hd, t, hhd, htab, hlen⟩ := h.table e' he'
      have hne : e'.id ≠ e.id := fun heq => hnew (heq ▸ mem_map_of_mem he')
      refine ⟨hd, t, ?_, ?_, hlen⟩
      · rw [AList.lookup_insert_ne hne, hhd]
      · rw [hother hd (hused _ _ hhd), htab]
    · rw [mem_singleton.mp he']
      refine ⟨_, _, AList.lookup_insert _, hon.after, ?_⟩
      rw [← hps]
      simp [BlockTable.extend]
  · intro i hd hi
    rcases AssocMap.lookup_of_insert hi with ⟨-, rfl⟩ | ⟨-, hi⟩
    · rw [hon.after]
      rfl
    · rw [hother hd (hused _ _ hi)]
      exact h.known i hd hi
  · intro i j hd hi hj
    rcases AssocMap.lookup_of_insert hi with ⟨rfl, rfl⟩ | ⟨-, hi⟩ <;>
      rcases AssocMap.lookup_of_insert hj with ⟨rfl, hd'⟩ | ⟨-, hj⟩
    · rfl
    · exact absurd rfl (hused _ _ hj)
    · exact absurd hd' (hused _ _ hi)
    · exact h.distinct i j hd hi hj

/-- A session reaped: its blocks come back. -/
theorem Books.release (he : e ∈ entries) :
    ∃ hd pool', handles.lookup e.id = some hd ∧ discard .debug hd pool = .ok () pool' ∧
      Books geom pool' (handles.erase e.id) (entries.filter fun e' => e'.id ≠ e.id) := by
  obtain ⟨hd, t, hhd, htab, hlen⟩ := h.table e he
  obtain ⟨pool', hrun, hw, hrest, htables⟩ := discard_spec h.wf hd
  have hkeeps : ∀ i hd', i ≠ e.id → handles.lookup i = some hd' →
      pool'.tables.lookup hd' = pool.tables.lookup hd' := by
    intro i hd' hi hlook
    rw [htables, AssocMap.lookup_erase_ite, if_neg]
    intro heq
    subst heq
    exact hi (h.distinct _ _ _ hlook hhd)
  refine ⟨hd, pool', hhd, hrun, ?_, hw, h.unshared.closed hrest htables, ?_, ?_, ?_, ?_, ?_⟩
  · rw [hrest.geom, h.geom_eq]
  · -- the entry's blocks leave the sum as they leave the tables
    have hsum : ((entries.filter fun e' => e'.id ≠ e.id).map (Admission.blocks geom.blockSize)).sum
        + e.blocks geom.blockSize = (entries.map (Admission.blocks geom.blockSize)).sum := by
      have hfilter : (entries.filter fun e' => e'.id ≠ e.id) = entries.erase e := by
        rw [List.Nodup.erase_eq_filter (List.Nodup.of_map _ h.nodup)]
        apply filter_congr
        intro e' he'
        have : e'.id = e.id ↔ e' = e :=
          ⟨fun heq => inj_on_of_nodup_map h.nodup he' he heq, fun heq => by rw [heq]⟩
        by_cases heq : e' = e
        · simp [heq]
        · simp [this, heq]
      rw [hfilter, ← sum_map_erase (Admission.blocks geom.blockSize) he]
      omega
    have htotal := AssocMap.total_erase (fun t : BlockTable => t.slots.length) htab
    have hheld := h.held
    unfold KvBlockPool.slotsHeld at hheld ⊢
    rw [htables]
    omega
  · exact h.nodup.sublist (filter_sublist.map _)
  · intro e' he'
    obtain ⟨hmem, hne⟩ := mem_filter.mp he'
    have hne' : e'.id ≠ e.id := by simpa using hne
    obtain ⟨hd', t', hhd', htab', hlen'⟩ := h.table e' hmem
    refine ⟨hd', t', ?_, ?_, hlen'⟩
    · rw [AList.lookup_erase_ne hne', hhd']
    · rw [hkeeps _ _ hne' hhd', htab']
  · intro i hd' hi
    obtain ⟨hne, hi⟩ := AssocMap.lookup_of_erase hi
    rw [hkeeps _ _ hne hi]
    exact h.known i hd' hi
  · intro i j hd' hi hj
    exact h.distinct i j hd' (AssocMap.lookup_of_erase hi).2 (AssocMap.lookup_of_erase hj).2

end Bookkeeping

/-! ## Admission -/

section Calls

variable {geom : KvGeometry} {s : SessionScheduler K L P} {entries : List Admission}
  {model : DecodeModel K L P}

open SessionScheduler

variable {maxNew : Nat} {prompt : List UInt32} {sessions : List (SessionState K L P)}

/-- `kv_blocks_required` is the reservation of a session of that length. -/
theorem Ledger.kvBlocksRequired_run (h : Ledger geom s entries) (hbs : 0 < geom.blockSize)
    {promptLen : Nat} (hlt : promptLen + maxNew < 2 ^ 64) (id : SessionId) :
    kvBlocksRequired promptLen maxNew s
      = .ok ((⟨id, promptLen, maxNew⟩ : Admission).blocks geom.blockSize) s := by
  have hgeom := h.books.geom_eq
  have hzero : (0 + geom.blockSize - 1) / geom.blockSize = 0 := Nat.div_eq_of_lt (by omega)
  have hrun : blocksRequired .debug 0 (promptLen + maxNew) s.kvPool = _ :=
    blocksRequired_run .debug (by omega) (by rw [hgeom]; omega)
  rw [hgeom, hzero] at hrun
  simp only [kvBlocksRequired, addUsizeIn_of_lt hlt, bind_run, pure_run, Outcome.andThen_ok,
    onPool, hrun]
  simp [Admission.blocks]

/-- Whether an error is one of capacity. -/
def AddError.isCapacity : AddError → Bool
  | .capacity _ _ => true
  | .reserveFailed _ => true
  | _ => false

/-- A session that was built is fresh and sound; building one never asks the pool. -/
theorem SessionState.new_sound (model : DecodeModel K L P) (id : SessionId) (prompt : List UInt32)
    (strategy : SamplingStrategy) (eosIds : Option (List UInt32)) (maxNew : Nat) :
    match new model id prompt strategy eosIds maxNew with
    | .error e => e.isCapacity = false
    | .ok state => Matches state ⟨id, prompt.length, maxNew⟩ := by
  unfold new
  split_ifs with hprompt hmax
  · rfl
  · rfl
  cases model.withCapacity (prompt.length + maxNew) with
  | error msg => rfl
  | ok cache =>
    refine ⟨rfl, rfl, rfl, ?_, ?_, ?_⟩
    · intro _
      exact ⟨rfl, Nat.pos_of_ne_zero hmax⟩
    · intro hp
      cases hp
    · intro hp
      cases hp

/-- **Admission.** It is refused for capacity exactly when the free blocks do not do, and a
refusal of any kind changes nothing. -/
theorem Ledger.addSession (h : Ledger geom s entries) (hbs : 0 < geom.blockSize)
    (hlt : prompt.length + maxNew < 2 ^ 64) (strategy : SamplingStrategy)
    (eosIds : Option (List UInt32)) :
    (∃ e, addSession model prompt strategy eosIds maxNew s = .err e s ∧
      (e.isCapacity = true → s.kvFreeBlocks
        < (⟨s.nextId, prompt.length, maxNew⟩ : Admission).blocks geom.blockSize)) ∨
    ∃ s', addSession model prompt strategy eosIds maxNew s = .ok s.nextId s' ∧
      Ledger geom s' (entries ++ [⟨s.nextId, prompt.length, maxNew⟩]) := by
  have hneeded := h.kvBlocksRequired_run hbs hlt s.nextId
  unfold SessionScheduler.addSession
  rw [bind_run, hneeded, Outcome.andThen_ok, bind_run, get_run, Outcome.andThen_ok]
  by_cases hroom : s.kvPool.freeBlocks
      < (⟨s.nextId, prompt.length, maxNew⟩ : Admission).blocks geom.blockSize
  · left
    rw [if_pos hroom]
    exact ⟨_, rfl, fun _ => hroom⟩
  rw [if_neg hroom]
  unfold buildState
  have hbuilt := new_sound model s.nextId prompt strategy eosIds maxNew
  generalize new model s.nextId prompt strategy eosIds maxNew = built at hbuilt ⊢
  cases built with
  | error e =>
    left
    refine ⟨e, rfl, ?_⟩
    intro hcap
    rw [hbuilt] at hcap
    cases hcap
  | ok state =>
    right
    have hnew : s.nextId ∉ entries.map Admission.id := by
      intro hmem
      obtain ⟨e, he, heq⟩ := mem_map.mp hmem
      exact Nat.lt_irrefl _ (heq ▸ h.below e he)
    obtain ⟨pool', hrun, hbooks⟩ := h.books.reserve (e := ⟨s.nextId, prompt.length, maxNew⟩)
      hnew hbs hlt (Nat.not_lt.mp hroom)
    refine ⟨{ s with
      kvPool := pool'
      kvHandles := s.kvHandles.insert s.nextId ⟨s.kvPool.nextSession⟩
      nextId := s.nextId + 1
      sessions := s.sessions ++ [state] }, ?_, hbooks, ?_, ?_⟩
    · simp only [bind_run, pure_run, Outcome.andThen_ok, onPool, openSession_run, hrun,
        get_run, set_run]
    · exact rel_append h.sessions (.cons hbuilt .nil)
    · intro e he
      rcases mem_append.mp he with he | he
      · exact Nat.lt_succ_of_lt (h.below e he)
      · rw [mem_singleton.mp he]
        exact Nat.lt_succ_self _

/-! ## Stepping and reaping -/

theorem Ledger.step (h : Ledger geom s entries) : Ledger geom (s.step model).1 entries where
  books := h.books
  sessions := by
    have hserved : AllServed s.sessions (stepQuantum model s.policy s.sessions).sessions :=
      stepQuantum_served s.policy s.sessions
    refine forall₂_comp (fun _ _ _ hone hfirst => ?_) hserved.flip h.sessions
    exact ⟨hone.id.trans hfirst.id, hone.maxSeqLen.trans hfirst.length, hone.sound hfirst.sound⟩
  below := h.below

theorem map_id_sessions (h : List.Forall₂ Matches sessions entries) :
    sessions.map (fun s => s.id) = entries.map Admission.id := by
  induction h with
  | nil => rfl
  | cons hab _ ih => rw [map_cons, map_cons, hab.id, ih]

/-- The sessions kept are those of the entries that were not reaped. -/
theorem Ledger.kept (h : Ledger geom s entries) :
    List.Forall₂ Matches (s.sessions.filter fun s => s.phase ≠ .finished)
      (entries.filter fun e =>
        e.id ∉ (s.sessions.filter fun s => s.phase = .finished).map fun s => s.id) := by
  have hnodup : (s.sessions.map fun s => s.id).Nodup := by
    rw [map_id_sessions h.sessions]
    exact h.books.nodup
  apply forall₂_filter h.sessions
  intro x hx
  have hmatch : Matches x.1 x.2 := List.forall₂_zip h.sessions hx
  have hmem := (of_mem_zip hx).1
  rw [decide_eq_decide]
  refine not_congr ?_
  rw [← hmatch.id]
  constructor
  · intro hid
    obtain ⟨s', hs', heq⟩ := mem_map.mp hid
    obtain ⟨hmem', hfin⟩ := mem_filter.mp hs'
    have hsame : s' = x.1 := inj_on_of_nodup_map hnodup hmem' hmem heq
    rw [← hsame]
    simpa using hfin
  · intro hfin
    refine mem_map.mpr ⟨x.1, mem_filter.mpr ⟨hmem, ?_⟩, rfl⟩
    simpa using hfin

/-- Reaping one session, by its id. -/
theorem Books.reapOne_run (hb : Books geom s.kvPool s.kvHandles entries) {e : Admission}
    (he : e ∈ entries) : ∃ pool' handles', reapOne e.id s
        = .ok () { s with kvPool := pool', kvHandles := handles' } ∧
      Books geom pool' handles' (entries.filter fun e' => e'.id ≠ e.id) := by
  obtain ⟨hd, pool', hhd, hrun, hbooks⟩ := hb.release he
  refine ⟨pool', s.kvHandles.erase e.id, ?_, hbooks⟩
  simp only [reapOne, bind_run, get_run, Outcome.andThen_ok, hhd, set_run,
    onPool, hrun]

/-- Reaping a list of different sessions. -/
theorem Books.reapAll_run (hb : Books geom s.kvPool s.kvHandles entries)
    (hnodup : (sessions.map fun s => s.id).Nodup)
    (hmem : ∀ x ∈ sessions, x.id ∈ entries.map Admission.id) :
    ∃ pool' handles', (forM sessions fun x : SessionState K L P => reapOne x.id) s
        = .ok ⟨⟩ { s with kvPool := pool', kvHandles := handles' } ∧
      Books geom pool' handles'
        (entries.filter fun e => e.id ∉ sessions.map fun s => s.id) := by
  induction sessions generalizing s entries with
  | nil =>
    refine ⟨s.kvPool, s.kvHandles, rfl, ?_⟩
    simpa using hb
  | cons x sessions ih =>
    rw [map_cons, nodup_cons] at hnodup
    obtain ⟨e, he, heq⟩ := mem_map.mp (hmem x (by simp))
    obtain ⟨pool₁, handles₁, hrun₁, hbooks₁⟩ := hb.reapOne_run he
    have hmem₁ : ∀ y ∈ sessions, y.id ∈ (entries.filter fun e' => e'.id ≠ e.id).map
        Admission.id := by
      intro y hy
      obtain ⟨e', he', heq'⟩ := mem_map.mp (hmem y (by simp [hy]))
      refine mem_map.mpr ⟨e', mem_filter.mpr ⟨he', ?_⟩, heq'⟩
      have hne : y.id ≠ x.id := fun hid => hnodup.1 (hid ▸ mem_map_of_mem hy)
      simp only [ne_eq, decide_eq_true_eq]
      rw [heq', heq]
      exact hne
    obtain ⟨pool₂, handles₂, hrun₂, hbooks₂⟩ :=
      ih (s := { s with kvPool := pool₁, kvHandles := handles₁ }) hbooks₁ hnodup.2 hmem₁
    refine ⟨pool₂, handles₂, ?_, ?_⟩
    · rw [forM_cons_run, ← heq, hrun₁]
      exact hrun₂
    have hfilter : (entries.filter fun e' => e'.id ∉ (x :: sessions).map fun s => s.id)
        = (entries.filter fun e' => e'.id ≠ e.id).filter fun e' =>
          e'.id ∉ sessions.map fun s => s.id := by
      rw [filter_filter]
      apply filter_congr
      intro e' _
      rw [Bool.eq_iff_iff]
      simp [heq, and_comm]
    rw [hfilter]
    exact hbooks₂

/-- **Reaping gives the blocks of the finished sessions back.** -/
theorem Ledger.reapFinished (h : Ledger geom s entries) :
    ∃ reaped s', reapFinished s = .ok reaped s' ∧
      Ledger geom s' (entries.filter fun e => e.id ∉ reaped.map Prod.fst) := by
  have hids := map_id_sessions h.sessions
  have hnodup : ((s.sessions.filter fun s => s.phase = .finished).map fun s => s.id).Nodup := by
    have hall : (s.sessions.map fun s => s.id).Nodup := by
      rw [hids]
      exact h.books.nodup
    exact hall.sublist (filter_sublist.map _)
  have hmem : ∀ x ∈ s.sessions.filter fun s => s.phase = .finished,
      x.id ∈ entries.map Admission.id := by
    intro x hx
    rw [← hids]
    exact mem_map_of_mem (mem_filter.mp hx).1
  obtain ⟨pool', handles', hrun, hbooks⟩ := h.books.reapAll_run hnodup hmem
  refine ⟨(s.sessions.filter fun s => s.phase = .finished).map fun s => (s.id, s.tokens),
    { s with
      kvPool := pool'
      kvHandles := handles'
      sessions := s.sessions.filter fun s => s.phase ≠ .finished }, ?_, ?_⟩
  · simp only [SessionScheduler.reapFinished, bind_run, get_run, Outcome.andThen_ok, hrun,
      set_run, pure_run]
  · have hfst : ((s.sessions.filter fun s => s.phase = .finished).map
        fun s => (s.id, s.tokens)).map Prod.fst
        = (s.sessions.filter fun s => s.phase = .finished).map fun s => s.id := by
      rw [map_map]
      rfl
    rw [hfst]
    exact ⟨hbooks, h.kept, fun e he => h.below e (mem_filter.mp he).1⟩

end Calls

/-! ## Runs -/

section Runs

open SessionScheduler

variable (model : DecodeModel K L P) (policy : SchedulePolicy) (geom : KvGeometry)

/-- The schedulers a run of calls on a new one leads to, with the sessions added and not
yet reaped. -/
inductive Reached : SessionScheduler K L P → List Admission → Prop
  | new : Reached (.new policy geom) []
  | add {s entries prompt strategy eosIds maxNew id s'} : Reached s entries →
      prompt.length + maxNew < 2 ^ 64 →
      addSession model prompt strategy eosIds maxNew s = .ok id s' →
      Reached s' (entries ++ [⟨id, prompt.length, maxNew⟩])
  | refuse {s entries prompt strategy eosIds maxNew e s'} : Reached s entries →
      prompt.length + maxNew < 2 ^ 64 →
      addSession model prompt strategy eosIds maxNew s = .err e s' → Reached s' entries
  | step {s entries} : Reached s entries → Reached (s.step model).1 entries
  | reap {s entries reaped s'} : Reached s entries → reapFinished s = .ok reaped s' →
      Reached s' (entries.filter fun e => e.id ∉ reaped.map Prod.fst)

/-- The session fits its cache: never more tokens than it was admitted for, and one cache
entry fewer. -/
structure FitsCache (s : SessionState K L P) (e : Admission) : Prop where
  id : s.id = e.id
  capacity : s.maxSeqLen = e.promptLen + e.maxNew
  tokens : s.tokens.length ≤ e.promptLen + e.maxNew
  cached : s.cachedLen + 1 ≤ e.promptLen + e.maxNew

/-- Exact and sufficient reservations. -/
structure Exact (s : SessionScheduler K L P) (entries : List Admission) : Prop where
  free : s.kvFreeBlocks + (entries.map (Admission.blocks geom.blockSize)).sum = geom.numBlocks
  fits : List.Forall₂ FitsCache s.sessions entries
  admits : ∀ prompt strategy eosIds maxNew, prompt.length + maxNew < 2 ^ 64 →
    (∃ id s', addSession model prompt strategy eosIds maxNew s = .ok id s') ∨
    ∃ e s', addSession model prompt strategy eosIds maxNew s = .err e s' ∧
      s'.kvFreeBlocks = s.kvFreeBlocks ∧ s'.nextId = s.nextId ∧ s'.sessions = s.sessions ∧
      ∀ n, kvBlocksRequired prompt.length maxNew s = .ok n s → n ≤ s.kvFreeBlocks →
        e.isCapacity = false
  reaps : ∃ reaped s', reapFinished s = .ok reaped s'

variable {model policy geom} {s : SessionScheduler K L P} {entries : List Admission}

theorem Reached.ledger (hbs : 0 < geom.blockSize) (h : Reached model policy geom s entries) :
    Ledger geom s entries := by
  induction h with
  | new =>
    refine ⟨.new geom, .nil, ?_⟩
    intro e he
    cases he
  | add _ hlt hrun ih =>
    rcases ih.addSession hbs hlt _ _ with ⟨e, herr, -⟩ | ⟨s', hok, hledger⟩
    · rw [herr] at hrun
      cases hrun
    · rw [hok] at hrun
      cases hrun
      exact hledger
  | refuse _ hlt hrun ih =>
    rcases ih.addSession hbs hlt _ _ with ⟨e, herr, -⟩ | ⟨s', hok, -⟩
    · rw [herr] at hrun
      cases hrun
      exact ih
    · rw [hok] at hrun
      cases hrun
  | step _ ih => exact ih.step
  | reap _ hrun ih =>
    obtain ⟨reaped, s', hok, hledger⟩ := ih.reapFinished
    rw [hok] at hrun
    cases hrun
    exact hledger

theorem Ledger.exact (hbs : 0 < geom.blockSize) (hn : geom.numBlocks < 2 ^ 32)
    (h : Ledger geom s entries) : Exact model geom s entries where
  free := h.books.free_add_reserved hn
  fits := by
    refine h.sessions.imp ?_
    intro s e hmatch
    have hbudget := hmatch.sound.budget
    have hcached := hmatch.sound.cachedLen_lt
    have hlength := hmatch.length
    exact ⟨hmatch.id, hlength, by omega, by omega⟩
  admits := by
    intro prompt strategy eosIds maxNew hlt
    rcases h.addSession hbs hlt strategy eosIds with ⟨e, herr, hcap⟩ | ⟨s', hok, -⟩
    · right
      refine ⟨e, s, herr, rfl, rfl, rfl, ?_⟩
      intro n hneeded hle
      rw [h.kvBlocksRequired_run hbs hlt s.nextId] at hneeded
      cases hneeded
      cases hiscap : e.isCapacity with
      | false => rfl
      | true => exact absurd hle (Nat.not_le.mpr (hcap hiscap))
    · exact .inl ⟨_, s', hok⟩
  reaps := by
    obtain ⟨reaped, s', hok, -⟩ := h.reapFinished
    exact ⟨reaped, s', hok⟩

/-- **Reservations are exact and sufficient in every run, for exactly the budgets of fewer
than `2 ^ 32` blocks.** -/
theorem reservations_exact_iff (model : DecodeModel K L P) (policy : SchedulePolicy)
    (geom : KvGeometry) (hbs : 0 < geom.blockSize) :
    (∀ s entries, Reached model policy geom s entries → Exact model geom s entries) ↔
      geom.numBlocks < 2 ^ 32 := by
  constructor
  · intro h
    -- the free list of a new pool counts to the low 32 bits of its blocks
    have hfree : (new policy geom : SessionScheduler K L P).kvFreeBlocks + 0
        = geom.numBlocks := (h _ _ .new).free
    have hlen : (new policy geom : SessionScheduler K L P).kvFreeBlocks
        = geom.numBlocks % 2 ^ 32 := by
      show ((List.range (geom.numBlocks % 2 ^ 32)).reverse).length = _
      rw [length_reverse, length_range]
    rw [hlen, Nat.add_zero] at hfree
    rw [← hfree]
    exact Nat.mod_lt _ (by decide)
  · intro hn s entries h
    exact (h.ledger hbs).exact hbs hn

end Runs

namespace SessionSamples

/-- A model whose forwards succeed and that samples token 0. -/
def silent : DecodeModel Unit Unit Unit where
  withCapacity _ := .ok ()
  forward _ cache := (.ok (), cache)
  supportsBatchedDecode := false
  batchedLogits _ := (.error "no batched arm", fun _ cache => cache)
  sampleNext _ _ _ _ rng := (.ok 0, rng)

/-- A pool of `2 ^ 32` blocks. -/
def wideGeom : KvGeometry := ⟨1, 4294967296, 16, 1, 1, 2⟩

end SessionSamples

open SessionSamples SessionScheduler

/-- Two sessions reserve three of the four blocks; a step finishes the second, and once it
is reaped the two of the first are all that is reserved. -/
theorem reservations_exact_after_reaping :
    ∃ s₁ s₂ s : SessionScheduler Unit Unit Unit,
      addSession silent [7, 8] .greedy none 3 (.new .roundRobin smallGeom) = .ok 0 s₁ ∧
      addSession silent [9] .greedy none 1 s₁ = .ok 1 s₂ ∧ s₂.kvFreeBlocks + (2 + 1) = 4 ∧
      reapFinished (s₂.step silent).1 = .ok [(1, [9, 0])] s ∧ s.kvFreeBlocks + 2 = 4 := by
  have h : (addSession silent [7, 8] .greedy none 3 (.new .roundRobin smallGeom)).any fun id₁ s₁ =>
      (addSession silent [9] .greedy none 1 s₁).any fun id₂ s₂ =>
        (reapFinished (s₂.step silent).1).any fun reaped _ =>
          id₁ = 0 ∧ id₂ = 1 ∧ reaped = [(1, [9, 0])] := by
    decide +kernel
  obtain ⟨_, s₁, hfirst, h⟩ := Outcome.any_eq_true.mp h
  obtain ⟨_, s₂, hsecond, h⟩ := Outcome.any_eq_true.mp h
  obtain ⟨_, s, hreap, h⟩ := Outcome.any_eq_true.mp h
  obtain ⟨rfl, rfl, rfl⟩ := of_decide_eq_true h
  have hadded : Reached silent .roundRobin smallGeom s₂ [⟨0, 2, 3⟩, ⟨1, 1, 1⟩] :=
    .add (.add .new (by decide) hfirst) (by decide) hsecond
  have hreaped : Reached silent .roundRobin smallGeom s [⟨0, 2, 3⟩] := .reap hadded.step hreap
  have hexact := (reservations_exact_iff silent .roundRobin smallGeom (by decide)).mpr (by decide)
  exact ⟨s₁, s₂, s, hfirst, hsecond, (hexact s₂ _ hadded).free, hreap, (hexact s _ hreaped).free⟩

/-- A pool of `2 ^ 32` blocks starts with none free. -/
theorem wide_pool_starts_exhausted :
    Reached silent .roundRobin wideGeom (.new .roundRobin wideGeom) [] ∧
      (new .roundRobin wideGeom : SessionScheduler Unit Unit Unit).kvFreeBlocks
        = 0 ∧
      wideGeom.numBlocks = 2 ^ 32 := by
  refine ⟨.new, ?_, rfl⟩
  show ((List.range (2 ^ 32 % 2 ^ 32)).reverse).length = 0
  rw [Nat.mod_self]
  rfl

end Fuel.Inference
