import Fuel.Decode.PlanIdentity

/-!
# A held plan runs on the cache it is handed

The plan may run on the cache of a later step only if its storages are the
storages of that cache. The invariant of a run is that a cache with the plan's
allocation id has the plan's storages: every call that replaces storages mints a
new id, except for a write through `layer_mut`.
-/

namespace Fuel.Decode

open Fuel.IR List Option KvCache

/-! ## Runs -/

/-- The caches, the held session with the context, and whether a capture of it is held. -/
structure DecodeWorld where
  caches : List KvCache
  nextAlloc : KvAllocId
  session : Option DecodeSession
  ctx : StorageCache
  captured : Option Unit

inductive DecodeCall where
  | withDims (nLayers nKvHeads headDim : Nat)
  | withCapacity (nLayers nKvHeads headDim maxSeqLen : Nat) (dtype : DType)
      (device : DeviceLocation) (ptrs : Nat → Nat)
  | setLayer (cache li : Nat) (layer : KvLayer)
  | clear (cache : Nat)
  | truncateTo (cache newLen : Nat)
  | layerMut (cache li : Nat) (layer : KvLayer)
  | forward (env : StepEnv) (model : DecodeModel) (seq cache : Nat)
  | invalidatePair (locks : StorageArc → Bool) (model : DecodeModel) (seq cache : Nat)
  | capture

namespace DecodeWorld

def new : DecodeWorld where
  caches := []
  nextAlloc := 1
  session := none
  ctx := fun _ => none
  captured := none

/-- `invalidate_decode_pair_if_stale` as the models call it, with the values of the cache. -/
def invalidate (w : DecodeWorld) (locks : StorageArc → Bool) (m : DecodeModel) (seq : Nat)
    (c : KvCache) : Refreshed × Option Unit :=
  invalidateDecodePairIfStale locks w.session w.captured w.ctx seq c.maxSeqLen c.planDtype m.nLayers
    m.shapeKey c

/-- One call; `none` if there is no such cache, or it panics. -/
def step (w : DecodeWorld) : DecodeCall → Option DecodeWorld
  | .withDims nLayers nKvHeads headDim =>
    some { w with
      caches := w.caches ++ [.withDims w.nextAlloc nLayers nKvHeads headDim]
      nextAlloc := w.nextAlloc + 1 }
  | .withCapacity nLayers nKvHeads headDim maxSeqLen dtype device ptrs =>
    some { w with
      caches := w.caches ++
        [.withCapacity w.nextAlloc nLayers nKvHeads headDim maxSeqLen dtype device ptrs]
      nextAlloc := w.nextAlloc + 1 }
  | .setLayer i li layer => do
    let c ← w.caches[i]?
    let c' ← c.setLayer w.nextAlloc li layer
    some { w with caches := w.caches.set i c', nextAlloc := w.nextAlloc + 1 }
  | .clear i => do
    let c ← w.caches[i]?
    some { w with caches := w.caches.set i (c.clear w.nextAlloc), nextAlloc := w.nextAlloc + 1 }
  | .truncateTo i newLen => do
    let c ← w.caches[i]?
    some { w with caches := w.caches.set i (c.truncateTo newLen) }
  | .layerMut i li layer => do
    let c ← w.caches[i]?
    some { w with caches := w.caches.set i (c.layerMut li layer) }
  | .forward env m seq i => do
    let c ← w.caches[i]?
    let r := forwardWithKvContextPersistent env m seq c w.ctx w.session
    some { w with caches := w.caches.set i r.cache, session := r.session, ctx := r.ctx }
  | .invalidatePair locks m seq i => do
    let c ← w.caches[i]?
    let r := w.invalidate locks m seq c
    some { w with session := r.1.session, ctx := r.1.ctx, captured := r.2 }
  | .capture => some { w with captured := some () }

/-- The held plan a call runs, or leaves to be run, with its disposition, the model and the cache it
is handed. -/
def runs (w : DecodeWorld) :
    DecodeCall → Option (SessionDisposition × DecodeSession × DecodeModel × KvCache)
  | .forward env m seq i => do
    let c ← w.caches[i]?
    let (d, s) ← (forwardWithKvContextPersistent env m seq c w.ctx w.session).executed
    some (d, s, m, c)
  | .invalidatePair locks m seq i => do
    let c ← w.caches[i]?
    let r := (w.invalidate locks m seq c).1
    let s ← r.session
    some (r.disposition, s, m, c)
  | _ => none

/-- The call is by one of the models. -/
def Known (models : Set DecodeModel) : DecodeCall → Prop
  | .forward _ m _ _ | .invalidatePair _ m _ _ => m ∈ models
  | _ => True

/-- A token is decoded on a cache of the model's KV geometry, and storages are replaced through
`layer_mut` only in a cache the held plan is not for, by storages where the cache lives. -/
def Intact (w : DecodeWorld) : DecodeCall → Prop
  | .forward _ m seq i => seq = 1 → ∀ c, w.caches[i]? = some c →
      c.nKvHeads = m.nKvHeads ∧ c.headDim = m.headDim
  | .invalidatePair _ m _ i => ∀ c, w.caches[i]? = some c →
      c.nKvHeads = m.nKvHeads ∧ c.headDim = m.headDim
  | .layerMut i _ layer => ∀ c, w.caches[i]? = some c →
      (∀ s, w.session = some s → s.allocId ≠ c.allocId) ∧
        ∀ loc, c.deviceLocation = some loc → ∀ slot, (layer.slot slot).location = loc
  | _ => True

/-- The states that calls which meet a condition lead to. -/
inductive Reached (Meets : DecodeWorld → DecodeCall → Prop) : DecodeWorld → Prop
  | new : Reached Meets .new
  | call {w c w'} : Reached Meets w → Meets w c → w.step c = some w' → Reached Meets w'

end DecodeWorld

/-! ## The invariant -/

/-- The ids tell the caches apart, and a cache with the id of the plan has its storages. -/
structure Held (models : Set DecodeModel) (w : DecodeWorld) : Prop where
  minted : ∀ (i : Nat) (c : KvCache), w.caches[i]? = some c → c.allocId < w.nextAlloc
  distinct : ∀ (i j : Nat) (c c' : KvCache), w.caches[i]? = some c → w.caches[j]? = some c' →
    c.allocId = c'.allocId → i = j
  located : ∀ c ∈ w.caches, c.Located
  typed : ∀ c ∈ w.caches, c.maxSeqLen.isSome → c.dtype.isSome
  plan : ∀ s, w.session = some s → PlanSound s ∧ s.graph.model ∈ models ∧
    s.allocId < w.nextAlloc ∧ ∀ c ∈ w.caches, c.allocId = s.allocId → Welded s c

namespace Held

variable {models : Set DecodeModel} {w : DecodeWorld} {i : Nat} {c : KvCache}

/-- A cache is added or replaced. -/
theorem change (h : Held models w) {caches : List KvCache} {next : KvAllocId}
    (hmem : ∀ (j : Nat) (x : KvCache), caches[j]? = some x →
      j ≠ i ∧ w.caches[j]? = some x ∨ j = i ∧ x = c) (hid : c.allocId < next)
    (hnext : w.nextAlloc ≤ next)
    (hdistinct : ∀ (j : Nat) (x : KvCache), j ≠ i → w.caches[j]? = some x → x.allocId ≠ c.allocId)
    (hloc : c.Located) (htyped : c.maxSeqLen.isSome → c.dtype.isSome)
    (hweld : ∀ s, w.session = some s → c.allocId = s.allocId → Welded s c) :
    Held models { w with caches := caches, nextAlloc := next } where
  minted := by
    intro j x hx
    rcases hmem j x hx with ⟨-, hold⟩ | ⟨-, rfl⟩
    · exact Nat.lt_of_lt_of_le (h.minted j x hold) hnext
    · exact hid
  distinct := by
    intro j j' x x' hx hx' heq
    rcases hmem j x hx with ⟨hj, hold⟩ | ⟨hj, rfl⟩ <;>
      rcases hmem j' x' hx' with ⟨hj', hold'⟩ | ⟨hj', rfl⟩
    · exact h.distinct j j' x x' hold hold' heq
    · exact absurd heq (hdistinct j x hj hold)
    · exact absurd heq.symm (hdistinct j' x' hj' hold')
    · rw [hj, hj']
  located := by
    intro x hx
    obtain ⟨j, hj⟩ := mem_iff_getElem?.mp hx
    rcases hmem j x hj with ⟨-, hold⟩ | ⟨-, rfl⟩
    · exact h.located x (mem_of_getElem? hold)
    · exact hloc
  typed := by
    intro x hx
    obtain ⟨j, hj⟩ := mem_iff_getElem?.mp hx
    rcases hmem j x hj with ⟨-, hold⟩ | ⟨-, rfl⟩
    · exact h.typed x (mem_of_getElem? hold)
    · exact htyped
  plan := by
    intro s hs
    obtain ⟨hsound, hmodel, hlt, hwelded⟩ := h.plan s hs
    refine ⟨hsound, hmodel, Nat.lt_of_lt_of_le hlt hnext, ?_⟩
    intro x hx heq
    obtain ⟨j, hj⟩ := mem_iff_getElem?.mp hx
    rcases hmem j x hj with ⟨-, hold⟩ | ⟨-, rfl⟩
    · exact hwelded x (mem_of_getElem? hold) heq
    · exact hweld s hs heq

theorem mem_set {l : List KvCache} (j : Nat) (x : KvCache) (hx : (l.set i c)[j]? = some x) :
    j ≠ i ∧ l[j]? = some x ∨ j = i ∧ x = c := by
  rw [getElem?_set] at hx
  split_ifs at hx with hij hlt
  · cases hx
    exact .inr ⟨hij.symm, rfl⟩
  · exact .inl ⟨fun heq => hij heq.symm, hx⟩

theorem mem_push {l : List KvCache} (j : Nat) (x : KvCache) (hx : (l ++ [c])[j]? = some x) :
    j ≠ l.length ∧ l[j]? = some x ∨ j = l.length ∧ x = c := by
  rcases Nat.lt_trichotomy j l.length with hlt | heq | hgt
  · rw [getElem?_append_left hlt] at hx
    exact .inl ⟨Nat.ne_of_lt hlt, hx⟩
  · subst heq
    simp only [getElem?_concat_length, some.injEq] at hx
    exact .inr ⟨rfl, hx.symm⟩
  · rw [getElem?_eq_none (by simp; omega)] at hx
    cases hx

variable (h : Held models w)

include h

/-- The cache got a new id. -/
theorem mint {caches : List KvCache} (hmem : ∀ (j : Nat) (x : KvCache), caches[j]? = some x →
      j ≠ i ∧ w.caches[j]? = some x ∨ j = i ∧ x = c) (hid : c.allocId = w.nextAlloc)
    (hloc : c.Located) (htyped : c.maxSeqLen.isSome → c.dtype.isSome) :
    Held models { w with caches := caches, nextAlloc := w.nextAlloc + 1 } := by
  refine h.change hmem (hid ▸ Nat.lt_succ_self _) (Nat.le_succ _) ?_ hloc htyped ?_
  · intro j x _ hx heq
    exact Nat.ne_of_lt (h.minted j x hx) (heq.trans hid)
  · intro s hs heq
    exact absurd (heq.symm.trans hid) (Nat.ne_of_lt (h.plan s hs).2.2.1)

variable (hi : w.caches[i]? = some c)

include hi

/-- The cache keeps its id. -/
theorem keepId {c' : KvCache} (hid : c'.allocId = c.allocId) (hloc : c'.Located)
    (htyped : c'.maxSeqLen.isSome → c'.dtype.isSome)
    (hweld : ∀ s, w.session = some s → c.allocId = s.allocId → Welded s c') :
    Held models { w with caches := w.caches.set i c' } := by
  refine h.change mem_set ?_ (Nat.le_refl _) ?_ hloc htyped ?_
  · rw [hid]
    exact h.minted i c hi
  · intro j x hj hx heq
    exact hj (h.distinct j i x c hx hi (heq.trans hid))
  · intro s hs heq
    exact hweld s hs (hid.symm.trans heq)

theorem same {c' : KvCache} (hc : c.SameAllocation c') :
    Held models { w with caches := w.caches.set i c' } := by
  have hmem := mem_of_getElem? hi
  refine h.keepId hi hc.allocId (hc.located (h.located c hmem)) ?_ ?_
  · rw [hc.maxSeqLen, hc.dtype]
    exact h.typed c hmem
  · intro s hs heq
    exact ((h.plan s hs).2.2.2 c hmem heq).same hc

/-- The session is replaced by one that is welded to a cache. -/
theorem weld {session : Option DecodeSession} {ctx : StorageCache} {captured : Option Unit}
    (hs : ∀ s, session = some s → PlanSound s ∧ s.graph.model ∈ models ∧ s.allocId = c.allocId ∧
      Welded s c) :
    Held models { w with session := session, ctx := ctx, captured := captured } := by
  refine ⟨h.minted, h.distinct, h.located, h.typed, ?_⟩
  intro s hsess
  obtain ⟨hsound, hmodel, hid, hwelded⟩ := hs s hsess
  refine ⟨hsound, hmodel, ?_, ?_⟩
  · rw [hid]
    exact h.minted i c hi
  · intro c' hc' heq
    obtain ⟨j, hj⟩ := mem_iff_getElem?.mp hc'
    obtain rfl := h.distinct j i c' c hj hi (heq.trans hid)
    rw [hi, some.injEq] at hj
    rwa [← hj]

end Held

/-! ## The decision -/

/-- What is left of the held session for a step on cache `c` of model `m`. -/
structure Serves (models : Set DecodeModel) (m : DecodeModel) (c : KvCache) (s : DecodeSession) :
    Prop where
  sound : PlanSound s
  model : s.graph.model ∈ models
  welded : Welded s c
  allocId : s.allocId = c.allocId
  maxSeqLen : c.maxSeqLen = some s.maxSeqLen
  dtype : c.planDtype = s.cacheDtype
  nLayers : s.nLayers = m.nLayers
  shapeKey : s.shapeKey = m.shapeKey

section Refresh

variable {models : Set DecodeModel} {w : DecodeWorld} {i : Nat} {c : KvCache} {m : DecodeModel}

theorem validityFor_structural {s : DecodeSession} {seq msl nLayers : Nat} {dt : DType}
    {key : UInt64} {id : KvAllocId} (h : s.validityFor seq msl nLayers dt key id ≠ .stale) :
    s.maxSeqLen = msl ∧ s.nLayers = nLayers ∧ s.cacheDtype = dt ∧ s.shapeKey = key ∧
      (s.validityFor seq msl nLayers dt key id = .valid ↔ s.allocId = id) := by
  unfold DecodeSession.validityFor at h ⊢
  split_ifs at h ⊢ with hs hid
  · exact ⟨hs.2.1, hs.2.2.1, hs.2.2.2.1, hs.2.2.2.2, by simp [hid]⟩
  · exact ⟨hs.2.1, hs.2.2.1, hs.2.2.2.1, hs.2.2.2.2, by simp [hid]⟩
  · exact absurd rfl h

/-- After the decision a plan that is left serves the cache, and a capture was retired unless the
plan was left alone. -/
theorem Held.refresh (h : Held models w) (hi : w.caches[i]? = some c) (locks : StorageArc → Bool)
    (seq : Nat) {r : Refreshed} (hr : refreshDecodeSession locks w.session w.ctx seq c.maxSeqLen
      c.planDtype m.nLayers m.shapeKey c = r) :
    (∀ s, r.session = some s → (r.disposition = .kept ∨ r.disposition = .rebound) ∧
      Serves models m c s) ∧
    (r.disposition ≠ .absent → r.disposition ≠ .kept → r.retired = true) := by
  subst hr
  unfold refreshDecodeSession
  cases hsess : w.session with
  | none => exact ⟨fun s hs => by simp at hs, fun habs => absurd rfl habs⟩
  | some s =>
    obtain ⟨hsound, hmodel, -, hwelded⟩ := h.plan s hsess
    have hmem := mem_of_getElem? hi
    cases hmax : c.maxSeqLen with
    | none => exact ⟨fun s' hs' => by simp at hs', fun _ _ => rfl⟩
    | some msl =>
      dsimp only
      cases hv : s.validityFor seq msl m.nLayers c.planDtype m.shapeKey c.allocId with
      | stale => exact ⟨fun s' hs' => by simp at hs', fun _ _ => rfl⟩
      | valid =>
        obtain ⟨hmsl, hlayers, hdt, hkey, hid⟩ := validityFor_structural (by rw [hv]; simp)
        refine ⟨?_, fun _ hkept => absurd rfl hkept⟩
        intro s' hs'
        cases hs'
        have hid := hid.mp hv
        exact ⟨.inl rfl, hsound, hmodel, hwelded c hmem hid.symm, hid, by rw [hmax, hmsl],
          hdt.symm, hlayers, hkey⟩
      | allocationChanged =>
        obtain ⟨hmsl, hlayers, hdt, hkey, -⟩ := validityFor_structural (by rw [hv]; simp)
        rcases rebindKv_cases locks c s with ⟨refusal, hrun⟩ | ⟨base, loc, hrun, hloc, hbaked, hbase⟩
        · rw [hrun]
          exact ⟨fun s' hs' => by simp at hs', fun _ _ => rfl⟩
        · rw [hrun]
          refine ⟨?_, fun _ _ => rfl⟩
          intro s' hs'
          cases hs'
          obtain ⟨hsound', hwelded'⟩ := hsound.rebound (h.located c hmem) hloc hbaked hbase
          exact ⟨.inr rfl, hsound', hmodel, hwelded', rfl, by rw [hmax]; exact congrArg some hmsl.symm,
            hdt.symm, hlayers, hkey⟩

/-- What a persistent step leaves and what it ran. -/
theorem Held.persistent (h : Held models w) (hi : w.caches[i]? = some c) (hm : m ∈ models)
    (env : StepEnv) (seq : Nat) {r : Stepped}
    (hr : forwardWithKvContextPersistent env m seq c w.ctx w.session = r) :
    c.SameAllocation r.cache ∧
    (∀ s, r.session = some s → PlanSound s ∧ s.graph.model ∈ models ∧ s.allocId = c.allocId ∧
      Welded s c) ∧
    ∀ d s, r.executed = some (d, s) → seq = 1 ∧ (d = .kept ∨ d = .rebound) ∧ Serves models m c s := by
  subst hr
  unfold forwardWithKvContextPersistent
  split_ifs with hseq
  · exact ⟨forwardWithKvContext_same env m seq c _, fun s hs => by simp at hs,
      fun d s hs => by simp at hs⟩
  have hseq : seq = 1 := not_not.mp hseq
  obtain ⟨hserve, -⟩ := h.refresh (m := m) hi env.locks seq rfl
  dsimp only
  generalize refreshDecodeSession env.locks w.session w.ctx seq c.maxSeqLen c.planDtype m.nLayers
    m.shapeKey c = q at hserve ⊢
  cases hq : q.session with
  | none =>
    obtain ⟨hsame, hplan⟩ := buildFirst_cases env m seq (h.located c (mem_of_getElem? hi)) q.ctx
    refine ⟨hsame, ?_, fun d s hs => by simp at hs⟩
    intro s hs
    obtain ⟨hsound, hwelded, hmodel, hid⟩ := hplan s hs
    exact ⟨hsound, hmodel ▸ hm, hid, hwelded⟩
  | some s =>
    obtain ⟨hd, hs⟩ := hserve s hq
    have hexec : ∀ d' s', some (q.disposition, s) = some (d', s') →
        seq = 1 ∧ (d' = .kept ∨ d' = .rebound) ∧ Serves models m c s' := by
      intro d' s' heq
      cases heq
      exact ⟨hseq, hd, hs⟩
    have hplan : ∀ s', some s = some s' → PlanSound s' ∧ s'.graph.model ∈ models ∧
        s'.allocId = c.allocId ∧ Welded s' c := by
      intro s' heq
      cases heq
      exact ⟨hs.sound, hs.model, hs.allocId, hs.welded⟩
    cases env.held with
    | ok => exact ⟨c.sameAllocation_advance seq, hplan, hexec⟩
    | topologyChanged =>
      exact ⟨forwardWithKvContext_same env m seq c _, fun s' hs' => by simp at hs', hexec⟩
    | failed => exact ⟨.refl c, hplan, hexec⟩

end Refresh

/-! ## Every run -/

section Runs

variable {models : Set DecodeModel} {w w' : DecodeWorld}

theorem Held.new (models : Set DecodeModel) : Held models .new := by
  refine ⟨?_, ?_, ?_, ?_, ?_⟩
  · intro i c hc
    cases hc
  · intro i j c c' hc
    cases hc
  · intro c hc
    cases hc
  · intro c hc
    cases hc
  · intro s hs
    cases hs

theorem Held.step (h : Held models w) {call : DecodeCall} (hknown : DecodeWorld.Known models call)
    (hintact : w.Intact call) (hstep : w.step call = some w') : Held models w' := by
  cases call with
  | withDims nLayers nKvHeads headDim =>
    cases hstep
    exact h.mint Held.mem_push rfl (.of_unknown rfl) (by simp [withDims])
  | withCapacity nLayers nKvHeads headDim maxSeqLen dtype device ptrs =>
    cases hstep
    have hlocated := located_withCapacity w.nextAlloc nLayers nKvHeads headDim maxSeqLen
      dtype device ptrs
    exact h.mint Held.mem_push rfl hlocated (by simp [withCapacity])
  | setLayer i li layer =>
    obtain ⟨c, hc, hstep⟩ := bind_eq_some_iff.mp hstep
    obtain ⟨c', hc', hstep⟩ := bind_eq_some_iff.mp hstep
    cases hstep
    unfold setLayer at hc'
    split_ifs at hc' with hlt
    cases hc'
    exact h.mint Held.mem_set rfl (.of_unknown rfl) (h.typed c (mem_of_getElem? hc))
  | clear i =>
    obtain ⟨c, hc, hstep⟩ := bind_eq_some_iff.mp hstep
    cases hstep
    exact h.mint Held.mem_set rfl (.of_unknown rfl) (h.typed c (mem_of_getElem? hc))
  | truncateTo i newLen =>
    obtain ⟨c, hc, hstep⟩ := bind_eq_some_iff.mp hstep
    cases hstep
    exact h.same hc (c.sameAllocation_truncateTo newLen)
  | layerMut i li layer =>
    obtain ⟨c, hc, hstep⟩ := bind_eq_some_iff.mp hstep
    cases hstep
    obtain ⟨hunwelded, hlocation⟩ := hintact c hc
    have hmem := mem_of_getElem? hc
    have hrest : (c.layerMut li layer).allocId = c.allocId ∧
        (c.layerMut li layer).maxSeqLen = c.maxSeqLen ∧ (c.layerMut li layer).dtype = c.dtype := by
      unfold layerMut
      split <;> exact ⟨rfl, rfl, rfl⟩
    refine h.keepId hc hrest.1 ((h.located c hmem).layerMut hlocation) ?_ ?_
    · rw [hrest.2.1, hrest.2.2]
      exact h.typed c hmem
    · intro s hs heq
      exact absurd heq.symm (hunwelded s hs)
  | forward env m seq i =>
    obtain ⟨c, hc, hstep⟩ := bind_eq_some_iff.mp hstep
    cases hstep
    obtain ⟨hsame, hplan, -⟩ := h.persistent hc hknown env seq rfl
    exact (h.weld hc hplan).same hc hsame
  | invalidatePair locks m seq i =>
    obtain ⟨c, hc, hstep⟩ := bind_eq_some_iff.mp hstep
    cases hstep
    obtain ⟨hserve, -⟩ := h.refresh (m := m) hc locks seq rfl
    refine h.weld hc ?_
    intro s hs
    obtain ⟨-, hs⟩ := hserve s hs
    exact ⟨hs.sound, hs.model, hs.allocId, hs.welded⟩
  | capture =>
    cases hstep
    exact ⟨h.minted, h.distinct, h.located, h.typed, h.plan⟩

/-- Calls by the models, that meet the condition. -/
def DecodeWorld.Guarded (models : Set DecodeModel) (w : DecodeWorld) (c : DecodeCall) : Prop :=
  DecodeWorld.Known models c ∧ w.Intact c

theorem DecodeWorld.Reached.held (h : Reached (DecodeWorld.Guarded models) w) : Held models w := by
  induction h with
  | new => exact Held.new models
  | call _ hc hstep ih => exact ih.step hc.1 hc.2 hstep

/-- The plan is for the model and the cache: the storages bound to its KV nodes are those of the
cache, where they were when it was optimized, and its graph has the shape and dtype of the cache. -/
structure RunsOn (s : DecodeSession) (m : DecodeModel) (c : KvCache) : Prop where
  model : s.graph.model = m
  layers : s.nLayers = m.nLayers
  storages : ∀ li slot, li < s.nLayers → ∃ arc, s.bound li slot = some arc ∧
    c.slotStorage li slot = some arc ∧ s.graph.kvLocation li slot = some arc.location
  kvShape : ∃ n, c.maxSeqLen = some n ∧ s.graph.kvShape = [1, c.nKvHeads, n, c.headDim]
  kvDtype : c.dtype = some s.graph.kvDtype

theorem Serves.runsOn {m : DecodeModel} {c : KvCache} {s : DecodeSession}
    (h : Serves models m c s) (hkeys : Set.InjOn DecodeModel.shapeKey models) (hm : m ∈ models)
    (hgeom : c.nKvHeads = m.nKvHeads ∧ c.headDim = m.headDim)
    (htyped : c.maxSeqLen.isSome → c.dtype.isSome) : RunsOn s m c := by
  have hmodel : s.graph.model = m := hkeys h.model hm (h.sound.shapeKey.symm.trans h.shapeKey)
  refine ⟨hmodel, h.nLayers, ?_, ⟨s.maxSeqLen, h.maxSeqLen, ?_⟩, ?_⟩
  · intro li slot hli
    obtain ⟨arc, hbound, hlocation⟩ := h.sound.located li slot hli
    exact ⟨arc, hbound, (h.welded li slot hli).symm.trans hbound, hlocation⟩
  · rw [h.sound.kvShape, hmodel, hgeom.1, hgeom.2]
  · obtain ⟨dt, hdt⟩ := isSome_iff_exists.mp (htyped (by rw [h.maxSeqLen]; rfl))
    rw [h.sound.kvDtype, ← h.dtype, planDtype, hdt]
    rfl

/-- In every run of decode steps, of any models with distinct shape keys over any caches, and of
calls on the caches, in which tokens are decoded on caches of the model's KV geometry and
`layer_mut` replaces no storage of the cache the plan is for: a held plan that is kept or rebound
runs on the storages of the cache it is handed. A refused rebind changes nothing, and whenever the
plan is rebound or dropped the capture is cleared. -/
theorem held_plan_runs_on_its_cache (hkeys : Set.InjOn DecodeModel.shapeKey models)
    (h : DecodeWorld.Reached (DecodeWorld.Guarded models) w) :
    (∀ call d s m c, DecodeWorld.Guarded models w call → w.runs call = some (d, s, m, c) →
      (d = .kept ∨ d = .rebound) ∧ RunsOn s m c) ∧
    (∀ (locks : StorageArc → Bool) (kv : KvCache) (s s' : DecodeSession) r,
      s.rebindKv locks kv = (.error r, s') → s'.baseCache = s.baseCache ∧ s'.allocId = s.allocId) ∧
    ∀ (locks : StorageArc → Bool) m seq c w', w.step (.invalidatePair locks m seq c) = some w' →
      ∀ cache, w.caches[c]? = some cache →
      (w.invalidate locks m seq cache).1.disposition = .rebound ∨
        (∃ refusal, (w.invalidate locks m seq cache).1.disposition = .dropped refusal) →
      w'.captured = none := by
  have hheld := h.held
  refine ⟨?_, ?_, ?_⟩
  · intro call d s m c hcall hruns
    cases call with
    | forward env m' seq i =>
      obtain ⟨c', hc, hruns⟩ := bind_eq_some_iff.mp hruns
      obtain ⟨⟨d', s'⟩, hexec, hruns⟩ := bind_eq_some_iff.mp hruns
      cases hruns
      obtain ⟨-, -, hran⟩ := hheld.persistent hc hcall.1 env seq rfl
      obtain ⟨hseq, hd, hserves⟩ := hran d s hexec
      exact ⟨hd, hserves.runsOn hkeys hcall.1 (hcall.2 hseq c hc)
        (hheld.typed c (mem_of_getElem? hc))⟩
    | invalidatePair locks m' seq i =>
      obtain ⟨c', hc, hruns⟩ := bind_eq_some_iff.mp hruns
      obtain ⟨s', hs', hruns⟩ := bind_eq_some_iff.mp hruns
      cases hruns
      obtain ⟨hserve, -⟩ := hheld.refresh (m := m) hc locks seq rfl
      obtain ⟨hd, hserves⟩ := hserve s hs'
      exact ⟨hd, hserves.runsOn hkeys hcall.1 (hcall.2 c hc)
        (hheld.typed c (mem_of_getElem? hc))⟩
    | _ => cases hruns
  · intro locks kv s s' r hrun
    rcases rebindKv_cases locks kv s with ⟨r', herr⟩ | ⟨base, loc, hok, -⟩
    · rw [herr, Prod.mk.injEq] at hrun
      rw [← hrun.2]
      exact ⟨rfl, rfl⟩
    · rw [hok] at hrun
      cases hrun
  · intro locks m seq i w' hstep c hc hdisp
    obtain ⟨c', hc', hstep⟩ := bind_eq_some_iff.mp hstep
    obtain rfl : c' = c := mem_unique hc' hc
    cases hstep
    obtain ⟨-, hretired⟩ := hheld.refresh (m := m) hc locks seq rfl
    have hretired : (w.invalidate locks m seq c').1.retired = true := by
      apply hretired
      · intro habs
        rcases hdisp with hd | ⟨refusal, hd⟩ <;> exact absurd (hd.symm.trans habs) (by simp)
      · intro habs
        rcases hdisp with hd | ⟨refusal, hd⟩ <;> exact absurd (hd.symm.trans habs) (by simp)
    show (if (w.invalidate locks m seq c').1.retired then none else w.captured) = none
    rw [hretired]
    rfl

/-! ## Two models over two caches -/

def smallModel : DecodeModel := ⟨7, 1, 2, 4⟩

def otherModel : DecodeModel := ⟨8, 1, 2, 4⟩

def healthyEnv : StepEnv where
  locks := fun _ => true
  nodes := ⟨id, strictMono_id⟩
  prepared := true
  refuses := fun _ => false
  finished := true
  data := fun n => zeroed 1 1 1 .f32 .cpu n
  deviceOffset := false
  weights := fun _ => none
  built := true
  held := .ok
  rebuilt := true

/-- A cache of the models' capacity, whose storages are at `ptr` and after it. -/
def smallCache (device : DeviceLocation) (ptr : Nat) : DecodeCall :=
  .withCapacity 1 2 4 8 .f32 device fun n => ptr + n

/-- A layer of such a cache. -/
def smallLayer (device : DeviceLocation) (ptr : Nat) : KvLayer :=
  ⟨zeroed 2 4 8 .f32 device ptr, zeroed 2 4 8 .f32 device (ptr + 1)⟩

/-- The other model's plan for the second cache is rebound to the first. -/
theorem rebound_plan_runs_on_first_cache :
    ∃ w s c, DecodeWorld.Reached (DecodeWorld.Guarded {smallModel, otherModel}) w ∧
      w.runs (.forward healthyEnv otherModel 1 0) = some (.rebound, s, otherModel, c) ∧
      RunsOn s otherModel c := by
  have hkeys : Set.InjOn DecodeModel.shapeKey {smallModel, otherModel} := by
    rintro m (rfl | rfl) m' (rfl | rfl) heq
    · rfl
    · exact absurd heq (by decide)
    · exact absurd heq (by decide)
    · rfl
  have hsmall : smallModel ∈ ({smallModel, otherModel} : Set DecodeModel) := .inl rfl
  have hother : otherModel ∈ ({smallModel, otherModel} : Set DecodeModel) := .inr rfl
  have hreached : DecodeWorld.Reached (DecodeWorld.Guarded {smallModel, otherModel}) .new := .new
  have hreached := hreached.call (c := smallCache .cpu 10) ⟨trivial, trivial⟩ rfl
  have hreached := hreached.call (c := smallCache .cpu 20) ⟨trivial, trivial⟩ rfl
  have hreached := hreached.call (c := .forward healthyEnv smallModel 1 0)
    ⟨hsmall, fun _ _ hc => by cases hc; exact ⟨rfl, rfl⟩⟩ rfl
  have hreached := hreached.call (c := .forward healthyEnv otherModel 1 1)
    ⟨hother, fun _ _ hc => by cases hc; exact ⟨rfl, rfl⟩⟩ rfl
  refine ⟨_, _, _, hreached, rfl, ?_⟩
  refine ((held_plan_runs_on_its_cache hkeys hreached).1 (.forward healthyEnv otherModel 1 0)
    _ _ _ _ ⟨hother, fun _ _ hc => ?_⟩ rfl).2
  cases hc
  exact ⟨rfl, rfl⟩

/-- A run of calls by the small model alone. -/
def SmallRun : DecodeWorld → Prop :=
  DecodeWorld.Reached fun _ => DecodeWorld.Known {smallModel}

/-- Three runs after which a plan runs that is not for the cache: the layer was replaced through
`layer_mut` and the plan kept; the second cache has twice the heads of half the width; the layer the
plan was built on was replaced by one on another device than the cache records. -/
theorem held_plan_runs_on_other_buffers :
    (∃ w s c, SmallRun w ∧
      w.runs (.forward healthyEnv smallModel 1 0) = some (.kept, s, smallModel, c) ∧
      s.bound 0 .k ≠ c.slotStorage 0 .k) ∧
    (∃ w s c, SmallRun w ∧
      w.runs (.forward healthyEnv smallModel 1 1) = some (.rebound, s, smallModel, c) ∧
      s.graph.kvShape = [1, 2, 8, 4] ∧ c.nKvHeads = 4 ∧ c.headDim = 2) ∧
    ∃ w s c, SmallRun w ∧
      w.runs (.forward healthyEnv smallModel 1 1) = some (.rebound, s, smallModel, c) ∧
      s.graph.kvLocation 0 .k = some (.cuda 1) ∧
      (s.bound 0 .k).map StorageArc.location = some (.cuda 0) := by
  have hnew : SmallRun .new := .new
  have hmodel : smallModel ∈ ({smallModel} : Set DecodeModel) := rfl
  refine ⟨?_, ?_, ?_⟩
  · have hrun := hnew.call (c := smallCache .cpu 10) trivial rfl
    have hrun := hrun.call (c := .forward healthyEnv smallModel 1 0) hmodel rfl
    have hrun := hrun.call (c := .layerMut 0 0 (smallLayer .cpu 30)) trivial rfl
    refine ⟨_, _, _, hrun, rfl, ?_⟩
    decide
  · have hrun := hnew.call (c := smallCache .cpu 10) trivial rfl
    have hrun := hrun.call (c := .withCapacity 1 4 2 8 .f32 .cpu fun n => 20 + n) trivial rfl
    have hrun := hrun.call (c := .forward healthyEnv smallModel 1 0) hmodel rfl
    exact ⟨_, _, _, hrun, rfl, rfl, rfl, rfl⟩
  · have hrun := hnew.call (c := smallCache (.cuda 0) 10) trivial rfl
    have hrun := hrun.call (c := .layerMut 0 0 (smallLayer (.cuda 1) 30)) trivial rfl
    have hrun := hrun.call (c := .forward healthyEnv smallModel 1 0) hmodel rfl
    have hrun := hrun.call (c := smallCache (.cuda 0) 20) trivial rfl
    exact ⟨_, _, _, hrun, rfl, rfl, rfl⟩

end Runs

end Fuel.Decode
