import Fuel.Decode.KvCache

/-!
# The held decode plan

`DecodeSession` (`fuel-tensor/src/inference_context.rs`), the decision what
becomes of it at the top of a decode step (`fuel-tensor/src/lazy.rs`) and the
persistent decode entry point (`fuel-tensor/src/persistent_decode.rs`). A plan is
an optimized graph with the storages of its constants; a step on a held plan
rebinds the data of the token only, so the plan runs on the KV storages that are
in its `base_cache`.

What a realize computes is not modelled; whether it succeeds is a parameter of
the step.
-/

namespace Fuel.Decode

open Fuel.IR

/-- A model instance, as far as its decode plan depends on it. -/
structure DecodeModel where
  shapeKey : UInt64
  nLayers : Nat
  nKvHeads : Nat
  headDim : Nat
  deriving DecidableEq, Repr

/-- `StorageCache`, and the persistent map of an `InferenceContext`. -/
abbrev StorageCache := NodeId → Option StorageArc

/-- The placeholder nodes of a decode graph, in the order they are minted. -/
structure Minted where
  ids : Nat → NodeId
  mono : StrictMono ids

namespace Minted

variable (n : Minted)

def tokenIds : NodeId := n.ids 0
def ropeCos : NodeId := n.ids 1
def ropeSin : NodeId := n.ids 2
def mask : NodeId := n.ids 3
def offset : NodeId := n.ids 4
def kvNode (li : Nat) : KvSlot → NodeId
  | .k => n.ids (5 + 2 * li)
  | .v => n.ids (6 + 2 * li)

end Minted

/-- The nodes removed from a map. -/
def removeAll (nodes : List NodeId) (ctx : StorageCache) : StorageCache :=
  fun n => if n ∈ nodes then none else ctx n

/-- The data nodes of a decode graph, without the offset. -/
def Minted.dataNodes (n : Minted) : List NodeId := [n.tokenIds, n.ropeCos, n.ropeSin, n.mask]

/-- The slots of `nLayers` layers, K before V in each. -/
def kvSlots (nLayers : Nat) : List (Nat × KvSlot) :=
  (List.range nLayers).flatMap fun li => [(li, .k), (li, .v)]

/-- `kv_nodes`, flattened. -/
def Minted.kvNodes (n : Minted) (nLayers : Nat) : List NodeId :=
  (kvSlots nLayers).map fun e => n.kvNode e.1 e.2

/-- What is baked into the graph of a plan: the model whose weights it has, the shape and dtype of
the KV constants, and where they lived when it was optimized. -/
structure BakedGraph where
  model : DecodeModel
  kvShape : List Nat
  kvDtype : DType
  kvLocation : Nat → KvSlot → Option DeviceLocation

/-- `DecodeSession`. The nodes of layer `li < nLayers` are `nodes.kvNode li`. -/
structure DecodeSession where
  graph : BakedGraph
  nodes : Minted
  baseCache : StorageCache
  seq : Nat
  maxSeqLen : Nat
  nLayers : Nat
  cacheDtype : DType
  shapeKey : UInt64
  allocId : KvAllocId
  kvLocation : Option DeviceLocation

/-- The storage bound to a KV node of the plan. -/
def DecodeSession.bound (s : DecodeSession) (li : Nat) (slot : KvSlot) : Option StorageArc :=
  s.baseCache (s.nodes.kvNode li slot)

inductive PlanValidity where
  | valid
  | allocationChanged
  | stale
  deriving DecidableEq, Repr

inductive RebindRefusal where
  | residencyUnknown
  | residencyDiffers (baked incoming : DeviceLocation)
  | missingSlot (layer : Nat) (slot : KvSlot)
  | unbakedSlot (layer : Nat) (slot : KvSlot)
  | storageDiffers (layer : Nat) (slot : KvSlot)
  | lockPoisoned
  deriving DecidableEq, Repr

/-- `storage_is_interchangeable`; `locks` are the storages whose lock is not poisoned. -/
def storageIsInterchangeable (locks : StorageArc → Bool) (baked incoming : StorageArc) :
    Option Bool :=
  if baked.ptr = incoming.ptr then some true
  else if locks baked && locks incoming then
    some (decide (baked.fingerprint = incoming.fingerprint))
  else none

namespace DecodeSession

/-- `validity_for`. -/
def validityFor (s : DecodeSession) (seq maxSeqLen nLayers : Nat) (cacheDtype : DType)
    (shapeKey : UInt64) (allocId : KvAllocId) : PlanValidity :=
  if s.seq = seq ∧ s.maxSeqLen = maxSeqLen ∧ s.nLayers = nLayers ∧ s.cacheDtype = cacheDtype ∧
      s.shapeKey = shapeKey then
    if s.allocId = allocId then .valid else .allocationChanged
  else .stale

/-- The loop body of `rebind_kv`: the incoming storage of a slot, if it may stand in. -/
def stageSlot (locks : StorageArc → Bool) (kv : KvCache) (s : DecodeSession) (li : Nat)
    (slot : KvSlot) : Except RebindRefusal (NodeId × StorageArc) :=
  match kv.slotStorage li slot with
  | none => .error (.missingSlot li slot)
  | some incoming =>
    match s.bound li slot with
    | none => .error (.unbakedSlot li slot)
    | some baked =>
      match storageIsInterchangeable locks baked incoming with
      | none => .error .lockPoisoned
      | some false => .error (.storageDiffers li slot)
      | some true => .ok (s.nodes.kvNode li slot, incoming)

/-- The staging loop of `rebind_kv`, over the slots in order. -/
def stageAll (locks : StorageArc → Bool) (kv : KvCache) (s : DecodeSession) :
    List (Nat × KvSlot) → Except RebindRefusal (List (NodeId × StorageArc))
  | [] => .ok []
  | (li, slot) :: rest =>
    match s.stageSlot locks kv li slot with
    | .error e => .error e
    | .ok entry =>
      match s.stageAll locks kv rest with
      | .error e => .error e
      | .ok entries => .ok (entry :: entries)

/-- `rebind_kv`: the result, and the session it leaves. -/
def rebindKv (locks : StorageArc → Bool) (kv : KvCache) (s : DecodeSession) :
    Except RebindRefusal Unit × DecodeSession :=
  match kv.deviceLocation with
  | none => (.error .residencyUnknown, s)
  | some incoming =>
    match s.kvLocation with
    | none => (.error .residencyUnknown, s)
    | some baked =>
      if baked ≠ incoming then (.error (.residencyDiffers baked incoming), s)
      else
        match s.stageAll locks kv (kvSlots s.nLayers) with
        | .error e => (.error e, s)
        | .ok staged =>
          (.ok (), { s with
            baseCache := staged.foldl (fun cache e => Function.update cache e.1 (some e.2)) s.baseCache
            allocId := kv.allocId })

end DecodeSession

/-! ## The decision -/

inductive SessionDisposition where
  | absent
  | kept
  | rebound
  | dropped (refusal : Option RebindRefusal)
  deriving DecidableEq, Repr

/-- `drop_decode_session`, on the context's map. -/
def dropDecodeSession (session : Option DecodeSession) (ctx : StorageCache) : StorageCache :=
  match session with
  | none => ctx
  | some s => removeAll (s.nodes.dataNodes ++ s.nodes.kvNodes s.nLayers) ctx

/-- What `refresh_decode_session` leaves; `retired` if `on_invalidate` was called. -/
structure Refreshed where
  disposition : SessionDisposition
  session : Option DecodeSession
  ctx : StorageCache
  retired : Bool

/-- `refresh_decode_session`. -/
def refreshDecodeSession (locks : StorageArc → Bool) (session : Option DecodeSession)
    (ctx : StorageCache) (seq : Nat) (maxSeqLen : Option Nat) (cacheDtype : DType) (nLayers : Nat)
    (shapeKey : UInt64) (kv : KvCache) : Refreshed :=
  match session with
  | none => ⟨.absent, none, ctx, false⟩
  | some s =>
    let verdict := match maxSeqLen with
      | some msl => s.validityFor seq msl nLayers cacheDtype shapeKey kv.allocId
      | none => .stale
    match verdict with
    | .valid => ⟨.kept, some s, ctx, false⟩
    | .allocationChanged =>
      match s.rebindKv locks kv with
      | (.ok (), s') => ⟨.rebound, some s', ctx, true⟩
      | (.error r, s') => ⟨.dropped (some r), none, dropDecodeSession (some s') ctx, true⟩
    | .stale => ⟨.dropped none, none, dropDecodeSession (some s) ctx, true⟩

/-- `invalidate_decode_pair_if_stale`: the capture is cleared when the readers are retired. -/
def invalidateDecodePairIfStale {C : Type} (locks : StorageArc → Bool)
    (session : Option DecodeSession) (captured : Option C) (ctx : StorageCache) (seq : Nat)
    (maxSeqLen : Option Nat) (cacheDtype : DType) (nLayers : Nat) (shapeKey : UInt64)
    (kv : KvCache) : Refreshed × Option C :=
  let r := refreshDecodeSession locks session ctx seq maxSeqLen cacheDtype nLayers shapeKey kv
  (r, if r.retired then none else captured)

/-! ## Building a plan -/

/-- `DataConsts`: the data constants are baked (D1), or bound again for every token (D2). -/
inductive DataConsts where
  | baked
  | rebindable
  deriving DecidableEq, Repr

inductive BuildError where
  | zeroTokens
  | layerCount (cache model : Nat)
  | noCapacity
  | overLength (cachedLen seq maxSeqLen : Nat)
  | kvGeometry (cacheHeads cacheDim modelHeads modelDim : Nat)
  | missingSlot (layer : Nat) (slot : KvSlot)
  | unprepared
  | layerRefused (layer : Nat)
  | unfinished
  deriving DecidableEq, Repr

/-- The checks at the top of `build_decode_graph`: the capacity, if they pass. Only the baked
variant compares the geometry of the cache. -/
def buildChecks (model : DecodeModel) (consts : DataConsts) (seq : Nat) (cache : KvCache) :
    Except BuildError Nat :=
  if seq = 0 then .error .zeroTokens
  else if cache.layers.length ≠ model.nLayers then
    .error (.layerCount cache.layers.length model.nLayers)
  else
    match cache.maxSeqLen with
    | none => .error .noCapacity
    | some msl =>
      if cache.cachedLen + seq > msl then .error (.overLength cache.cachedLen seq msl)
      else if consts = .baked ∧ (cache.nKvHeads ≠ model.nKvHeads ∨ cache.headDim ≠ model.headDim) then
        .error (.kvGeometry cache.nKvHeads cache.headDim model.nKvHeads model.headDim)
      else .ok msl

/-- The layer loop of `build_decode_graph`: the K and V storages, bound into the context. The layers
before one that has no storage stay bound, and so does one the model refuses to build. -/
def bindLayers (cache : KvCache) (nodes : Minted) (refuses : Nat → Bool) :
    List Nat → StorageCache → Option BuildError × StorageCache
  | [], ctx => (none, ctx)
  | li :: rest, ctx =>
    match cache.slotStorage li .k with
    | none => (some (.missingSlot li .k), ctx)
    | some k =>
      match cache.slotStorage li .v with
      | none => (some (.missingSlot li .v), ctx)
      | some v =>
        let ctx := Function.update (Function.update ctx (nodes.kvNode li .k) (some k))
          (nodes.kvNode li .v) (some v)
        if refuses li then (some (.layerRefused li), ctx)
        else bindLayers cache nodes refuses rest ctx

/-- The first token's data, bound into the context. -/
def bindData (nodes : Minted) (data : Nat → StorageArc) (deviceOffset : Bool)
    (ctx : StorageCache) : StorageCache :=
  let ctx := Function.update ctx nodes.tokenIds (some (data 0))
  let ctx := Function.update ctx nodes.ropeCos (some (data 1))
  let ctx := Function.update ctx nodes.ropeSin (some (data 2))
  let ctx := Function.update ctx nodes.mask (some (data 3))
  if deviceOffset then Function.update ctx nodes.offset (some (data 4)) else ctx

/-- How a realize of the held plan ended. -/
inductive Realized where
  | ok
  | topologyChanged
  | failed
  deriving DecidableEq, Repr

/-- What a step cannot know: which locks are poisoned, the nodes the graph mints, whether it can be
built up to the first layer, the layers the model refuses, whether it can be finished and its data
uploaded, the storages that are uploaded, and which realizes succeed. -/
structure StepEnv where
  locks : StorageArc → Bool
  nodes : Minted
  prepared : Bool
  refuses : Nat → Bool
  finished : Bool
  data : Nat → StorageArc
  deviceOffset : Bool
  weights : StorageCache
  built : Bool
  held : Realized
  rebuilt : Bool

/-- `build_decode_graph` up to the layer loop. -/
def prepareGraph (env : StepEnv) (model : DecodeModel) (consts : DataConsts) (seq : Nat)
    (cache : KvCache) : Except BuildError Nat := do
  let maxSeqLen ← buildChecks model consts seq cache
  if env.prepared then pure maxSeqLen else throw .unprepared

/-- `build_decode_graph`: the capacity, and the context. -/
def buildDecodeGraph (env : StepEnv) (model : DecodeModel) (consts : DataConsts) (seq : Nat)
    (cache : KvCache) (ctx : StorageCache) : Except BuildError Nat × StorageCache :=
  match prepareGraph env model consts seq cache with
  | .error e => (.error e, ctx)
  | .ok maxSeqLen =>
    match bindLayers cache env.nodes env.refuses (List.range model.nLayers) ctx with
    | (some e, ctx) => (.error e, ctx)
    | (none, ctx) => (if env.finished then .ok maxSeqLen else .error .unfinished, ctx)

/-- `build_and_realize_first_decode_token`: the session, the cache and the context. The bindings of
the graph are removed from the context once the session has them. -/
def buildAndRealizeFirstDecodeToken (env : StepEnv) (model : DecodeModel) (seq : Nat)
    (cache : KvCache) (ctx : StorageCache) : Option DecodeSession × KvCache × StorageCache :=
  match buildDecodeGraph env model .rebindable seq cache ctx with
  | (.error _, ctx) => (none, cache, ctx)
  | (.ok maxSeqLen, ctx) =>
    let bound := bindData env.nodes env.data env.deviceOffset ctx
    if env.built then
      -- the persistent bindings take precedence over what is uploaded
      let baseCache : StorageCache := fun n => (bound n).or (env.weights n)
      let session : DecodeSession :=
        { graph :=
            { model := model
              kvShape := [1, model.nKvHeads, maxSeqLen, model.headDim]
              kvDtype := cache.planDtype
              kvLocation := fun li slot => (cache.slotStorage li slot).map StorageArc.location }
          nodes := env.nodes
          baseCache := baseCache
          seq := seq
          maxSeqLen := maxSeqLen
          nLayers := model.nLayers
          cacheDtype := cache.planDtype
          shapeKey := model.shapeKey
          allocId := cache.allocId
          kvLocation := cache.deviceLocation }
      (some session, cache.advance seq, removeAll (env.nodes.dataNodes ++
        (if env.deviceOffset then [env.nodes.offset] else []) ++ env.nodes.kvNodes model.nLayers)
        bound)
    else (none, cache, bound)

/-- `forward_with_kv_context` (D1): the cache and the context. The graph dies with the call. -/
def forwardWithKvContext (env : StepEnv) (model : DecodeModel) (seq : Nat) (cache : KvCache)
    (ctx : StorageCache) : KvCache × StorageCache :=
  match buildDecodeGraph env model .baked seq cache ctx with
  | (.error _, ctx) => (cache, ctx)
  | (.ok _, bound) =>
    if env.rebuilt then (cache.advance seq, removeAll (env.nodes.kvNodes model.nLayers) bound)
    else (cache, bound)

/-- What a persistent step leaves. `executed` is the held plan it ran, with the disposition, if it
ran one. -/
structure Stepped where
  session : Option DecodeSession
  cache : KvCache
  ctx : StorageCache
  executed : Option (SessionDisposition × DecodeSession)

/-- `forward_with_kv_context_persistent`. -/
def forwardWithKvContextPersistent (env : StepEnv) (model : DecodeModel) (seq : Nat)
    (cache : KvCache) (ctx : StorageCache) (session : Option DecodeSession) : Stepped :=
  if seq ≠ 1 then
    let (cache, ctx) := forwardWithKvContext env model seq cache (dropDecodeSession session ctx)
    ⟨none, cache, ctx, none⟩
  else
    let r := refreshDecodeSession env.locks session ctx seq cache.maxSeqLen cache.planDtype
      model.nLayers model.shapeKey cache
    match r.session with
    | none =>
      let (session, cache, ctx) := buildAndRealizeFirstDecodeToken env model seq cache r.ctx
      ⟨session, cache, ctx, none⟩
    | some s =>
      let executed := some (r.disposition, s)
      match env.held with
      | .ok => ⟨some s, cache.advance seq, r.ctx, executed⟩
      | .topologyChanged =>
        let (cache, ctx) := forwardWithKvContext env model seq cache
          (dropDecodeSession (some s) r.ctx)
        ⟨none, cache, ctx, executed⟩
      | .failed => ⟨some s, cache, r.ctx, executed⟩

end Fuel.Decode
