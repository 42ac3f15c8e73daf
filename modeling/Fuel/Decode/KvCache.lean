import Fuel.IR.Op

/-!
# The KV cache of a decode loop

`KvCache` of `fuel-tensor/src/inference_context.rs`: two storages per layer,
the geometry they were allocated for, and the id of the allocation. The write
versions, layouts and coherence authorities of a layer are left out: nothing
modelled here reads them.
-/

namespace Fuel.Decode

open Fuel.IR

/-- The encoding of a storage. Only its equality is used. -/
structure SType where
  descriptor : List Nat
  deriving DecidableEq, Repr

/-- `StorageFingerprint`: what a baked graph depends on and the storage itself shows. -/
structure StorageFingerprint where
  dtype : DType
  stype : SType
  bundled : Bool
  backend : BackendId
  lenBytes : Nat
  deriving DecidableEq, Repr

/-- An `Arc` of a storage: what it points to, what can be read there, and where it lives, which
cannot be read. -/
structure StorageArc where
  ptr : Nat
  fingerprint : StorageFingerprint
  location : DeviceLocation
  deriving DecidableEq, Repr

structure KvLayer where
  k : StorageArc
  v : StorageArc
  deriving DecidableEq, Repr

inductive KvSlot where
  | k
  | v
  deriving DecidableEq, Repr

def KvLayer.slot (layer : KvLayer) : KvSlot → StorageArc
  | .k => layer.k
  | .v => layer.v

/-- `KvAllocId`. -/
abbrev KvAllocId := Nat

structure KvCache where
  layers : List (Option KvLayer)
  cachedLen : Nat
  nKvHeads : Nat
  headDim : Nat
  allocId : KvAllocId
  maxSeqLen : Option Nat
  dtype : Option DType
  deviceLocation : Option DeviceLocation
  deriving DecidableEq, Repr

namespace KvCache

/-- `with_dims`. -/
def withDims (id : KvAllocId) (nLayers nKvHeads headDim : Nat) : KvCache where
  layers := List.replicate nLayers none
  cachedLen := 0
  nKvHeads := nKvHeads
  headDim := headDim
  allocId := id
  maxSeqLen := none
  dtype := none
  deviceLocation := none

/-- A zeroed buffer of `[1, nKvHeads, maxSeqLen, headDim]` elements, allocated on a device. -/
def zeroed (nKvHeads headDim maxSeqLen : Nat) (dtype : DType) (device : DeviceLocation)
    (ptr : Nat) : StorageArc where
  ptr := ptr
  fingerprint :=
    { dtype := dtype
      stype := ⟨[]⟩
      bundled := false
      backend := device.backend
      lenBytes := nKvHeads * maxSeqLen * headDim * dtype.sizeInBytes }
  location := device

/-- `with_capacity`; `ptrs` are the addresses the executor allocated, K before V. -/
def withCapacity (id : KvAllocId) (nLayers nKvHeads headDim maxSeqLen : Nat) (dtype : DType)
    (device : DeviceLocation) (ptrs : Nat → Nat) : KvCache where
  layers := (List.range nLayers).map fun l =>
    some ⟨zeroed nKvHeads headDim maxSeqLen dtype device (ptrs (2 * l)),
      zeroed nKvHeads headDim maxSeqLen dtype device (ptrs (2 * l + 1))⟩
  cachedLen := 0
  nKvHeads := nKvHeads
  headDim := headDim
  allocId := id
  maxSeqLen := some maxSeqLen
  dtype := some dtype
  deviceLocation := some device

/-- `layer`. -/
def layer (c : KvCache) (li : Nat) : Option KvLayer := (c.layers[li]?).join

/-- `slot_storage`. -/
def slotStorage (c : KvCache) (li : Nat) (slot : KvSlot) : Option StorageArc :=
  (c.layer li).map fun l => l.slot slot

/-- `set_layer`; `none` if the index is out of range, which panics. -/
def setLayer (c : KvCache) (id : KvAllocId) (li : Nat) (layer : KvLayer) : Option KvCache :=
  if li < c.layers.length then
    some { c with layers := c.layers.set li (some layer), allocId := id, deviceLocation := none }
  else none

/-- `clear`. -/
def clear (c : KvCache) (id : KvAllocId) : KvCache :=
  { c with
    layers := c.layers.map fun _ => none
    cachedLen := 0
    allocId := id
    deviceLocation := none }

/-- `truncate_to`. -/
def truncateTo (c : KvCache) (newLen : Nat) : KvCache :=
  if newLen < c.cachedLen then { c with cachedLen := newLen } else c

/-- The storages of a layer replaced through the reference that `layer_mut` returns. -/
def layerMut (c : KvCache) (li : Nat) (layer : KvLayer) : KvCache :=
  match c.layer li with
  | none => c
  | some _ => { c with layers := c.layers.set li (some layer) }

/-- `cached_len` after a step. -/
def advance (c : KvCache) (seq : Nat) : KvCache := { c with cachedLen := c.cachedLen + seq }

/-- The dtype a plan is built for. -/
def planDtype (c : KvCache) : DType := c.dtype.getD .f32

/-! ## Where the storages live -/

/-- A recorded location is where every storage of the cache lives. -/
def Located (c : KvCache) : Prop :=
  ∀ loc, c.deviceLocation = some loc → ∀ li slot arc, c.slotStorage li slot = some arc →
    arc.location = loc

theorem slotStorage_eq_some {c : KvCache} {li : Nat} {slot : KvSlot} {arc : StorageArc} :
    c.slotStorage li slot = some arc ↔ ∃ l, c.layers[li]? = some (some l) ∧ l.slot slot = arc := by
  simp only [slotStorage, layer, Option.map_eq_some_iff, Option.join_eq_some_iff]

theorem Located.of_unknown {c : KvCache} (h : c.deviceLocation = none) : c.Located := by
  intro loc hloc
  rw [h] at hloc
  cases hloc

theorem located_withCapacity (id : KvAllocId) (nLayers nKvHeads headDim maxSeqLen : Nat)
    (dtype : DType) (device : DeviceLocation) (ptrs : Nat → Nat) :
    (withCapacity id nLayers nKvHeads headDim maxSeqLen dtype device ptrs).Located := by
  intro loc hloc li slot arc harc
  cases hloc
  obtain ⟨l, hl, rfl⟩ := slotStorage_eq_some.mp harc
  simp only [withCapacity, List.getElem?_map, Option.map_eq_some_iff] at hl
  obtain ⟨i, -, hl⟩ := hl
  cases hl
  cases slot <;> rfl

/-- The same allocation, maybe with another length in use. -/
structure SameAllocation (c c' : KvCache) : Prop where
  layers : c'.layers = c.layers
  allocId : c'.allocId = c.allocId
  deviceLocation : c'.deviceLocation = c.deviceLocation
  maxSeqLen : c'.maxSeqLen = c.maxSeqLen
  dtype : c'.dtype = c.dtype

theorem SameAllocation.refl (c : KvCache) : SameAllocation c c := ⟨rfl, rfl, rfl, rfl, rfl⟩

theorem sameAllocation_advance (c : KvCache) (seq : Nat) : SameAllocation c (c.advance seq) :=
  ⟨rfl, rfl, rfl, rfl, rfl⟩

theorem sameAllocation_truncateTo (c : KvCache) (n : Nat) : SameAllocation c (c.truncateTo n) := by
  unfold truncateTo
  split
  · exact ⟨rfl, rfl, rfl, rfl, rfl⟩
  · exact .refl c

theorem SameAllocation.slotStorage {c c' : KvCache} (h : SameAllocation c c') (li : Nat)
    (slot : KvSlot) : c'.slotStorage li slot = c.slotStorage li slot := by
  rw [KvCache.slotStorage, KvCache.slotStorage, layer, layer, h.layers]

theorem SameAllocation.located {c c' : KvCache} (h : SameAllocation c c') (hc : c.Located) :
    c'.Located := by
  intro loc hl li slot arc harc
  rw [h.deviceLocation] at hl
  rw [h.slotStorage] at harc
  exact hc loc hl li slot arc harc

/-- A replaced layer that lives where the cache does. -/
theorem Located.layerMut {c : KvCache} (h : c.Located) {li : Nat} {new : KvLayer}
    (hnew : ∀ loc, c.deviceLocation = some loc → ∀ slot, (new.slot slot).location = loc) :
    (c.layerMut li new).Located := by
  unfold KvCache.layerMut
  split
  · exact h
  · intro loc hloc i slot arc harc
    obtain ⟨l, hl, rfl⟩ := slotStorage_eq_some.mp harc
    rw [List.getElem?_set] at hl
    split_ifs at hl with hi hlt
    · cases hl
      exact hnew loc hloc slot
    · exact h loc hloc i slot _ (slotStorage_eq_some.mpr ⟨l, hl, rfl⟩)

end KvCache

end Fuel.Decode
