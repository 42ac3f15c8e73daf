import Fuel.Decode.HeldPlan
import Fuel.Lib.Lists

/-!
# The storages of a held plan

A plan has the KV storages of one allocation baked in. A rebind binds those of
another cache, or refuses and changes nothing; a built plan has those of the cache
it was built on, where they lived then.
-/

namespace Fuel.Decode

open Fuel.IR Function

/-! ## The nodes of a graph -/

namespace Minted

variable {n : Minted}

theorem kvNode_inj {li li' : Nat} {slot slot' : KvSlot}
    (h : n.kvNode li slot = n.kvNode li' slot') : li = li' ∧ slot = slot' := by
  cases slot <;> cases slot'
  all_goals
    have hidx := n.mono.injective h
    simp only [and_true, and_false, reduceCtorEq]
    omega

theorem kvNode_ne_of_lt {i : Nat} (hi : i < 5) (li : Nat) (slot : KvSlot) :
    n.kvNode li slot ≠ n.ids i := by
  intro h
  cases slot
  all_goals
    have := n.mono.injective h
    omega

end Minted

variable {li : Nat} {slot : KvSlot} {s : DecodeSession}

theorem mem_kvSlots {nLayers : Nat} : (li, slot) ∈ kvSlots nLayers ↔ li < nLayers := by
  cases slot <;> simp [kvSlots]

/-- Bindings of the slots in a list, made one after the other. -/
theorem foldl_bind {n : Minted} {source : Nat → KvSlot → Option StorageArc}
    {l : List (Nat × KvSlot)} {entries : List (NodeId × StorageArc)}
    (h : List.Forall₂ (fun e entry => entry.1 = n.kvNode e.1 e.2 ∧ source e.1 e.2 = some entry.2) l
      entries) {cache : StorageCache}
    (hat : cache (n.kvNode li slot) = source li slot ∨ (li, slot) ∈ l) :
    entries.foldl (fun (cache : StorageCache) e => Function.update cache e.1 (some e.2)) cache
      (n.kvNode li slot) = source li slot := by
  induction h generalizing cache with
  | nil => simpa using hat
  | @cons e entry l entries he _ ih =>
    refine ih ?_
    by_cases heq : n.kvNode li slot = n.kvNode e.1 e.2
    · left
      obtain ⟨rfl, rfl⟩ := Minted.kvNode_inj heq
      dsimp only
      rw [he.1, update_self, he.2]
    rcases hat with hat | hat
    · left
      dsimp only
      rw [he.1, update_of_ne heq]
      exact hat
    · rcases List.mem_cons.mp hat with rfl | hmem
      · exact absurd rfl heq
      · exact .inr hmem

/-! ## Rebinding -/

theorem stageAll_ok {locks : StorageArc → Bool} {kv : KvCache} {l : List (Nat × KvSlot)}
    {staged : List (NodeId × StorageArc)} (h : s.stageAll locks kv l = .ok staged) :
    List.Forall₂ (fun e entry => entry.1 = s.nodes.kvNode e.1 e.2 ∧
      kv.slotStorage e.1 e.2 = some entry.2) l staged := by
  induction l generalizing staged with
  | nil =>
    cases h
    exact .nil
  | cons e l ih =>
    obtain ⟨li, slot⟩ := e
    unfold DecodeSession.stageAll at h
    split at h
    · cases h
    rename_i entry hentry
    split at h
    · cases h
    rename_i entries hentries
    cases h
    refine .cons ?_ (ih hentries)
    unfold DecodeSession.stageSlot at hentry
    split at hentry
    · cases hentry
    rename_i incoming hincoming
    split at hentry
    · cases hentry
    · split at hentry
      · cases hentry
      · cases hentry
      · cases hentry
        exact ⟨rfl, hincoming⟩

/-- A rebind either is refused and changes nothing, or binds every slot to the storage of the cache,
which lives where the plan was baked. -/
theorem rebindKv_cases (locks : StorageArc → Bool) (kv : KvCache) (s : DecodeSession) :
    (∃ r, s.rebindKv locks kv = (.error r, s)) ∨
    ∃ base loc, s.rebindKv locks kv = (.ok (), { s with baseCache := base, allocId := kv.allocId }) ∧
      kv.deviceLocation = some loc ∧ s.kvLocation = some loc ∧
      ∀ li slot, li < s.nLayers → base (s.nodes.kvNode li slot) = kv.slotStorage li slot ∧
        (kv.slotStorage li slot).isSome := by
  unfold DecodeSession.rebindKv
  cases hincoming : kv.deviceLocation with
  | none => exact .inl ⟨_, rfl⟩
  | some incoming =>
    cases hbaked : s.kvLocation with
    | none => exact .inl ⟨_, rfl⟩
    | some baked =>
      dsimp only
      split_ifs with hne
      · exact .inl ⟨_, rfl⟩
      obtain rfl : baked = incoming := not_not.mp hne
      cases hstage : s.stageAll locks kv (kvSlots s.nLayers) with
      | error e => exact .inl ⟨_, rfl⟩
      | ok staged =>
        refine .inr ⟨_, baked, rfl, rfl, rfl, ?_⟩
        intro li slot hli
        have hstaged := stageAll_ok hstage
        refine ⟨foldl_bind hstaged (.inr (mem_kvSlots.mpr hli)), ?_⟩
        have hmem : (li, slot) ∈ kvSlots s.nLayers := mem_kvSlots.mpr hli
        obtain ⟨entry, -, -, hentry⟩ := forall₂_exists hstaged hmem
        simp [hentry]

/-! ## Building -/

theorem bindLayers_ok {cache : KvCache} {n : Minted} {refuses : Nat → Bool} {l : List Nat}
    {ctx ctx' : StorageCache} (h : bindLayers cache n refuses l ctx = (none, ctx'))
    (hat : ctx (n.kvNode li slot) = cache.slotStorage li slot ∧ (cache.slotStorage li slot).isSome
      ∨ li ∈ l) :
    ctx' (n.kvNode li slot) = cache.slotStorage li slot ∧ (cache.slotStorage li slot).isSome := by
  induction l generalizing ctx with
  | nil =>
    cases h
    simpa using hat
  | cons i l ih =>
    unfold bindLayers at h
    split at h
    · cases h
    rename_i k hk
    split at h
    · cases h
    rename_i v hv
    dsimp only at h
    split at h
    · cases h
    refine ih h ?_
    by_cases hi : li = i
    · left
      subst hi
      have hne : n.kvNode li .k ≠ n.kvNode li .v := fun heq => by
        cases (Minted.kvNode_inj heq).2
      cases slot with
      | k => rw [update_of_ne hne, update_self, hk]; exact ⟨rfl, rfl⟩
      | v => rw [update_self, hv]; exact ⟨rfl, rfl⟩
    · rcases hat with hat | hat
      · left
        have hne : ∀ slot', n.kvNode li slot ≠ n.kvNode i slot' := fun slot' heq =>
          hi (Minted.kvNode_inj heq).1
        rw [update_of_ne (hne .v), update_of_ne (hne .k)]
        exact hat
      · exact .inr ((List.mem_cons.mp hat).resolve_left hi)

/-- The data of a token is bound to other nodes. -/
theorem bindData_kvNode (n : Minted) (data : Nat → StorageArc) (deviceOffset : Bool)
    (ctx : StorageCache) (li : Nat) (slot : KvSlot) :
    bindData n data deviceOffset ctx (n.kvNode li slot) = ctx (n.kvNode li slot) := by
  have htoken : n.kvNode li slot ≠ n.tokenIds := Minted.kvNode_ne_of_lt (by omega) li slot
  have hcos : n.kvNode li slot ≠ n.ropeCos := Minted.kvNode_ne_of_lt (by omega) li slot
  have hsin : n.kvNode li slot ≠ n.ropeSin := Minted.kvNode_ne_of_lt (by omega) li slot
  have hmask : n.kvNode li slot ≠ n.mask := Minted.kvNode_ne_of_lt (by omega) li slot
  have hoffset : n.kvNode li slot ≠ n.offset := Minted.kvNode_ne_of_lt (by omega) li slot
  cases deviceOffset <;> simp [bindData, htoken, hcos, hsin, hmask, hoffset]

/-! ## Plans and caches -/

/-- A plan is what its keys say: the graph of the recorded model, shape and dtype, with storages
bound that live where they did when it was optimized. -/
structure PlanSound (s : DecodeSession) : Prop where
  shapeKey : s.shapeKey = s.graph.model.shapeKey
  nLayers : s.nLayers = s.graph.model.nLayers
  kvShape : s.graph.kvShape = [1, s.graph.model.nKvHeads, s.maxSeqLen, s.graph.model.headDim]
  kvDtype : s.graph.kvDtype = s.cacheDtype
  located : ∀ li slot, li < s.nLayers →
    ∃ arc, s.bound li slot = some arc ∧ s.graph.kvLocation li slot = some arc.location
  recorded : ∀ loc, s.kvLocation = some loc → ∀ li slot, li < s.nLayers →
    s.graph.kvLocation li slot = some loc

/-- The storages of the plan are those of the cache. -/
def Welded (s : DecodeSession) (c : KvCache) : Prop :=
  ∀ li slot, li < s.nLayers → s.bound li slot = c.slotStorage li slot

theorem Welded.same {c c' : KvCache} (h : Welded s c) (hc : c.SameAllocation c') : Welded s c' := by
  intro li slot hli
  rw [h li slot hli, hc.slotStorage]

/-- A rebound plan is welded to the cache it was bound to. -/
theorem PlanSound.rebound (h : PlanSound s) {kv : KvCache} (hkv : kv.Located) {base : StorageCache}
    {loc : DeviceLocation} (hloc : kv.deviceLocation = some loc) (hbaked : s.kvLocation = some loc)
    (hbase : ∀ li slot, li < s.nLayers → base (s.nodes.kvNode li slot) = kv.slotStorage li slot ∧
      (kv.slotStorage li slot).isSome) :
    PlanSound { s with baseCache := base, allocId := kv.allocId } ∧
      Welded { s with baseCache := base, allocId := kv.allocId } kv := by
  refine ⟨⟨h.shapeKey, h.nLayers, h.kvShape, h.kvDtype, ?_, h.recorded⟩, ?_⟩
  · intro li slot hli
    obtain ⟨hbound, hsome⟩ := hbase li slot hli
    obtain ⟨arc, harc⟩ := Option.isSome_iff_exists.mp hsome
    refine ⟨arc, hbound.trans harc, ?_⟩
    rw [hkv loc hloc li slot arc harc]
    exact h.recorded loc hbaked li slot hli
  · intro li slot hli
    exact (hbase li slot hli).1

theorem bindLayers_of_built {env : StepEnv} {model : DecodeModel} {consts : DataConsts}
    {seq msl : Nat} {cache : KvCache} {ctx bound : StorageCache}
    (h : buildDecodeGraph env model consts seq cache ctx = (.ok msl, bound)) :
    bindLayers cache env.nodes env.refuses (List.range model.nLayers) ctx = (none, bound) := by
  unfold buildDecodeGraph at h
  split at h
  · cases h
  split at h
  · cases h
  · cases (Prod.mk.inj h).2
    assumption

/-- What the driver's build leaves: no plan, or one that is welded to the cache. -/
theorem buildFirst_cases (env : StepEnv) (model : DecodeModel) (seq : Nat) {cache : KvCache}
    (hcache : cache.Located) (ctx : StorageCache) :
    cache.SameAllocation (buildAndRealizeFirstDecodeToken env model seq cache ctx).2.1 ∧
    ∀ s, (buildAndRealizeFirstDecodeToken env model seq cache ctx).1 = some s →
      PlanSound s ∧ Welded s cache ∧ s.graph.model = model ∧ s.allocId = cache.allocId := by
  unfold buildAndRealizeFirstDecodeToken
  rcases hgraph : buildDecodeGraph env model .rebindable seq cache ctx with ⟨_ | msl, bound⟩
  · exact ⟨.refl cache, fun s hs => by cases hs⟩
  cases hbuilt : env.built with
  | false => exact ⟨.refl cache, fun s hs => by cases hs⟩
  | true =>
    refine ⟨cache.sameAllocation_advance seq, ?_⟩
    intro s hs
    cases hs
    have hbound : ∀ li slot, li < model.nLayers →
        (bindData env.nodes env.data env.deviceOffset bound (env.nodes.kvNode li slot)).or
          (env.weights (env.nodes.kvNode li slot)) = cache.slotStorage li slot ∧
        (cache.slotStorage li slot).isSome := by
      intro li slot hli
      obtain ⟨hat, hsome⟩ := bindLayers_ok (bindLayers_of_built hgraph) (.inr (List.mem_range.mpr hli))
      refine ⟨?_, hsome⟩
      rw [bindData_kvNode, hat]
      obtain ⟨arc, harc⟩ := Option.isSome_iff_exists.mp hsome
      rw [harc, Option.some_or]
    refine ⟨⟨rfl, rfl, rfl, rfl, ?_, ?_⟩, fun li slot hli => (hbound li slot hli).1, rfl, rfl⟩
    · intro li slot hli
      obtain ⟨hat, hsome⟩ := hbound li slot hli
      obtain ⟨arc, harc⟩ := Option.isSome_iff_exists.mp hsome
      refine ⟨arc, hat.trans harc, ?_⟩
      show (cache.slotStorage li slot).map _ = _
      rw [harc, Option.map_some]
    · intro loc hloc li slot hli
      obtain ⟨arc, harc⟩ := Option.isSome_iff_exists.mp (hbound li slot hli).2
      show (cache.slotStorage li slot).map _ = _
      rw [harc, Option.map_some, hcache loc hloc li slot arc harc]

theorem forwardWithKvContext_same (env : StepEnv) (model : DecodeModel) (seq : Nat)
    (cache : KvCache) (ctx : StorageCache) :
    cache.SameAllocation (forwardWithKvContext env model seq cache ctx).1 := by
  unfold forwardWithKvContext
  split
  · exact .refl cache
  · split
    · exact cache.sameAllocation_advance seq
    · exact .refl cache

end Fuel.Decode
