import Fuel.KvPool.Device
import Fuel.KvPool.Eviction
import Fuel.KvPool.Admission
import Fuel.KvPool.PrefixRegistry
import Fuel.Lib.Paging

/-!
# The device pool refines private caches

What the pool is for: every session has a cache of its own, a list that grows
by one value per decode step, and a registered prefix is a copy of the first
values of its donor's. `PrivateCaches` is that, with no blocks in it.
`Tenancy` runs the device pool beside it, in any interleaving of the
sessions' calls, and `Sound` relates the two: through the page table, the
blocks of a session hold its private cache.
-/

namespace Fuel.KvPool

open Fuel Method Paging List DeviceKvPool Outcome Option AssocMap
open Function (update update_eq_self update_of_ne update_self)

/-! ## The abstract model -/

/-- A list for each session and each registered prefix. -/
structure PrivateCaches (V : Type) where
  caches : SessionHandle → List V
  prefixes : PrefixId → List V

namespace PrivateCaches

variable {V : Type}

/-- `s` starts, or ends, with nothing. -/
def cleared (m : PrivateCaches V) (s : SessionHandle) : PrivateCaches V :=
  { m with caches := Function.update m.caches s [] }

def written (m : PrivateCaches V) (s : SessionHandle) (x : V) : PrivateCaches V :=
  { m with caches := Function.update m.caches s (m.caches s ++ [x]) }

def registered (m : PrivateCaches V) (id : PrefixId) (donor : SessionHandle) (n : Nat) :
    PrivateCaches V :=
  { m with prefixes := Function.update m.prefixes id ((m.caches donor).take n) }

/-- `dst` inherits a prefix. -/
def inherited (m : PrivateCaches V) (dst : SessionHandle) (id : PrefixId) : PrivateCaches V :=
  { m with caches := Function.update m.caches dst (m.prefixes id) }

end PrivateCaches

/-! ## Runs -/

/-- One call of a tenant. -/
inductive Call (V : Type) where
  | openSession
  | write (s : SessionHandle) (x : V)
  | discard (s : SessionHandle)
  | registerPrefix (donor : SessionHandle) (prefixBlocks : Nat)
  | releasePrefix (id : PrefixId)
  | splicePrefixFrom (id : PrefixId) (dst : SessionHandle)
  | evict (s : SessionHandle)
  | restore (s : SessionHandle)

/-- The sessions a call is on. -/
def Call.sessions {V : Type} : Call V → List SessionHandle
  | .write s _ | .discard s | .registerPrefix s _ | .splicePrefixFrom _ s | .evict s | .restore s =>
    [s]
  | .openSession | .releasePrefix _ => []

/-- The device pool, beside the caches it should provide. `handles` has the
handle of a session's last eviction as long as the session has not been used
since, and `refused` the sessions with a refused decode write. -/
structure Tenancy (V : Type) where
  dev : DeviceKvPool V
  issued : List SessionHandle
  refused : List SessionHandle
  handles : SessionHandle → Option (DeviceEvicted V)
  model : PrivateCaches V

namespace Tenancy

variable {V : Type}

def new (geom : KvGeometry) (zero : V) : Tenancy V where
  dev := .new geom zero
  issued := []
  refused := []
  handles := fun _ => none
  model := ⟨fun _ => [], fun _ => []⟩

/-- `s` was used: a handle of an earlier eviction is out of date. -/
def use (w : Tenancy V) (s : SessionHandle) : Tenancy V :=
  { w with handles := Function.update w.handles s none }

/-- What follows a call that returned. -/
def after {α : Type} (w : Tenancy V) (o : Outcome DeviceError (DeviceKvPool V) α)
    (ok : α → Tenancy V → Tenancy V) (err : Tenancy V → Tenancy V) : Option (Tenancy V) :=
  match o with
  | .ok a dev => some (ok a { w with dev := dev })
  | .err _ dev => some (err { w with dev := dev })
  | .abort _ => none

open DeviceKvPool in
/-- One call, on the pool and on the private caches; `none` if it did not
return, or if there is no handle to restore. -/
def step (w : Tenancy V) : Call V → Option (Tenancy V)
  | .openSession => w.after (onCore openSession w.dev)
      (fun s w => { w.use s with issued := w.issued ++ [s], model := w.model.cleared s }) id
  | .write s x => w.after (decodeWrite s x w.dev)
      (fun _ w => { w.use s with model := w.model.written s x })
      (fun w => { w.use s with refused := s :: w.refused })
  | .discard s => w.after (onCore (KvPool.discard .debug s) w.dev)
      (fun _ w => { w.use s with model := w.model.cleared s }) (fun w => w.use s)
  | .registerPrefix donor k => w.after (onCore (KvPool.registerPrefix .debug donor k) w.dev)
      (fun id w => { w.use donor with
        model := w.model.registered id donor (k * w.dev.core.geom.blockSize) })
      (fun w => w.use donor)
  | .releasePrefix id => w.after (onCore (KvPool.releasePrefix .debug id) w.dev) (fun _ w => w) (fun w => w)
  | .splicePrefixFrom id dst => w.after (onCore (KvPool.splicePrefixFrom .debug id dst) w.dev)
      (fun _ w => { w.use dst with model := w.model.inherited dst id }) (fun w => w.use dst)
  | .evict s => w.after (DeviceKvPool.evict s w.dev)
      (fun h w => { w with handles := Function.update w.handles s (some h) }) (fun w => w.use s)
  | .restore s =>
    match w.handles s with
    | none => none
    | some h => w.after (DeviceKvPool.restore noFault s h w.dev) (fun _ w => w.use s) (fun w => w.use s)

variable {w w' : Tenancy V} {c : Call V}

theorem after_eq_some {α : Type} {o : Outcome DeviceError (DeviceKvPool V) α}
    {ok : α → Tenancy V → Tenancy V} {err : Tenancy V → Tenancy V} (h : w.after o ok err = some w') :
    ∃ dev, (∃ a, w' = ok a { w with dev := dev }) ∨ w' = err { w with dev := dev } := by
  cases o with
  | ok a dev =>
    cases h
    exact ⟨dev, .inl ⟨a, rfl⟩⟩
  | err e dev =>
    cases h
    exact ⟨dev, .inr rfl⟩
  | abort why => cases h

/-- What a call leaves alone: the handles given out and, unless it registers a prefix, what the
prefixes hold and the book of the sessions it is not on, a session just being opened apart. -/
theorem step_frame (h : w.step c = some w') : (∀ s ∈ w.issued, s ∈ w'.issued) ∧
    ((∀ s k, c ≠ .registerPrefix s k) → w'.model.prefixes = w.model.prefixes ∧
      ∀ s ∉ c.sessions, s ≠ ⟨w.dev.core.nextSession⟩ →
        w'.handles s = w.handles s ∧ (s ∈ w'.refused → s ∈ w.refused)) := by
  cases c <;> simp only [step] at h
  case openSession =>
    cases h
    exact ⟨fun _ hs => mem_append_left _ hs, fun _ => ⟨rfl, fun s _ hnew => by simp [use, hnew]⟩⟩
  case registerPrefix s' k =>
    obtain ⟨dev, ⟨a, rfl⟩ | rfl⟩ := after_eq_some h <;>
      exact ⟨fun _ hs => hs, fun hreg => absurd rfl (hreg s' k)⟩
  case restore s' =>
    split at h
    · cases h
    · obtain ⟨dev, ⟨a, rfl⟩ | rfl⟩ := after_eq_some h <;>
        exact ⟨fun _ hs => hs, fun _ => ⟨rfl, fun s hS _ => by simp [use, ne_of_not_mem_cons hS]⟩⟩
  case releasePrefix id =>
    obtain ⟨dev, ⟨a, rfl⟩ | rfl⟩ := after_eq_some h <;>
      exact ⟨fun _ hs => hs, fun _ => ⟨rfl, fun _ _ _ => ⟨rfl, fun hr => hr⟩⟩⟩
  all_goals
    obtain ⟨dev, ⟨a, rfl⟩ | rfl⟩ := after_eq_some h <;>
      exact ⟨fun _ hs => hs, fun _ => ⟨rfl, fun s hS _ => by simp [use, ne_of_not_mem_cons hS]⟩⟩

/-- Tenants use the handles `open` gave them, and a session whose decode
write was refused is only discarded. -/
def Allows (w : Tenancy V) : Call V → Prop
  | .openSession | .releasePrefix _ => True
  | .discard s => s ∈ w.issued
  | .write s _ | .registerPrefix s _ | .splicePrefixFrom _ s | .evict s | .restore s =>
    s ∈ w.issued ∧ s ∉ w.refused

instance (w : Tenancy V) (c : Call V) : Decidable (w.Allows c) := by
  cases c <;> unfold Allows <;> infer_instance

/-- The states that allowed calls on a new pool lead to. -/
inductive Reached (geom : KvGeometry) (zero : V) : Tenancy V → Prop
  | new : Reached geom zero (.new geom zero)
  | call {w : _} {c : _} {w' : _} : Reached geom zero w → w.Allows c → w.step c = some w' →
      Reached geom zero w'

/-- A list of calls, if all of them are allowed and return. -/
def run (w : Tenancy V) : List (Call V) → Option (Tenancy V)
  | [] => some w
  | c :: cs => if w.Allows c then (w.step c).bind fun w' => w'.run cs else none

theorem Reached.run {geom : KvGeometry} {zero : V} {cs : List (Call V)} (h : Reached geom zero w)
    (hrun : w.run cs = some w') : Reached geom zero w' := by
  induction cs generalizing w with
  | nil =>
    cases hrun
    exact h
  | cons c cs ih =>
    unfold Tenancy.run at hrun
    split at hrun
    · rename_i hc
      obtain ⟨w₁, hstep, hrest⟩ := bind_eq_some_iff.mp hrun
      exact ih (h.call hc hstep) hrest
    · cases hrun

end Tenancy

open Tenancy

/-! ## The relation -/

/-- The allocator's part: exact counts, owners nobody has a handle for, tables
as long as their fill level, and an empty content index. -/
structure CoreSound (geom : KvGeometry) (core : KvBlockPool) (issued : List SessionHandle) :
    Prop where
  geom_eq : core.geom = geom
  inv : Inv core
  inStep : AllInStep core
  hidden : OwnersHidden ⟨core, issued⟩
  index : core.cached = ∅

/-- The handle describes its session, and has the bytes of what it detached. -/
structure Holds {V : Type} (bs : Nat) (t : BlockTable) (vals : List V) (h : DeviceEvicted V) :
    Prop where
  describes : Describes t h.coreHandle
  slots : h.saved.map SavedBlock.logicalSlot = h.coreHandle.externalizedSlots
  bytes : ∀ sb ∈ h.saved, ∀ j, j < bs → sb.logicalSlot * bs + j < vals.length →
    vals[sb.logicalSlot * bs + j]? = some (sb.block j)

/-- The pool provides the private caches. `vals` are the values the sessions
should have, owners of prefixes included. -/
structure Sound {V : Type} (geom : KvGeometry) (w : Tenancy V) (vals : SessionHandle → List V) :
    Prop where
  core : CoreSound geom w.dev.core w.issued
  keeps : Keeps geom.blockSize w.dev.core.residentBlock w.dev.cells vals
  own : ∀ s ∈ w.issued, vals s = w.model.caches s
  prefixes : ∀ id o, w.dev.core.prefixes.lookup id = some o →
    vals o.owner = w.model.prefixes id ∧ (vals o.owner).length = o.prefixBlocks * geom.blockSize
  filled : ∀ s t, w.dev.core.tables.lookup s = some t →
    (vals s).length = t.filledTokens ∨ s ∈ w.refused ∧ Slot.externalized ∈ t.slots
  refused : ∀ s ∈ w.refused, s ∈ w.issued
  handles : ∀ s h, w.handles s = some h → s ∈ w.issued ∧ ∃ t,
    w.dev.core.tables.lookup s = some t ∧ Holds geom.blockSize t (vals s) h

/-- What a call leaves: the relation, and the tables and caches of the
sessions it was not on. -/
structure Advances {V : Type} (geom : KvGeometry) (c : Call V) (w w' : Tenancy V) : Prop where
  sound : ∃ vals, Sound geom w' vals
  tables : ∀ s ∈ w.issued, s ∉ c.sessions →
    w'.dev.core.tables.lookup s = w.dev.core.tables.lookup s
  caches : ∀ s ∈ w.issued, s ∉ c.sessions → w'.model.caches s = w.model.caches s

/-! ## The allocator's part is kept -/

namespace CoreSound

variable {geom : KvGeometry} {core core' : KvBlockPool} {issued : List SessionHandle}

theorem new (geom : KvGeometry) : CoreSound geom (.new geom) [] :=
  ⟨rfl, inv_new geom, .new geom, OwnersHidden.new geom, rfl⟩

variable {s : SessionHandle} (h : CoreSound geom core issued)

include h

/-- A session a tenant has a handle for owns no prefix. -/
theorem not_owner (hs : s ∈ issued) : core.isPrefixOwner s = false := by
  rw [← Bool.not_eq_true]
  intro howner
  unfold KvBlockPool.isPrefixOwner at howner
  rw [any_values_iff (q := fun x : PrefixOwner => x.owner == s)] at howner
  obtain ⟨id, o, ho, heq⟩ := howner
  have heq : o.owner = s := eq_of_beq heq
  exact h.hidden.hidden id o ho (heq ▸ hs)

theorem hidden_of_rest (rest : SameRest core core') : OwnersHidden ⟨core', issued⟩ := by
  refine h.hidden.of_subset ?_ (Nat.le_of_eq rest.nextSession.symm) rfl
  intro id o ho
  have ho : core'.prefixes.lookup id = some o := ho
  rwa [rest.prefixes] at ho

theorem onSession {t t' : BlockTable} (hs : s ∈ issued) (on : OnSession s t t' core core')
    (hstep : InStep geom.blockSize t → InStep geom.blockSize t') : CoreSound geom core' issued where
  geom_eq := on.rest.geom.trans h.geom_eq
  inv := by
    refine ⟨on.wf, h.inv.owners.onSession on ?_⟩
    intro howner
    rw [h.not_owner hs] at howner
    cases howner
  inStep := h.inStep.onSession on (by rw [h.geom_eq]; exact hstep)
  hidden := h.hidden_of_rest on.rest
  index := on.rest.cached.trans h.index

theorem opened (hbs : 0 < geom.blockSize) :
    CoreSound geom core.opened (issued ++ [⟨core.nextSession⟩]) where
  geom_eq := h.geom_eq
  inv := ⟨opened_wf h.inv.wf, h.inv.owners.opened⟩
  inStep := h.inStep.opened (by rw [h.geom_eq]; exact hbs)
  hidden := h.hidden.opened h.inv.owners
  index := h.index

theorem closed (hw : Wf core') (rest : SameRest core core')
    (tables : core'.tables = core.tables.erase s) : CoreSound geom core' issued where
  geom_eq := rest.geom.trans h.geom_eq
  inv := by
    refine ⟨hw, h.inv.owners.closed ?_ rest.nextSession rest.nextPrefix tables⟩
    intro id o ho
    rwa [rest.prefixes] at ho
  inStep := h.inStep.closed rest.geom tables
  hidden := h.hidden_of_rest rest
  index := rest.cached.trans h.index

theorem skipSession : CoreSound geom core.skipSession issued where
  geom_eq := h.geom_eq
  inv := h.inv.refused (.registerPrefix ⟨0⟩ 0)
  inStep := h.inStep.sameTables rfl rfl
  hidden := h.hidden.of_subset (fun _ _ ho => ho) (Nat.le_succ _) rfl
  index := h.index

theorem registered (hbs : 0 < geom.blockSize) {k : Nat} {ps : List PhysBlockId}
    (hr : Registered k ps core core') (hcached : core'.cached = core.cached) :
    CoreSound geom core' issued where
  geom_eq := hr.geom.trans h.geom_eq
  inv := ⟨hr.wf, h.inv.owners.registered hr⟩
  inStep := h.inStep.registered (by rw [h.geom_eq]; exact hbs) hr
  hidden := h.hidden.registered h.inv.owners hr
  index := hcached.trans h.index

theorem unregistered (id : PrefixId) :
    CoreSound geom { core with prefixes := core.prefixes.erase id } issued := by
  have hsub : ∀ id' o, (core.prefixes.erase id).lookup id' = some o →
      core.prefixes.lookup id' = some o := fun _ _ ho => (lookup_of_erase ho).2
  refine ⟨h.geom_eq, ⟨h.inv.wf.withPrefixes _ _, ?_⟩, h.inStep.sameTables rfl rfl, ?_, h.index⟩
  · exact h.inv.owners.of_grows hsub (Nat.le_refl _) (Nat.le_refl _)
      fun _ _ t' _ ht' => ⟨t', ht', .refl t'⟩
  · exact h.hidden.of_subset hsub (Nat.le_refl _) rfl

end CoreSound

/-! ## What a call on one session leaves alone -/

section Calls

variable {V : Type} {geom : KvGeometry} {w w' : Tenancy V} {vals : SessionHandle → List V}
  {s : SessionHandle} {t : BlockTable} {ps : List PhysBlockId} {core core' : KvBlockPool}
  {i k : Nat} {p : PhysBlockId} {dev : DeviceKvPool V} {id : PrefixId} {c : Call V} {xs : List V}
  {refused : List SessionHandle} {handle : Option (DeviceEvicted V)} {model : PrivateCaches V}
  (h : Sound geom w vals)

include h

/-- A call on `s` only: the other sessions have their tables, and it is enough to look at `s`,
with its new values, the handle of its eviction and its table. -/
theorem Sound.elsewhere (hs : s ∈ w.issued) (hc : s ∈ c.sessions)
    (hmodel : model = { w.model with caches := update w.model.caches s xs })
    (core : CoreSound geom dev.core w.issued)
    (tables : ∀ s', s' ≠ s → dev.core.tables.lookup s' = w.dev.core.tables.lookup s')
    (registry : dev.core.prefixes = w.dev.core.prefixes)
    (keeps : Keeps geom.blockSize dev.core.residentBlock dev.cells (update vals s xs))
    (hrefused : ∀ s', s' ≠ s → (s' ∈ refused ↔ s' ∈ w.refused))
    (filled : ∀ t, dev.core.tables.lookup s = some t →
      xs.length = t.filledTokens ∨ s ∈ refused ∧ Slot.externalized ∈ t.slots)
    (held : ∀ e, handle = some e → ∃ t, dev.core.tables.lookup s = some t ∧
      Holds geom.blockSize t xs e) :
    Advances geom c w ⟨dev, w.issued, refused, update w.handles s handle, model⟩ := by
  subst hmodel
  have hne : ∀ s', s' ∉ c.sessions → s' ≠ s := by
    rintro s' hs' rfl
    exact hs' hc
  refine ⟨⟨update vals s xs, core, keeps, ?_, ?_, ?_, ?_, ?_⟩, fun s' _ hs' => tables s' (hne s' hs'),
    fun s' _ hs' => update_of_ne (hne s' hs') _ _⟩
  · intro s' hs'
    by_cases hss : s' = s
    · simp only [hss, update_self]
    · simp only [update_of_ne hss]
      exact h.own s' hs'
  · intro id o ho
    have hold : dev.core.prefixes.lookup id = some o := ho
    rw [registry] at hold
    have howner : o.owner ≠ s := by
      rintro rfl
      exact h.core.hidden.hidden id o hold hs
    rw [update_of_ne howner]
    exact h.prefixes id o hold
  · intro s' t ht
    by_cases hss : s' = s
    · subst hss
      rw [update_self]
      exact filled t ht
    · rw [update_of_ne hss, hrefused s' hss]
      exact h.filled s' t ((tables s' hss).symm.trans ht)
  · intro s' hs'
    by_cases hss : s' = s
    · rw [hss]
      exact hs
    · exact h.refused s' ((hrefused s' hss).mp hs')
  · intro s' e hse
    have hse : update w.handles s handle s' = some e := hse
    by_cases hss : s' = s
    · subst hss
      rw [update_self] at hse ⊢
      exact ⟨hs, held e hse⟩
    · rw [update_of_ne hss] at hse ⊢
      obtain ⟨hissued, t, ht, hh⟩ := h.handles s' e hse
      exact ⟨hissued, t, (tables s' hss).trans ht, hh⟩

/-- The same, when the table of `s` was replaced. -/
theorem Sound.onSession (hs : s ∈ w.issued) (hc : s ∈ c.sessions) {t' : BlockTable}
    (on : OnSession s t t' w.dev.core core)
    (hstep : InStep geom.blockSize t → InStep geom.blockSize t') {cells : PhysBlockId → Nat → V}
    (hmodel : model = { w.model with caches := update w.model.caches s xs })
    (keeps : Keeps geom.blockSize core.residentBlock cells (update vals s xs))
    (hrefused : ∀ s', s' ≠ s → (s' ∈ refused ↔ s' ∈ w.refused))
    (filled : xs.length = t'.filledTokens ∨ s ∈ refused ∧ Slot.externalized ∈ t'.slots)
    (held : ∀ e, handle = some e → Holds geom.blockSize t' xs e) :
    Advances geom c w ⟨⟨core, cells⟩, w.issued, refused, update w.handles s handle, model⟩ := by
  refine h.elsewhere hs hc hmodel (h.core.onSession hs on hstep) on.others on.rest.prefixes keeps
    hrefused ?_ fun e he => ⟨t', on.after, held e he⟩
  intro t₁ ht₁
  obtain rfl := mem_unique ht₁ on.after
  exact filled

/-- A call that leaves the values of `s` as they are. -/
theorem Sound.model_eq (hs : s ∈ w.issued) :
    w.model = { w.model with caches := update w.model.caches s (vals s) } := by
  rw [h.own s hs, update_eq_self]

/-- A session that was not refused a write has as many values as its fill
level says. -/
theorem Sound.length_eq (hs : s ∉ w.refused) (ht : w.dev.core.tables.lookup s = some t) :
    (vals s).length = t.filledTokens := by
  rcases h.filled s t ht with heq | ⟨hr, -⟩
  · exact heq
  · exact absurd hr hs

/-- A use that changed nothing. -/
theorem Sound.use (s : SessionHandle) : Sound geom (w.use s) vals where
  core := h.core
  keeps := h.keeps
  own := h.own
  prefixes := h.prefixes
  filled := h.filled
  refused := h.refused
  handles := by
    intro s' e hse
    by_cases hss : s' = s
    · subst hss
      simp [Tenancy.use] at hse
    · refine h.handles s' e ?_
      simpa [Tenancy.use, hss] using hse

/-- A refused write that changed nothing. -/
theorem Sound.refuse (hs : s ∈ w.issued) :
    Sound geom { w.use s with refused := s :: w.refused } vals where
  core := h.core
  keeps := h.keeps
  own := h.own
  prefixes := h.prefixes
  filled := by
    intro s' t ht
    rcases h.filled s' t ht with heq | ⟨hr, hext⟩
    · exact .inl heq
    · exact .inr ⟨mem_cons_of_mem _ hr, hext⟩
  refused := by
    intro s' hs'
    rcases mem_cons.mp hs' with rfl | hr
    · exact hs
    · exact h.refused s' hr
  handles := (h.use s).handles

/-! ## The decode write -/

omit h

/-- Where `append` puts the next token of a table in step: into its last
block, or into a new one once that is full. -/
theorem append_one_cases {bs : Nat} (hbs : 0 < bs) (ht : InStep bs t)
    (hps : ps.length = newBlocksFor t bs 1) :
    (t.filledTokens % bs = 0 ∧ t.slots.length = t.filledTokens / bs ∧ ∃ p, ps = [p]) ∨
      (t.slots.length = t.filledTokens / bs + 1 ∧ ps = []) := by
  have hsucc : (t.filledTokens + 1 + bs - 1) / bs = t.filledTokens / bs + 1 := by
    rw [show t.filledTokens + 1 + bs - 1 = t.filledTokens + bs by omega]
    exact Nat.add_div_right _ hbs
  have hdiv := Nat.div_add_mod t.filledTokens bs
  unfold newBlocksFor at hps
  rw [hsucc] at hps
  unfold InStep at ht
  by_cases hmod : t.filledTokens % bs = 0
  · left
    have hceil : (t.filledTokens + bs - 1) / bs = t.filledTokens / bs := by
      symm
      rw [eq_ceil_iff hbs, Nat.mul_comm]
      omega
    rw [hceil] at ht
    refine ⟨hmod, ht, length_eq_one_iff.mp (by omega)⟩
  right
  have hceil : (t.filledTokens + bs - 1) / bs = t.filledTokens / bs + 1 := by
    symm
    have hmul : (t.filledTokens / bs + 1) * bs = bs * (t.filledTokens / bs) + bs := by
      rw [Nat.succ_mul, Nat.mul_comm]
    have hlt := Nat.mod_lt t.filledTokens hbs
    rw [eq_ceil_iff hbs, hmul]
    omega
  rw [hceil] at ht
  exact ⟨ht, eq_nil_of_length_eq_zero (by omega)⟩

theorem residentBlock_congr (h : core'.tables.lookup s = core.tables.lookup s) (i : Nat) :
    core'.residentBlock s i = core.residentBlock s i := by
  unfold KvBlockPool.residentBlock
  rw [h]

/-- Only the table of one session changed, and it has the blocks it had. -/
theorem residentBlock_of_slots {t' : BlockTable} (on : OnSession s t t' core core')
    (hslots : t'.slots = t.slots) (s' : SessionHandle) (i : Nat) :
    core'.residentBlock s' i = core.residentBlock s' i := by
  by_cases hs : s' = s
  · subst hs
    unfold KvBlockPool.residentBlock
    rw [on.after, on.before, bind_some, bind_some, hslots]
  · exact residentBlock_congr (on.others s' hs) i

/-- After `append` made room for one token of `s`: the block it goes to is
the place of the next cell, unless it is away. -/
theorem Sound.append_next (h : Sound geom w vals) (hbs : 0 < geom.blockSize) (hs : s ∉ w.refused)
    (on : OnSession s t (t.extend ps (t.filledTokens + 1)) w.dev.core core')
    (taken : w.dev.core.free = core'.free ++ ps.reverse)
    (count : ps.length = newBlocksFor t geom.blockSize 1) :
    (∃ p, core'.residentBlock s (t.filledTokens / geom.blockSize) = some p ∧
      Next geom.blockSize w.dev.core.residentBlock core'.residentBlock vals s p) ∨
    (core'.residentBlock s (t.filledTokens / geom.blockSize) = none ∧
      (∀ s' i, core'.residentBlock s' i = w.dev.core.residentBlock s' i) ∧
      Slot.externalized ∈ (t.extend ps (t.filledTokens + 1)).slots) := by
  have hlen := h.length_eq hs on.before
  have hstep : InStep geom.blockSize t := by
    have := h.core.inStep s t on.before
    rwa [h.core.geom_eq] at this
  rcases append_one_cases hbs hstep count with ⟨hmod, hslots, p, rfl⟩ | ⟨hslots, rfl⟩
  · -- a new block, at the end of the table
    left
    have hhere : core'.residentBlock s (t.filledTokens / geom.blockSize) = some p := by
      rw [residentBlock_eq on.after, ← hslots]
      simp [BlockTable.extend]
    refine ⟨p, hhere, ?_, ?_, .inr ⟨?_, ?_⟩⟩
    · rw [hlen]
      exact hhere
    · intro s' i hne
      by_cases hss : s' = s
      · subst hss
        have hi : i ≠ t.slots.length := by
          intro hi
          apply hne
          rw [hlen, hi, hslots]
        unfold KvBlockPool.residentBlock
        rw [on.after, on.before, bind_some, bind_some]
        have hsame : (t.extend [p] (t.filledTokens + 1)).slots[i]? = t.slots[i]? := by
          show (t.slots ++ [Slot.resident p])[i]? = t.slots[i]?
          rcases Nat.lt_or_gt_of_ne hi with hlt | hgt
          · exact getElem?_append_left hlt
          · rw [getElem?_eq_none (by simp; omega), getElem?_eq_none (by omega)]
        rw [hsame]
      · exact residentBlock_congr (on.others s' hss) i
    · rw [hlen]
      exact hmod
    · intro s' i
      refine residentBlock_ne_of_free h.core.inv.wf ?_ s' i
      rw [taken]
      simp
  · have hsame := residentBlock_of_slots on (by simp [BlockTable.extend])
    cases hblock : core'.residentBlock s (t.filledTokens / geom.blockSize) with
    | some p =>
      left
      refine ⟨p, rfl, ?_, ?_, .inl ?_⟩
      · rw [hlen]
        exact hblock
      · intro s' i _
        exact hsame s' i
      · rw [hlen, ← hsame]
        exact hblock
    | none =>
      -- the last block is in the table, and not there
      right
      refine ⟨rfl, hsame, ?_⟩
      have hlt : t.filledTokens / geom.blockSize < t.slots.length := by omega
      have hget := getElem?_eq_getElem hlt
      have hext : t.slots[t.filledTokens / geom.blockSize] = .externalized := by
        cases hslot : t.slots[t.filledTokens / geom.blockSize] with
        | externalized => rfl
        | resident p =>
          rw [hslot, ← residentBlock_eq on.before, ← hsame, hblock] at hget
          cases hget
      rw [hext] at hget
      simp only [BlockTable.extend, map_nil, append_nil]
      exact mem_of_getElem? hget

/-- A block in one place is written where it is. -/
theorem ensureWritableBlock_run {fault : PhysBlockId → Option String} (dev : DeviceKvPool V)
    (hw : Wf dev.core)
    (hindex : dev.core.cached = ∅) (hp : dev.core.residentBlock s i = some p)
    (halone : ∀ s' i', dev.core.residentBlock s' i' = some p → s' = s ∧ i' = i) :
    ensureWritableBlock fault s i dev = .ok p dev := by
  have hcached : dev.core.isCached p = false := by
    rw [← Bool.not_eq_true, isCached_iff]
    rintro ⟨x, hx⟩
    simp [hindex] at hx
  obtain ⟨t, ht, hslot⟩ := residentBlock_table hp
  have hlt := hw.lt_length (hw.slot_pos ht (mem_of_getElem? hslot))
  have hone := refcount_le_one hw hcached halone
  simp only [ensureWritableBlock, bind_run, get_run, andThen_ok, hp, okOr_some,
    pure_run, onCore, refcountAt_run hlt, if_pos hone]

/-- The outcome of a call that does not touch the cells. -/
def withCells {α : Type} (cells : PhysBlockId → Nat → V) :
    Outcome DeviceError KvBlockPool α → Outcome DeviceError (DeviceKvPool V) α
  | .ok a core => .ok a ⟨core, cells⟩
  | .err e core => .err e ⟨core, cells⟩
  | .abort why => .abort why

/-- How making room for the next token of `s` ends, on the tables. -/
inductive Reserved (geom : KvGeometry) (w : Tenancy V) (vals : SessionHandle → List V)
    (s : SessionHandle) : Outcome DeviceError KvBlockPool PhysBlockId → Prop
  | refused (e : DeviceError) : Reserved geom w vals s (.err e w.dev.core)
  | stuck {t t' core'} (e : DeviceError) (on : OnSession s t t' w.dev.core core')
      (inStep : InStep geom.blockSize t')
      (same : ∀ s' i, core'.residentBlock s' i = w.dev.core.residentBlock s' i)
      (away : Slot.externalized ∈ t'.slots) :
      Reserved geom w vals s (.err e core')
  | ok {t t' core' p} (on : OnSession s t t' w.dev.core core') (inStep : InStep geom.blockSize t')
      (filled : t'.filledTokens = t.filledTokens + 1)
      (next : Next geom.blockSize w.dev.core.residentBlock core'.residentBlock vals s p) :
      Reserved geom w vals s (.ok p core')
  | abort (why : Abort) : Reserved geom w vals s (.abort why)

/-- Room is made without touching the cells, and in the same way whatever they hold and
whatever the device refuses. -/
theorem Sound.reserveAt (h : Sound geom w vals) (hbs : 0 < geom.blockSize) (hs : s ∈ w.issued)
    (hr : s ∉ w.refused) (ht : w.dev.core.tables.lookup s = some t) :
    ∃ o, (∀ fault (cells : PhysBlockId → Nat → V),
        reserveAt fault s geom.blockSize t.filledTokens ⟨w.dev.core, cells⟩
          = withCells cells o) ∧ Reserved geom w vals s o := by
  unfold DeviceKvPool.reserveAt
  have hspec := append_spec h.core.inv.wf s 1
  simp only [bind_run, onCore]
  generalize append .debug s 1 w.dev.core = out at hspec
  cases hspec with
  | arith _ => exact ⟨.abort _, fun _ _ => rfl, .abort _⟩
  | refused e => exact ⟨.err (.alloc e) w.dev.core, fun _ _ => rfl, .refused _⟩
  | @ok _ core' hok =>
    obtain ⟨t₁, ps, on, taken, count, -⟩ := hok
    obtain rfl : t = t₁ := mem_unique ht on.before
    rw [h.core.geom_eq] at count
    have hstep : InStep geom.blockSize (t.extend ps (t.filledTokens + 1)) := by
      have hold := h.core.inStep s t on.before
      rw [h.core.geom_eq] at hold
      exact hold.append hbs count
    have hcore : CoreSound geom core' w.issued := h.core.onSession hs on fun _ => hstep
    rcases h.append_next hbs hr on taken count with ⟨p, hp, hnext⟩ | ⟨hnone, hsame, haway⟩
    · have halone : ∀ s' i', core'.residentBlock s' i' = some p →
          s' = s ∧ i' = t.filledTokens / geom.blockSize := by
        intro s' i' hp'
        rw [← h.length_eq hr ht]
        exact Prod.mk.inj (hnext.alone h.keeps hbs hp')
      refine ⟨.ok p core', ?_, .ok on hstep rfl hnext⟩
      intro fault cells
      exact ensureWritableBlock_run ⟨core', cells⟩ hcore.inv.wf hcore.index hp halone
    · refine ⟨.err (.blockNotResident (t.filledTokens / geom.blockSize)) core', ?_,
        .stuck _ on hstep hsame haway⟩
      intro fault cells
      simp only [andThen_ok, ensureWritableBlock, bind_run, get_run, hnone,
        okOr_none, fail_run, andThen_err, withCells]

/-- A decode write is room for one token, and the token. -/
theorem decodeWrite_run (ht : dev.core.tables.lookup s = some t) (x : V) :
    decodeWrite s x dev =
      (reserveAt noFault s dev.core.geom.blockSize t.filledTokens dev).andThen fun p d =>
        .ok () { d with cells := Function.update d.cells p (Function.update (d.cells p)
          (t.filledTokens % dev.core.geom.blockSize) x) } := by
  have hpos : dev.core.filledTokens s = some t.filledTokens := by
    simp [KvBlockPool.filledTokens, ht]
  unfold decodeWrite reserveAt
  simp only [bind_run, get_run, andThen_ok, hpos, okOr_some, pure_run, writeBlock]
  cases onCore (append .debug s 1) dev with
  | abort why => rfl
  | err e d => rfl
  | ok u d => rfl

variable (h : Sound geom w vals)

include h

theorem Sound.write (hbs : 0 < geom.blockSize) (hs : s ∈ w.issued) (hr : s ∉ w.refused) {x : V}
    (hstep : w.step (.write s x) = some w') : Advances geom (.write s x) w w' := by
  simp only [step] at hstep
  cases ht : w.dev.core.tables.lookup s with
  | none =>
    have hnone : w.dev.core.filledTokens s = none := by simp [KvBlockPool.filledTokens, ht]
    unfold decodeWrite at hstep
    rw [bind_run, get_run, andThen_ok, hnone] at hstep
    cases hstep
    exact ⟨⟨vals, h.refuse hs⟩, fun _ _ _ => rfl, fun _ _ _ => rfl⟩
  | some t =>
    obtain ⟨o, hrun, hreserved⟩ := h.reserveAt hbs hs hr ht
    have hlen := h.length_eq hr ht
    rw [decodeWrite_run ht, h.core.geom_eq, hrun noFault w.dev.cells, ← hlen] at hstep
    cases hreserved with
    | abort why => cases hstep
    | refused e =>
      cases hstep
      exact ⟨⟨vals, h.refuse hs⟩, fun _ _ _ => rfl, fun _ _ _ => rfl⟩
    | @stuck _ t' core' e on inStep same away =>
      cases hstep
      refine h.onSession hs mem_cons_self on (fun _ => inStep) (h.model_eq hs) ?_
        (by simp +contextual) (.inr ⟨mem_cons_self, away⟩) (by simp)
      rw [update_eq_self]
      refine h.keeps.drop ?_ fun _ _ _ _ => rfl
      intro s' i p hp
      rw [← same]
      exact hp
    | ok on inStep filled next =>
      cases hstep
      obtain rfl := mem_unique on.before ht
      refine h.onSession hs mem_cons_self on (fun _ => inStep) (by rw [h.own s hs]; rfl)
        (h.keeps.write hbs next x) (fun _ _ => Iff.rfl) (.inl ?_) (by simp)
      rw [length_append, hlen, filled]
      rfl

/-! ## Opening and closing -/

omit h in
theorem residentBlock_opened (core : KvBlockPool) (h : core.opened.residentBlock s i = some p) :
    s ≠ ⟨core.nextSession⟩ ∧ core.residentBlock s i = some p := by
  have hne : s ≠ ⟨core.nextSession⟩ := by
    rintro rfl
    simp [KvBlockPool.residentBlock, KvBlockPool.opened] at h
  refine ⟨hne, ?_⟩
  rw [← h]
  exact (residentBlock_congr (by simp [KvBlockPool.opened, hne]) i).symm

theorem Sound.issued_ne (hs : s ∈ w.issued) : s ≠ ⟨w.dev.core.nextSession⟩ := by
  rintro rfl
  exact Nat.lt_irrefl _ (h.core.hidden.minted _ hs)

theorem Sound.owner_ne {o : PrefixOwner} (ho : w.dev.core.prefixes.lookup id = some o) :
    o.owner ≠ ⟨w.dev.core.nextSession⟩ :=
  h.core.inv.owners.owner_ne ho

theorem Sound.openSession (hbs : 0 < geom.blockSize) (hstep : w.step .openSession = some w') :
    Advances geom .openSession w w' := by
  cases hstep
  have htable : ∀ s, s ≠ ⟨w.dev.core.nextSession⟩ →
      w.dev.core.opened.tables.lookup s = w.dev.core.tables.lookup s := by
    intro s hs
    simp [KvBlockPool.opened, hs]
  refine ⟨⟨update vals ⟨w.dev.core.nextSession⟩ [], h.core.opened hbs, ?_, ?_, ?_, ?_, ?_,
    ?_⟩, fun s hs _ => htable s (h.issued_ne hs),
    fun s hs _ => update_of_ne (h.issued_ne hs) _ _⟩
  · refine h.keeps.drop ?_ ?_
    · intro s i p hp
      exact (residentBlock_opened _ hp).2
    · intro s i p hp
      exact update_of_ne (residentBlock_opened _ hp).1 _ _
  · intro s hs
    show update vals _ _ s = update w.model.caches _ _ s
    rcases mem_append.mp hs with hold | hnew
    · rw [update_of_ne (h.issued_ne hold), update_of_ne (h.issued_ne hold)]
      exact h.own s hold
    · rw [mem_singleton.mp hnew, update_self, update_self]
  · intro id o ho
    rw [update_of_ne (h.owner_ne ho)]
    exact h.prefixes id o ho
  · intro s t ht
    rcases lookup_of_insert ht with ⟨rfl, rfl⟩ | ⟨hs, ht⟩
    · rw [update_self]
      exact .inl rfl
    · rw [update_of_ne hs]
      exact h.filled s t ht
  · intro s hs
    exact mem_append_left _ (h.refused s hs)
  · intro s e he
    have hs : s ≠ ⟨w.dev.core.nextSession⟩ := by
      rintro rfl
      simp [Tenancy.use] at he
    have he : w.handles s = some e := by simpa [Tenancy.use, hs] using he
    obtain ⟨hissued, t, ht, hh⟩ := h.handles s e he
    refine ⟨mem_append_left _ hissued, t, (htable s hs).trans ht, ?_⟩
    · rw [update_of_ne hs]
      exact hh

omit h

theorem residentBlock_erase {s' : SessionHandle} (tables : core'.tables = core.tables.erase s)
    (h : core'.residentBlock s' i = some p) : s' ≠ s ∧ core.residentBlock s' i = some p := by
  have hne : s' ≠ s := by
    rintro rfl
    simp [KvBlockPool.residentBlock, tables] at h
  refine ⟨hne, ?_⟩
  rw [← h]
  exact (residentBlock_congr (by simp [tables, hne]) i).symm

theorem Sound.discard (h : Sound geom w vals) (hs : s ∈ w.issued)
    (hstep : w.step (.discard s) = some w') : Advances geom (.discard s) w w' := by
  obtain ⟨core', hrun, hw', rest, tables⟩ := discard_spec h.core.inv.wf s
  have hdev : onCore (KvPool.discard .debug s) w.dev = .ok () ⟨core', w.dev.cells⟩ := by
    simp only [onCore, hrun]
  simp only [step, hdev] at hstep
  cases hstep
  refine h.elsewhere hs mem_cons_self rfl
    (h.core.closed hw' rest tables) ?_ rest.prefixes ?_ (fun _ _ => Iff.rfl) ?_ (by simp)
  · intro s' hss
    change core'.tables.lookup s' = _
    rw [tables, lookup_erase_ite, if_neg hss]
  · refine h.keeps.drop ?_ ?_
    · intro s' i p hp
      exact (residentBlock_erase tables hp).2
    · intro s' i p hp
      exact update_of_ne (residentBlock_erase tables hp).1 _ _
  · intro t ht
    change core'.tables.lookup s = some t at ht
    simp [tables] at ht

/-! ## Prefixes -/

/-- The blocks an empty session got are the first ones of the donor. -/
theorem Spliced.shares {src dst : SessionHandle} {u : BlockTable}
    (h : Spliced src dst 0 k u t ps core core') (hempty : t.slots = [])
    (hp : core'.residentBlock dst i = some p) : i < k ∧ core.residentBlock src i = some p := by
  rw [residentBlock_eq h.after] at hp
  have hps : (ps.map Slot.resident)[i]? = some (.resident p) := by
    simpa [BlockTable.extend, hempty] using hp
  have hslice := h.spans.slice
  rw [drop_zero, Nat.sub_zero] at hslice
  rw [← hslice] at hps
  have hi : i < k := by
    have := lt_of_getElem? hps
    rw [length_take] at this
    omega
  refine ⟨hi, ?_⟩
  rw [residentBlock_eq h.donor, ← hps, getElem?_take_of_lt hi]

/-- An empty session has no pages. -/
theorem residentBlock_empty (ht : core.tables.lookup s = some t) (hempty : t.slots = []) (i : Nat) :
    core.residentBlock s i = none := by
  simp [KvBlockPool.residentBlock, ht, hempty]

theorem spliceFill_full {u : BlockTable} {bs : Nat} (h : k * bs ≤ u.filledTokens) :
    spliceFill u 0 k bs = k * bs := by
  unfold spliceFill
  rw [Nat.sub_zero, Nat.zero_mul, Nat.sub_zero]
  exact Nat.min_eq_left h

variable (h : Sound geom w vals)

include h

theorem Sound.splicePrefixFrom (hbs : 0 < geom.blockSize) (hs : s ∈ w.issued)
    (hstep : w.step (.splicePrefixFrom id s) = some w') :
    Advances geom (.splicePrefixFrom id s) w w' := by
  have hspec := splicePrefixFrom_spec h.core.inv.wf id s
  simp only [step, onCore] at hstep
  generalize KvPool.splicePrefixFrom .debug id s w.dev.core = out at hspec hstep
  cases hspec with
  | arith _ => cases hstep
  | refused e =>
    cases hstep
    exact ⟨⟨vals, h.use s⟩, fun _ _ _ => rfl, fun _ _ _ => rfl⟩
  | @ok _ core' hok =>
    obtain ⟨o, u, t, ps, ho, hsp, hempty, hfull, -⟩ := hok
    cases hstep
    obtain ⟨hinherited, hlen⟩ := h.prefixes id o ho
    have hstart : t.filledTokens = 0 := by
      have hin := h.core.inStep s t hsp.before
      rw [h.core.geom_eq] at hin
      exact hin.filled_eq_zero hbs hempty
    have htake : (vals o.owner).take (o.prefixBlocks * geom.blockSize) = vals o.owner := by
      rw [← hlen, take_length]
    have hkeeps : Keeps geom.blockSize core'.residentBlock w.dev.cells (update vals s
        ((vals o.owner).take (o.prefixBlocks * geom.blockSize))) :=
      h.keeps.share (Nat.le_of_eq hlen.symm) (residentBlock_empty hsp.before hempty)
        (fun s' i hss => residentBlock_congr (hsp.others s' hss) i)
        (fun i p hp => hsp.shares hempty hp)
    rw [htake] at hkeeps
    rw [h.core.geom_eq] at hfull
    have hfill : (t.extend ps (t.filledTokens
        + spliceFill u 0 o.prefixBlocks w.dev.core.geom.blockSize)).filledTokens
        = o.prefixBlocks * geom.blockSize := by
      show t.filledTokens + _ = _
      rw [h.core.geom_eq, spliceFill_full hfull, hstart, Nat.zero_add]
    have hcore : CoreSound geom core' w.issued := by
      refine h.core.onSession hs hsp.toOnSession ?_
      intro _
      have hslots : (t.extend ps (t.filledTokens
          + spliceFill u 0 o.prefixBlocks w.dev.core.geom.blockSize)).slots.length
          = o.prefixBlocks := by
        have := hsp.spans.length
        simp [BlockTable.extend, hempty, this]
      rw [inStep_iff hbs, hfill, hslots]
      omega
    refine h.elsewhere hs mem_cons_self (by rw [hinherited]; rfl) hcore hsp.others hsp.rest.prefixes
      hkeeps (fun _ _ => Iff.rfl) ?_ (by simp)
    intro t₁ ht₁
    obtain rfl := mem_unique ht₁ hsp.after
    left
    rw [hfill, hlen]

theorem Sound.skipSession :
    Sound geom { w with dev := ⟨w.dev.core.skipSession, w.dev.cells⟩ } vals :=
  ⟨h.core.skipSession, h.keeps, h.own, h.prefixes, h.filled, h.refused, h.handles⟩

theorem Sound.registerPrefix (hbs : 0 < geom.blockSize) (hs : s ∈ w.issued) (hr : s ∉ w.refused)
    (hstep : w.step (.registerPrefix s k) = some w') :
    Advances geom (.registerPrefix s k) w w' := by
  have hsplices := registerPrefix_splices h.core.inv.wf s k
  have hspec := registerPrefix_spec h.core.inv.wf s k
  simp only [step, onCore] at hstep
  generalize KvPool.registerPrefix .debug s k w.dev.core = out at hspec hsplices hstep
  cases hspec with
  | arith _ => cases hstep
  | refused e =>
    cases hstep
    exact ⟨⟨vals, h.skipSession.use s⟩, fun _ _ _ => rfl, fun _ _ _ => rfl⟩
  | ok hok =>
    obtain ⟨-, qs, hreg⟩ := hok
    obtain ⟨rfl, u, ps, core₁, hsp, hfull, -, rfl⟩ := hsplices.of_ok
    cases hstep
    have hne := h.issued_ne hs
    -- the donor's table is the one it had before the owner was opened
    have hdonor : w.dev.core.tables.lookup s = some u := by
      have := hsp.donor
      simpa [KvBlockPool.opened, hne] using this
    have hgeom : core₁.geom.blockSize = geom.blockSize := by
      rw [hsp.rest.geom]
      exact congrArg KvGeometry.blockSize h.core.geom_eq
    rw [h.core.geom_eq] at hfull
    have hlen : k * geom.blockSize ≤ (vals s).length := by
      rw [h.length_eq hr hdonor]
      exact hfull
    have hothers : ∀ s' i, s' ≠ ⟨w.dev.core.nextSession⟩ →
        core₁.residentBlock s' i = w.dev.core.residentBlock s' i := by
      intro s' i hss
      exact residentBlock_congr ((hsp.others s' hss).trans (by simp [KvBlockPool.opened, hss])) i
    have hempty : ∀ i, w.dev.core.residentBlock ⟨w.dev.core.nextSession⟩ i = none := by
      intro i
      simp [KvBlockPool.residentBlock, h.core.inv.wf.lookup_fresh (Nat.le_refl _)]
    have hkeeps : Keeps geom.blockSize core₁.residentBlock w.dev.cells (update vals
        ⟨w.dev.core.nextSession⟩ ((vals s).take (k * geom.blockSize))) := by
      refine h.keeps.share hlen hempty hothers ?_
      intro i p hp
      obtain ⟨hi, hsrc⟩ := hsp.shares rfl hp
      exact ⟨hi, (residentBlock_opened _ hsrc).2⟩
    refine ⟨⟨_, h.core.registered hbs hreg hsp.rest.cached, hkeeps, ?_, ?_, ?_, h.refused, ?_⟩,
      fun s' hs' _ => hreg.others s' (h.issued_ne hs'), fun _ _ _ => rfl⟩
    · intro s' hs'
      rw [update_of_ne (h.issued_ne hs')]
      exact h.own s' hs'
    · intro id' o ho
      show _ = update w.model.prefixes _ _ id' ∧ _
      rcases lookup_of_insert ho with ⟨rfl, rfl⟩ | ⟨hid, ho⟩
      · rw [update_self, update_self, hgeom, ← h.own s hs]
        refine ⟨rfl, ?_⟩
        rw [length_take]
        exact Nat.min_eq_left hlen
      · rw [update_of_ne hid, update_of_ne (h.owner_ne ho)]
        exact h.prefixes id' o ho
    · intro s' t ht
      by_cases hss : s' = ⟨w.dev.core.nextSession⟩
      · subst hss
        obtain rfl : t = _ := mem_unique ht hreg.owner
        left
        rw [update_self, length_take, h.core.geom_eq]
        exact Nat.min_eq_left hlen
      · rw [update_of_ne hss]
        exact h.filled s' t ((hreg.others s' hss).symm.trans ht)
    · intro s' e he
      obtain ⟨hissued, t, ht, hh⟩ := (h.use s).handles s' e he
      have hss := h.issued_ne hissued
      refine ⟨hissued, t, ?_, ?_⟩
      · rw [← ht]
        exact hreg.others s' hss
      · rw [update_of_ne hss]
        exact hh

theorem Sound.releasePrefix (hstep : w.step (.releasePrefix id) = some w') :
    Advances geom (.releasePrefix id) w w' := by
  have hspec := releasePrefix_spec h.core.inv.wf id
  simp only [step, onCore] at hstep
  generalize KvPool.releasePrefix .debug id w.dev.core = out at hspec hstep
  cases hspec with
  | arith _ => cases hstep
  | refused e =>
    cases hstep
    exact ⟨⟨vals, h⟩, fun _ _ _ => rfl, fun _ _ _ => rfl⟩
  | @ok _ core' hok =>
    obtain ⟨o, ho, hw', rest, tables⟩ := hok
    cases hstep
    have hother : ∀ s, s ∈ w.issued → core'.tables.lookup s = w.dev.core.tables.lookup s := by
      intro s hs
      have hne : s ≠ o.owner := by
        rintro rfl
        exact h.core.hidden.hidden id o ho hs
      rw [tables, lookup_erase_ite, if_neg hne]
    refine ⟨⟨vals, (h.core.unregistered id).closed hw' rest tables, ?_, h.own, ?_, ?_, h.refused, ?_⟩,
      fun s hs _ => hother s hs, fun _ _ _ => rfl⟩
    · refine h.keeps.drop ?_ fun _ _ _ _ => rfl
      intro s i p hp
      exact (residentBlock_erase tables hp).2
    · intro id' o' ho'
      have ho' : core'.prefixes.lookup id' = some o' := ho'
      rw [rest.prefixes] at ho'
      exact h.prefixes id' o' (lookup_of_erase ho').2
    · intro s t ht
      have ht : core'.tables.lookup s = some t := ht
      rw [tables] at ht
      exact h.filled s t (lookup_of_erase ht).2
    · intro s e he
      obtain ⟨hissued, t, ht, hh⟩ := h.handles s e he
      exact ⟨hissued, t, (hother s hissued).trans ht, hh⟩

/-! ## Evict and restore -/

omit h in
theorem exclusiveSlots_run (hw : Wf dev.core) (ht : dev.core.tables.lookup s = some t)
    (indices : List Nat) : exclusiveSlots s indices dev
      = .ok (indices.filter (dev.core.exclusiveAt t)) dev := by
  induction indices with
  | nil => rfl
  | cons i rest ih =>
    rw [exclusiveSlots, bind_run, get_run, andThen_ok, filter_cons]
    cases hblock : dev.core.residentBlock s i with
    | none =>
      have hno : dev.core.exclusiveAt t i = false := by
        unfold KvBlockPool.exclusiveAt
        split
        · rename_i p hslot
          rw [(residentBlock_eq ht i p).mpr hslot] at hblock
          cases hblock
        · rfl
      rw [hno]
      exact ih
    | some p =>
      have hslot := (residentBlock_eq ht i p).mp hblock
      have hlt := hw.lt_length (hw.slot_pos ht (mem_of_getElem? hslot))
      have hiff : dev.core.exclusiveAt t i = true ↔ dev.core.refcount.getD p 0 = 1 :=
        KvBlockPool.exclusiveAt_iff hslot
      simp only [bind_run, onCore, refcountAt_run hlt, andThen_ok, ih, pure_run]
      by_cases hone : dev.core.refcount.getD p 0 = 1
      · rw [if_pos hone, if_pos (hiff.mpr hone)]
      · rw [if_neg hone, if_neg fun hc => hone (hiff.mp hc)]

omit h in
/-- The bytes saved are those of the blocks in the slots. -/
theorem saveBlocks_run {slots : List Nat}
    (hres : ∀ i ∈ slots, ∃ p, dev.core.residentBlock s i = some p) :
    ∃ saved, saveBlocks s slots dev = .ok saved dev ∧
      saved.map SavedBlock.logicalSlot = slots ∧
      ∀ sb ∈ saved, ∃ p, dev.core.residentBlock s sb.logicalSlot = some p ∧
        sb.block = dev.cells p := by
  induction slots with
  | nil => exact ⟨[], rfl, rfl, by simp⟩
  | cons i rest ih =>
    obtain ⟨p, hp⟩ := hres i mem_cons_self
    obtain ⟨saved, hrun, hslots, hbytes⟩ := ih fun j hj => hres j (mem_cons_of_mem _ hj)
    refine ⟨⟨i, dev.cells p⟩ :: saved, ?_, by rw [map_cons, hslots], ?_⟩
    · simp only [saveBlocks, bind_run, get_run, andThen_ok, hp, okOr_some,
        pure_run, hrun]
    · intro sb hsb
      rcases mem_cons.mp hsb with rfl | hold
      · exact ⟨p, hp, rfl⟩
      · exact hbytes sb hold

/-- What an eviction of a whole session does and hands back. -/
theorem Sound.evict_run (hs : s ∈ w.issued) (ht : w.dev.core.tables.lookup s = some t) :
    ∃ e core' t', DeviceKvPool.evict s w.dev = .ok e ⟨core', w.dev.cells⟩ ∧
      OnSession s t t' w.dev.core core' ∧ t'.slots.length = t.slots.length ∧
      t'.filledTokens = t.filledTokens ∧
      (∀ i p, core'.residentBlock s i = some p → w.dev.core.residentBlock s i = some p) ∧
      Holds geom.blockSize t' (vals s) e := by
  have hw := h.core.inv.wf
  have hnodup : (List.range t.slots.length).Nodup := nodup_range
  obtain ⟨r, core', t', hrun, on, hdet⟩ := evictBlocks_exact hw ht (h.core.not_owner hs) hnodup
    (fun i hi => mem_range.mp hi)
  have hthere : ∀ i ∈ (List.range t.slots.length).filter (w.dev.core.exclusiveAt t),
      ∃ p, w.dev.core.residentBlock s i = some p := by
    intro i hi
    have hex := (mem_filter.mp hi).2
    unfold KvBlockPool.exclusiveAt at hex
    split at hex
    · rename_i p hslot
      exact ⟨p, (residentBlock_eq ht i p).mpr hslot⟩
    · cases hex
  obtain ⟨saved, hsave, hslots, hbytes⟩ := saveBlocks_run hthere
  have hlen : t'.slots.length = t.slots.length := by
    have hev := (evictBlocks_spec hw s (List.range t.slots.length))
    rw [hrun] at hev
    obtain ⟨t₁, t₂, ev⟩ := hev.of_ok
    obtain rfl : t₁ = t := mem_unique ev.before ht
    obtain rfl : t₂ = t' := mem_unique ev.after on.after
    exact ev.length
  refine ⟨⟨r.handle, saved⟩, core', t', ?_, on, hlen, hdet.filled, ?_, hdet.describes hnodup, ?_, ?_⟩
  · have hblocks : w.dev.core.sessionBlocks s = some t.slots.length := by
      simp [KvBlockPool.sessionBlocks, ht]
    simp only [DeviceKvPool.evict, DeviceKvPool.evictBlocks, bind_run, get_run, andThen_ok,
      hblocks, okOr_some, pure_run, exclusiveSlots_run hw ht, hsave, DeviceKvPool.onCore, hrun]
  · intro i p hp
    rw [residentBlock_eq on.after, hdet.slots i] at hp
    rw [residentBlock_eq ht]
    split at hp
    · cases hp
    · exact hp
  · rw [hslots, hdet.freed]
  · intro sb hsb j hj hlt
    obtain ⟨p, hp, hblock⟩ := hbytes sb hsb
    rw [hblock]
    exact h.keeps.holds s _ p hp j hj hlt

theorem Sound.evict (hs : s ∈ w.issued) (hr : s ∉ w.refused) (hstep : w.step (.evict s) = some w') :
    Advances geom (.evict s) w w' := by
  simp only [step] at hstep
  cases ht : w.dev.core.tables.lookup s with
  | none =>
    have hnone : w.dev.core.sessionBlocks s = none := by simp [KvBlockPool.sessionBlocks, ht]
    have hrun : DeviceKvPool.evict s w.dev = .err (.alloc .unknownSession) w.dev := by
      simp only [DeviceKvPool.evict, bind_run, get_run, andThen_ok, hnone, okOr_none,
        fail_run, andThen_err]
    rw [hrun] at hstep
    cases hstep
    exact ⟨⟨vals, h.use s⟩, fun _ _ _ => rfl, fun _ _ _ => rfl⟩
  | some t =>
    obtain ⟨e, core', t', hrun, on, hlen, hfilled, hpages, hholds⟩ := h.evict_run hs ht
    rw [hrun] at hstep
    cases hstep
    refine h.onSession hs mem_cons_self on ?_ (h.model_eq hs) ?_ (fun _ _ => Iff.rfl)
      (.inl ((h.length_eq hr ht).trans hfilled.symm)) (fun e' he' => some.inj he' ▸ hholds)
    · intro hin
      unfold InStep at *
      rwa [hlen, hfilled]
    rw [update_eq_self]
    refine h.keeps.drop ?_ fun _ _ _ _ => rfl
    intro s' i p hp
    by_cases hss : s' = s
    · subst hss
      exact hpages i p hp
    · rw [← hp]
      exact (residentBlock_congr (on.others s' hss) i).symm

omit h

/-- The saved bytes end up in the blocks of their slots, and nowhere else. -/
theorem writeBacks_return (cells : PhysBlockId → Nat → V) {saved : List (SavedBlock V)}
    (hnodup : (saved.map SavedBlock.logicalSlot).Nodup)
    (hres : ∀ sb ∈ saved, ∃ p, core.residentBlock s sb.logicalSlot = some p)
    (hinj : ∀ sb ∈ saved, ∀ i p, core.residentBlock s sb.logicalSlot = some p →
      core.residentBlock s i = some p → i = sb.logicalSlot) :
    ∃ cells', (forM saved fun sb => writeBack noFault s sb) (⟨core, cells⟩ : DeviceKvPool V)
        = .ok ⟨⟩ ⟨core, cells'⟩ ∧
      (∀ sb ∈ saved, ∀ p, core.residentBlock s sb.logicalSlot = some p → cells' p = sb.block) ∧
      ∀ q, (∀ sb ∈ saved, core.residentBlock s sb.logicalSlot ≠ some q) → cells' q = cells q := by
  induction saved generalizing cells with
  | nil => exact ⟨cells, rfl, by simp, fun _ _ => rfl⟩
  | cons sb rest ih =>
    obtain ⟨p, hp⟩ := hres sb mem_cons_self
    rw [map_cons, nodup_cons] at hnodup
    obtain ⟨cells', hrun, hback, hrest⟩ := ih (update cells p sb.block) hnodup.2
      (fun x hx => hres x (mem_cons_of_mem _ hx))
      (fun x hx => hinj x (mem_cons_of_mem _ hx))
    refine ⟨cells', ?_, ?_, ?_⟩
    · have hwrite : writeBack noFault s sb (⟨core, cells⟩ : DeviceKvPool V)
          = .ok () ⟨core, update cells p sb.block⟩ := by
        simp only [writeBack, bind_run, get_run, andThen_ok, hp, okOr_some,
          pure_run, writeBlock, noFault, set_run]
      rw [forM_cons_run, hwrite, andThen_ok]
      exact hrun
    · intro x hx q hq
      rcases mem_cons.mp hx with rfl | hold
      · obtain rfl : p = q := mem_unique hp hq
        rw [hrest p ?_, update_self]
        intro y hy hyp
        have := hinj x mem_cons_self _ p hp hyp
        exact hnodup.1 (this ▸ mem_map_of_mem hy)
      · exact hback x hold q hq
    · intro q hq
      have hpq : q ≠ p := by
        rintro rfl
        exact hq sb mem_cons_self hp
      rw [hrest q fun x hx => hq x (mem_cons_of_mem _ hx), update_of_ne hpq]

/-- A slot that got a block got one of its own, off the free list. -/
theorem Refits.fresh {t' : BlockTable} {done : List Nat} (hfit : Refits t done ps t')
    (hps : ps.Nodup) (hold : ∀ (j : Nat), ∀ q ∈ ps, t.slots[j]? ≠ some (.resident q))
    (hp : t'.slots[i]? = some (.resident p))
    (haway : ∀ q : PhysBlockId, t.slots[i]? ≠ some (.resident q)) :
    p ∈ ps ∧ ∀ j, t'.slots[j]? = some (.resident p) → j = i := by
  rcases (hfit.slots i p).mp hp with hwas | ⟨k, hk, hkp⟩
  · exact absurd hwas (haway p)
  refine ⟨mem_of_getElem? hkp, ?_⟩
  intro j hj
  rcases (hfit.slots j p).mp hj with hwas | ⟨k', hk', hkp'⟩
  · exact absurd hwas (hold j p (mem_of_getElem? hkp))
  · have hkk : k = k' := by
      refine (getElem?_inj (lt_of_getElem? hkp) hps).mp ?_
      rw [hkp, hkp']
    rw [hkk, hk', some.injEq] at hk
    exact hk

/-- What a restore of a session that was not used since its eviction does:
its blocks come back with their bytes. -/
theorem Sound.restore_run (h : Sound geom w vals) {e : DeviceEvicted V}
    (hhandle : w.handles s = some e) :
    (∃ err, DeviceKvPool.restore noFault s e w.dev = .err err w.dev) ∨
    ∃ core' cells' t t', DeviceKvPool.restore noFault s e w.dev = .ok () ⟨core', cells'⟩ ∧
      OnSession s t t' w.dev.core core' ∧ t'.slots.length = t.slots.length ∧
      t'.filledTokens = t.filledTokens ∧
      Keeps geom.blockSize core'.residentBlock cells' vals := by
  obtain ⟨-, t, ht, hdesc, hslots, hbytes⟩ := h.handles s e hhandle
  have hw := h.core.inv.wf
  rcases restore_exact hw ht hdesc with herr | ⟨core', t', ps, hrun, on, hfit, htaken⟩
  · left
    refine ⟨.alloc (.outOfBlocks e.coreHandle.externalizedSlots.length w.dev.core.free.length), ?_⟩
    simp only [DeviceKvPool.restore, bind_run, DeviceKvPool.onCore, herr, andThen_err]
  right
  -- the new blocks were free, so each is in one place
  have hfree : ∀ q ∈ ps, q ∈ w.dev.core.free := by
    intro q hq
    rw [htaken]
    exact mem_append_right _ (mem_reverse.mpr hq)
  have hps : ps.Nodup := by
    have := hw.freeNodup
    rw [htaken] at this
    exact nodup_reverse.mp (nodup_append.mp this).2.1
  have hold : ∀ (j : Nat), ∀ q ∈ ps, t.slots[j]? ≠ some (.resident q) := by
    intro j q hq hj
    exact residentBlock_ne_of_free hw (hfree q hq) s j ((residentBlock_eq ht j q).mpr hj)
  have hnew : ∀ i ∈ e.coreHandle.externalizedSlots, ∀ p, core'.residentBlock s i = some p →
      p ∈ ps ∧ ∀ j, core'.residentBlock s j = some p → j = i := by
    intro i hi p hp
    rw [residentBlock_eq on.after] at hp
    obtain ⟨hmem, honly⟩ := hfit.fresh hps hold hp (by simp [hdesc.away i hi])
    refine ⟨hmem, ?_⟩
    intro j hj
    rw [residentBlock_eq on.after] at hj
    exact honly j hj
  have hslot : ∀ sb ∈ e.saved, sb.logicalSlot ∈ e.coreHandle.externalizedSlots := by
    intro sb hsb
    rw [← hslots]
    exact mem_map_of_mem hsb
  have hthere : ∀ sb ∈ e.saved, ∃ p, core'.residentBlock s sb.logicalSlot = some p := by
    intro sb hsb
    obtain ⟨k, hk⟩ := mem_iff_getElem?.mp (hslot sb hsb)
    have hklt := lt_of_getElem? hk
    rw [← hfit.count] at hklt
    refine ⟨ps[k], (residentBlock_eq on.after _ _).mpr ?_⟩
    exact (hfit.slots _ _).mpr (.inr ⟨k, hk, getElem?_eq_getElem hklt⟩)
  obtain ⟨cells', hwrites, hback, hrest⟩ := writeBacks_return w.dev.cells
    (by rw [hslots]; exact hdesc.distinct) hthere
    (fun sb hsb i p hp hpi => (hnew _ (hslot sb hsb) p hp).2 i hpi)
  refine ⟨core', cells', t, t', ?_, on, hfit.length, hfit.filled, ?_⟩
  · simp only [DeviceKvPool.restore, bind_run, DeviceKvPool.onCore, hrun, andThen_ok]
    exact hwrites
  refine h.keeps.refill (s := s) (fun s' i hss => residentBlock_congr (on.others s' hss) i) ?_ ?_
  · intro i p hp
    rcases (hfit.slots i p).mp ((residentBlock_eq on.after i p).mp hp) with hwas | ⟨k, hk, -⟩
    · exact .inl ((residentBlock_eq ht i p).mpr hwas)
    right
    have hi := mem_of_getElem? hk
    obtain ⟨hmem, honly⟩ := hnew i hi p hp
    refine ⟨residentBlock_ne_of_free hw (hfree p hmem), honly, ?_⟩
    intro j hj hlt
    rw [← hslots] at hi
    obtain ⟨sb, hsb, rfl⟩ := mem_map.mp hi
    rw [hback sb hsb p hp]
    exact hbytes sb hsb j hj hlt
  · intro q hq
    refine hrest q ?_
    intro sb hsb hsq
    exact hq (residentBlock_ne_of_free hw (hfree q (hnew _ (hslot sb hsb) q hsq).1))

theorem Sound.restore (h : Sound geom w vals) (hs : s ∈ w.issued) (hr : s ∉ w.refused)
    (hstep : w.step (.restore s) = some w') : Advances geom (.restore s) w w' := by
  cases hhandle : w.handles s with
  | none =>
    simp only [step, hhandle] at hstep
    cases hstep
  | some e =>
    simp only [step, hhandle] at hstep
    rcases h.restore_run hhandle with
      ⟨err, hrun⟩ | ⟨core', cells', t, t', hrun, on, hlen, hfilled, hkeeps⟩
    · rw [hrun] at hstep
      cases hstep
      exact ⟨⟨vals, h.use s⟩, fun _ _ _ => rfl, fun _ _ _ => rfl⟩
    rw [hrun] at hstep
    cases hstep
    refine h.onSession hs mem_cons_self on ?_ (h.model_eq hs) ?_ (fun _ _ => Iff.rfl)
      (.inl ((h.length_eq hr on.before).trans hfilled.symm)) (by simp)
    · intro hin
      unfold InStep at *
      rwa [hlen, hfilled]
    · rwa [update_eq_self]

end Calls

/-! ## Runs -/

section Runs

variable {V : Type} {geom : KvGeometry}

theorem Sound.new (geom : KvGeometry) (zero : V) :
    Sound geom (.new geom zero) (fun _ => []) where
  core := .new geom
  keeps := by
    refine (Keeps.empty geom.blockSize _ _).drop ?_ fun _ _ _ _ => rfl
    intro s i p hp
    obtain ⟨t, ht, -⟩ := residentBlock_table hp
    simp [Tenancy.new, DeviceKvPool.new, KvBlockPool.new] at ht
  own := by
    intro s hs
    cases hs
  prefixes := by
    intro id o ho
    simp [Tenancy.new, DeviceKvPool.new, KvBlockPool.new] at ho
  filled := by
    intro s t ht
    simp [Tenancy.new, DeviceKvPool.new, KvBlockPool.new] at ht
  refused := by
    intro s hs
    cases hs
  handles := by
    intro s e he
    cases he

variable {w : Tenancy V} {vals : SessionHandle → List V}

/-- **One call** of any tenant keeps the relation. -/
theorem Sound.step {w' : Tenancy V} (h : Sound geom w vals) (hbs : 0 < geom.blockSize) {c : Call V}
    (hc : w.Allows c) (hstep : w.step c = some w') : Advances geom c w w' := by
  cases c with
  | openSession => exact h.openSession hbs hstep
  | write s x => exact h.write hbs hc.1 hc.2 hstep
  | discard s => exact h.discard hc hstep
  | registerPrefix s k => exact h.registerPrefix hbs hc.1 hc.2 hstep
  | releasePrefix id => exact h.releasePrefix hstep
  | splicePrefixFrom id s => exact h.splicePrefixFrom hbs hc.1 hstep
  | evict s => exact h.evict hc.1 hc.2 hstep
  | restore s => exact h.restore hc.1 hc.2 hstep

theorem Tenancy.Reached.sound {zero : V} (h : Tenancy.Reached geom zero w)
    (hbs : 0 < geom.blockSize) : ∃ vals, Sound geom w vals := by
  induction h with
  | new => exact ⟨_, .new geom zero⟩
  | call _ hc hstep ih =>
    obtain ⟨vals, hsound⟩ := ih
    exact (hsound.step hbs hc hstep).sound

/-! ## Registering a prefix of an evicted session -/

/-- A handle that is put back, its session being as the handle says. -/
theorem Sound.of_use {s : SessionHandle} (h : Sound geom (w.use s) vals)
    (hs : ∀ e, w.handles s = some e → s ∈ w.issued ∧ ∃ t,
      w.dev.core.tables.lookup s = some t ∧ Holds geom.blockSize t (vals s) e) :
    Sound geom w vals := by
  refine ⟨h.core, h.keeps, h.own, h.prefixes, h.filled, h.refused, ?_⟩
  intro s' e he
  by_cases hss : s' = s
  · subst hss
    exact hs e he
  · refine h.handles s' e ?_
    simpa [Tenancy.use, hss] using he

/-- The donor of a prefix is not used by it: a handle of its eviction is still good. -/
theorem Sound.registered {s : SessionHandle} (h : Sound geom w vals) (hbs : 0 < geom.blockSize)
    (hs : s ∈ w.issued) (hr : s ∉ w.refused) {k : Nat} {id : PrefixId} {dev : DeviceKvPool V}
    (hrun : onCore (KvPool.registerPrefix .debug s k) w.dev = .ok id dev) :
    (∃ vals', Sound geom { w with
      dev := dev, model := w.model.registered id s (k * geom.blockSize) } vals') ∧
      k * geom.blockSize ≤ (w.model.caches s).length := by
  have hstep : w.step (.registerPrefix s k) = some { Tenancy.use { w with dev := dev } s with
      model := w.model.registered id s (k * dev.core.geom.blockSize) } := by
    simp only [Tenancy.step, hrun]
    rfl
  obtain ⟨⟨vals', hsound⟩, -, -⟩ := h.registerPrefix hbs hs hr hstep
  have hgeom : dev.core.geom = geom := hsound.core.geom_eq
  rw [hgeom] at hsound
  have hspec := registerPrefix_spec h.core.inv.wf s k
  simp only [onCore] at hrun
  cases hcore : KvPool.registerPrefix .debug s k w.dev.core with
  | abort why =>
    rw [hcore] at hrun
    cases hrun
  | err e core =>
    rw [hcore] at hrun
    cases hrun
  | ok id' core =>
    rw [hcore] at hrun hspec
    cases hrun
    obtain ⟨rfl, ps, hreg⟩ := hspec.of_ok
    refine ⟨⟨vals', Sound.of_use (s := s) hsound ?_⟩, ?_⟩
    · intro e he
      obtain ⟨hissued, t, ht, hholds⟩ := h.handles s e he
      refine ⟨hissued, t, (hreg.others s (h.issued_ne hissued)).trans ht, ?_⟩
      have hvals : vals' s = vals s := (hsound.own s hissued).trans (h.own s hissued).symm
      rw [hvals]
      exact hholds
    · obtain ⟨howned, hlen⟩ := hsound.prefixes ⟨w.dev.core.nextPrefix⟩
        ⟨⟨w.dev.core.nextSession⟩, k⟩ (by
          show core.prefixes.lookup _ = _
          rw [hreg.prefixes, lookup_insert_ite, if_pos rfl])
      rw [howned] at hlen
      simp only [PrivateCaches.registered, update_self, length_take] at hlen
      omega

/-! ## What several calls leave -/

/-- Calls on the sessions of `S` led from `w` to `w'`: the relation holds, and
what the other sessions have is as it was. -/
structure Moves (geom : KvGeometry) (S : List SessionHandle) (w w' : Tenancy V) : Prop where
  sound : ∃ vals, Sound geom w' vals
  issued : ∀ s ∈ w.issued, s ∈ w'.issued
  tables : ∀ s ∈ w.issued, s ∉ S → w'.dev.core.tables.lookup s = w.dev.core.tables.lookup s
  caches : ∀ s ∈ w.issued, s ∉ S → w'.model.caches s = w.model.caches s
  handles : ∀ s ∈ w.issued, s ∉ S → w'.handles s = w.handles s
  refused : ∀ s ∈ w.issued, s ∉ S → s ∉ w.refused → s ∉ w'.refused
  prefixes : w'.model.prefixes = w.model.prefixes

namespace Moves

variable {w w₁ w' : Tenancy V} {S S' : List SessionHandle} {vals : SessionHandle → List V}

theorem refl (h : Sound geom w vals) (S : List SessionHandle) : Moves geom S w w :=
  ⟨⟨vals, h⟩, fun _ hs => hs, fun _ _ _ => rfl, fun _ _ _ => rfl, fun _ _ _ => rfl,
    fun _ _ _ hr => hr, rfl⟩

theorem trans (h : Moves geom S w w₁) (h' : Moves geom S w₁ w') : Moves geom S w w' where
  sound := h'.sound
  issued := fun s hs => h'.issued s (h.issued s hs)
  tables := fun s hs hS => (h'.tables s (h.issued s hs) hS).trans (h.tables s hs hS)
  caches := fun s hs hS => (h'.caches s (h.issued s hs) hS).trans (h.caches s hs hS)
  handles := fun s hs hS => (h'.handles s (h.issued s hs) hS).trans (h.handles s hs hS)
  refused := fun s hs hS hr => h'.refused s (h.issued s hs) hS (h.refused s hs hS hr)
  prefixes := h'.prefixes.trans h.prefixes

theorem mono (h : Moves geom S w w') (hsub : ∀ s ∈ S, s ∈ S') : Moves geom S' w w' where
  sound := h.sound
  issued := h.issued
  tables := fun s hs hS => h.tables s hs fun hmem => hS (hsub s hmem)
  caches := fun s hs hS => h.caches s hs fun hmem => hS (hsub s hmem)
  handles := fun s hs hS => h.handles s hs fun hmem => hS (hsub s hmem)
  refused := fun s hs hS => h.refused s hs fun hmem => hS (hsub s hmem)
  prefixes := h.prefixes

/-- One allowed call, unless it registers a prefix. -/
theorem of_step (h : Sound geom w vals) (hbs : 0 < geom.blockSize) {c : Call V} (hc : w.Allows c)
    (hstep : w.step c = some w') (hreg : ∀ s k, c ≠ .registerPrefix s k) :
    Moves geom c.sessions w w' := by
  obtain ⟨hsound, htables, hcaches⟩ := h.step hbs hc hstep
  obtain ⟨hissued, hframe⟩ := step_frame hstep
  obtain ⟨hprefixes, hbook⟩ := hframe hreg
  exact ⟨hsound, hissued, htables, hcaches, fun s hs hS => (hbook s hS (h.issued_ne hs)).1,
    fun s hs hS hr hr' => hr ((hbook s hS (h.issued_ne hs)).2 hr'), hprefixes⟩

end Moves

end Runs

end Fuel.KvPool
