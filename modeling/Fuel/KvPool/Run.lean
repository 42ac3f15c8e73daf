import Fuel.KvPool.BlockIndex

/-!
# The KV block pool: runs

A `Cmd` is one call of a public operation with its arguments. A run is any
finite sequence of calls, each of which returned — with `Ok` or with `Err`.
A `World` pairs the pool with the session handles its consumers were given,
so that "uses only handles returned by `open`" can be said of a run. Where a
build with overflow checks does not abort, one without does the same
(`exec_unchecked`); so a run that overflows nothing is a run of the checked
build (`Steps.checked`), and the specifications are about that one.
-/

namespace Fuel.KvPool

open Fuel Method

/-- One call of a public operation. -/
inductive Cmd where
  | openSession
  | append (s : SessionHandle) (addTokens : Nat)
  | evict (s : SessionHandle)
  | evictBlocks (s : SessionHandle) (indices : List Nat)
  | evictRange (s : SessionHandle) (lo hi : Nat)
  | restore (s : SessionHandle) (handle : Externalized)
  | discard (s : SessionHandle)
  | splice (src dst : SessionHandle) (lo hi : Nat)
  | splicePrefix (src dst : SessionHandle) (prefixBlocks : Nat)
  | cowBreak (s : SessionHandle) (i : Nat)
  | registerPrefix (donor : SessionHandle) (prefixBlocks : Nat)
  | releasePrefix (id : PrefixId)
  | splicePrefixFrom (id : PrefixId) (dst : SessionHandle)
  | allocShiftedPrefixSlots (id : PrefixId) (dst : SessionHandle)
  | commitBlock (s : SessionHandle) (i : Nat) (hash : BlockHash)
  | lookupChain (hashes : List BlockHash)
  | spliceCachedChain (dst : SessionHandle) (hashes : List BlockHash)
  | releaseCached (hash : BlockHash)

/-- What a call that returned `Ok` handed back. -/
inductive Reply where
  | unit
  | session (s : SessionHandle)
  | report (r : EvictReport)
  | block (p : PhysBlockId)
  | prefixId (id : PrefixId)
  | tokens (n : Nat)
  | shifted (m : Nat) (pairs : List (PhysBlockId × PhysBlockId))
  | committed (b : Bool)
  | blocks (ps : List PhysBlockId)

/-- The call a command stands for. -/
def Cmd.exec (build : Build) : Cmd → PoolM Reply
  | .openSession => do return .session (← KvPool.openSession)
  | .append s n => do KvPool.append build s n; return .unit
  | .evict s => do return .report (← KvPool.evict s)
  | .evictBlocks s is => do return .report (← KvPool.evictBlocks s is)
  | .evictRange s lo hi => do return .report (← KvPool.evictRange s lo hi)
  | .restore s h => do KvPool.restore s h; return .unit
  | .discard s => do KvPool.discard build s; return .unit
  | .splice src dst lo hi => do KvPool.splice build src dst lo hi; return .unit
  | .splicePrefix src dst k => do return .tokens (← KvPool.splicePrefix build src dst k)
  | .cowBreak s i => do return .block (← KvPool.cowBreak build s i)
  | .registerPrefix d k => do return .prefixId (← KvPool.registerPrefix build d k)
  | .releasePrefix id => do KvPool.releasePrefix build id; return .unit
  | .splicePrefixFrom id dst => do return .tokens (← KvPool.splicePrefixFrom build id dst)
  | .allocShiftedPrefixSlots id dst => do
    let (m, pairs) ← KvPool.allocShiftedPrefixSlots build id dst
    return .shifted m pairs
  | .commitBlock s i h => do return .committed (← KvPool.commitBlock build s i h)
  | .lookupChain hs => do return .blocks (← KvPool.lookupChain hs)
  | .spliceCachedChain dst hs => do return .tokens (← KvPool.spliceCachedChain build dst hs)
  | .releaseCached h => do KvPool.releaseCached build h; return .unit

/-! ## Without overflow checks -/

section Unchecked

theorem dropRef_unchecked (p : PhysBlockId) : Unchecked (dropRef .debug p) (dropRef .release p) :=
  .after fun _ => (Unchecked.subU32In _ _).before

theorem addFilled_unchecked (s : SessionHandle) (n : Nat) :
    Unchecked (addFilled .debug s n) (addFilled .release s n) :=
  .after fun _ => (Unchecked.addUsizeIn _ _).before

theorem shareSlot_unchecked (s : SessionHandle) (p : PhysBlockId) :
    Unchecked (shareSlot .debug s p) (shareSlot .release s p) :=
  .after fun _ => (Unchecked.addU32In _ _).before

theorem append_unchecked (s : SessionHandle) (n : Nat) :
    Unchecked (append .debug s n) (append .release s n) :=
  .after fun _ => .after fun _ => (Unchecked.addUsizeIn _ _).before

theorem discard_unchecked (s : SessionHandle) :
    Unchecked (discard .debug s) (discard .release s) := by
  refine .after fun pool => ?_
  cases pool.tables.lookup s with
  | none => exact .refl _
  | some t =>
    refine .after fun _ => .forM (fun slot => ?_) _
    cases slot with
    | resident p => exact dropRef_unchecked p
    | externalized => exact .refl _

theorem splice_unchecked (src dst : SessionHandle) (lo hi : Nat) :
    Unchecked (splice .debug src dst lo hi) (splice .release src dst lo hi) :=
  .after fun _ => .after fun _ => .after fun _ => (Unchecked.mulUsizeIn _ _).bind fun _ =>
    (Unchecked.mulUsizeIn _ _).bind fun _ => (Unchecked.forM (shareSlot_unchecked dst) _).bind
      fun _ => addFilled_unchecked dst _

theorem splicePrefix_unchecked (src dst : SessionHandle) (k : Nat) :
    Unchecked (splicePrefix .debug src dst k) (splicePrefix .release src dst k) :=
  .after fun _ => .after fun _ => .otherwise <| .after fun _ => .otherwise <|
    (Unchecked.mulUsizeIn _ _).bind fun _ => .otherwise (splice_unchecked src dst 0 k).before

theorem cowBreak_unchecked (s : SessionHandle) (i : Nat) :
    Unchecked (cowBreak .debug s i) (cowBreak .release s i) := by
  refine .after fun t => ?_
  rcases t.slots[i]? with _ | p | _
  · exact .refl _
  · exact .after fun _ => .otherwise <| .after fun _ => .otherwise <| .after fun _ => .after fun _ =>
      .after fun _ => (Unchecked.subU32In _ _).before
  · exact .refl _

theorem registerPrefix_unchecked (donor : SessionHandle) (k : Nat) :
    Unchecked (registerPrefix .debug donor k) (registerPrefix .release donor k) := by
  refine .after fun owner => (splicePrefix_unchecked donor owner k).attempt.bind fun r => ?_
  cases r with
  | ok => exact .refl _
  | error e => exact (discard_unchecked owner).before

theorem splicePrefixFrom_unchecked (id : PrefixId) (dst : SessionHandle) :
    Unchecked (splicePrefixFrom .debug id dst) (splicePrefixFrom .release id dst) :=
  .after fun _ => .after fun o => splicePrefix_unchecked o.owner dst o.prefixBlocks

theorem allocShiftedPrefixSlots_unchecked (id : PrefixId) (dst : SessionHandle) :
    Unchecked (allocShiftedPrefixSlots .debug id dst) (allocShiftedPrefixSlots .release id dst) := by
  have hvalidate : Unchecked (validateShiftedPrefixAlloc .debug id dst)
      (validateShiftedPrefixAlloc .release id dst) :=
    .after fun _ => .after fun _ => .after fun _ => .otherwise <| .after fun _ => .after fun _ =>
      (Unchecked.mulUsizeIn _ _).before
  exact hvalidate.bind fun _ => .after fun _ => .after fun _ => .after fun _ =>
    (Unchecked.mulUsizeIn _ _).bind fun _ => (addFilled_unchecked dst _).before

theorem commitBlock_unchecked (s : SessionHandle) (i : Nat) (hash : BlockHash) :
    Unchecked (commitBlock .debug s i hash) (commitBlock .release s i hash) := by
  refine .after fun _ => .after fun _ => .after fun slot => ?_
  cases slot with
  | externalized => exact .refl _
  | resident p =>
    exact (Unchecked.addUsizeIn _ _).bind fun _ => (Unchecked.mulUsizeIn _ _).bind fun _ =>
      .otherwise <| .otherwise <| .after fun _ => (Unchecked.addU32In _ _).before

theorem spliceCachedChain_unchecked (dst : SessionHandle) (hashes : List BlockHash) :
    Unchecked (spliceCachedChain .debug dst hashes) (spliceCachedChain .release dst hashes) :=
  .after fun _ => .otherwise <| .after fun _ => (Unchecked.forM (shareSlot_unchecked dst) _).bind
    fun _ => .after fun _ => (Unchecked.mulUsizeIn _ _).before

/-- **Where a call does not abort with overflow checks, it does the same without.** -/
theorem exec_unchecked (c : Cmd) : Unchecked (c.exec .debug) (c.exec .release) := by
  cases c with
  | openSession | evict | evictBlocks | evictRange | restore | lookupChain => exact .refl _
  | append s n => exact (append_unchecked s n).before
  | discard s => exact (discard_unchecked s).before
  | splice src dst lo hi => exact (splice_unchecked src dst lo hi).before
  | splicePrefix src dst k => exact (splicePrefix_unchecked src dst k).before
  | cowBreak s i => exact (cowBreak_unchecked s i).before
  | registerPrefix donor k => exact (registerPrefix_unchecked donor k).before
  | releasePrefix id =>
    refine Unchecked.before ?_
    exact .after fun _ => .after fun o => .after fun _ => discard_unchecked o.owner
  | splicePrefixFrom id dst => exact (splicePrefixFrom_unchecked id dst).before
  | allocShiftedPrefixSlots id dst => exact (allocShiftedPrefixSlots_unchecked id dst).before
  | commitBlock s i hash => exact (commitBlock_unchecked s i hash).before
  | spliceCachedChain dst hashes => exact (spliceCachedChain_unchecked dst hashes).before
  | releaseCached hash =>
    refine Unchecked.before ?_
    exact .after fun _ => .after fun _ => .after fun _ => dropRef_unchecked _

end Unchecked

/-- The session handles a call passes in. -/
def Cmd.sessions : Cmd → List SessionHandle
  | .append s _ | .evict s | .evictBlocks s _ | .evictRange s _ _ | .restore s _
  | .discard s | .cowBreak s _ | .registerPrefix s _ | .splicePrefixFrom _ s
  | .allocShiftedPrefixSlots _ s | .commitBlock s _ _ | .spliceCachedChain s _ => [s]
  | .splice src dst _ _ | .splicePrefix src dst _ => [src, dst]
  | .openSession | .releasePrefix _ | .lookupChain _ | .releaseCached _ => []

/-- Every operation but `restore`. -/
def Cmd.notRestore : Cmd → Bool
  | .restore _ _ => false
  | _ => true

/-- The pool and the session handles `open` has returned so far. -/
structure World where
  pool : KvBlockPool
  issued : List SessionHandle

/-- The handle a reply gives its caller, if any. -/
def Reply.issued : Reply → List SessionHandle
  | .session s => [s]
  | _ => []

/-- One call that returned. -/
def World.step (build : Build) (w : World) (c : Cmd) : Option World :=
  match c.exec build w.pool with
  | .ok r pool => some ⟨pool, w.issued ++ r.issued⟩
  | .err _ pool => some ⟨pool, w.issued⟩
  | .abort _ => none

/-- A fresh pool. -/
def World.new (geom : KvGeometry) : World := ⟨.new geom, []⟩

/-- A list of calls, each of which returned. -/
def World.run (build : Build) (w : World) : List Cmd → Option World
  | [] => some w
  | c :: cs => (w.step build c).bind fun w' => w'.run build cs

/-- Four blocks of four tokens: the pool of the concrete runs below. -/
def smallGeom : KvGeometry := ⟨1, 4, 4, 1, 1, 1⟩

/-- One call allowed by `allowed` in the state it is made in. -/
def Step (build : Build) (allowed : World → Cmd → Prop) (w w' : World) : Prop :=
  ∃ c, allowed w c ∧ w.step build c = some w'

/-- Finite sequences of allowed calls. -/
abbrev Steps (build : Build) (allowed : World → Cmd → Prop) : World → World → Prop :=
  Relation.ReflTransGen (Step build allowed)

/-- The states a fresh pool reaches. -/
abbrev Reach (build : Build) (allowed : World → Cmd → Prop) (geom : KvGeometry) (w : World) : Prop :=
  Steps build allowed (.new geom) w

/-- Any call but `restore`, with any arguments. -/
def NoRestore (_ : World) (c : Cmd) : Prop := c.notRestore = true

/-- Calls that `allowed` allows and that overflow nothing. -/
def Unwrapped (build : Build) (allowed : World → Cmd → Prop) (w : World) (c : Cmd) : Prop :=
  allowed w c ∧ Fits build (Cmd.exec · c) w.pool

variable {build : Build} {allowed : World → Cmd → Prop} {w w' : World} {c : Cmd} {cs : List Cmd}

/-- **The invariant rule**: what every allowed call keeps, every run keeps. -/
theorem Steps.invariant {I : World → Prop}
    (hstep : ∀ w c w', I w → allowed w c → w.step build c = some w' → I w')
    (h : Steps build allowed w w') (hw : I w) : I w' := by
  induction h with
  | refl => exact hw
  | tail _ hs ih =>
    obtain ⟨c, hc, he⟩ := hs
    exact hstep _ c _ ih hc he

theorem Steps.of_run (hall : ∀ c ∈ cs, ∀ w, allowed w c) (h : w.run build cs = some w') :
    Steps build allowed w w' := by
  induction cs generalizing w with
  | nil =>
    cases h
    exact .refl
  | cons c cs ih =>
    obtain ⟨w₁, hs, hr⟩ := Option.bind_eq_some_iff.mp h
    exact .head ⟨c, hall c (by simp) w, hs⟩ (ih (fun c hc => hall c (by simp [hc])) hr)

theorem Steps.of_run_noRestore (hall : cs.all Cmd.notRestore = true)
    (h : w.run build cs = some w') : Steps build NoRestore w w' :=
  .of_run (fun c hc _ => List.all_eq_true.mp hall c hc) h

theorem World.step_eq_some (h : w.step build c = some w') :
    (∃ r, c.exec build w.pool = .ok r w'.pool ∧ w'.issued = w.issued ++ r.issued) ∨
      (∃ e, c.exec build w.pool = .err e w'.pool ∧ w'.issued = w.issued) := by
  unfold World.step at h
  split at h
  · rename_i r pool heq
    cases h
    exact .inl ⟨r, heq, rfl⟩
  · rename_i e pool heq
    cases h
    exact .inr ⟨e, heq, rfl⟩
  · cases h

/-- A run that overflows nothing is a run with overflow checks. -/
theorem Steps.checked (h : Steps build (Unwrapped build allowed) w w') : Steps .debug allowed w w' := by
  refine Relation.ReflTransGen.mono ?_ _ _ h
  rintro w w' ⟨c, ⟨hc, hfits⟩, hs⟩
  refine ⟨c, hc, ?_⟩
  unfold World.step at hs ⊢
  rwa [hfits.checked (exec_unchecked c)] at hs

/-- With overflow checks nothing overflows that returns. -/
theorem Steps.unwrapped (h : Steps .debug allowed w w') :
    Steps .debug (Unwrapped .debug allowed) w w' :=
  Relation.ReflTransGen.mono (fun _ _ ⟨c, hc, hs⟩ => ⟨c, ⟨hc, fits_debug⟩, hs⟩) _ _ h

end Fuel.KvPool
