import Fuel.Inference.Scheduler
import Mathlib.Data.UInt

/-!
# Reservations are accounted for

The scheduler keeps a counter of used bytes beside the map of active slots.
`Accounted` ties the two together. An admission keeps it unless it overwrites
an active slot or the sum wraps, so the results are about runs in which no
admission does either.
-/

namespace Fuel.Inference

open Fuel.AssocMap MemoryScheduler

namespace MemoryScheduler

/-- The true sum of the reservations of all active slots. -/
def reserved (s : MemoryScheduler) : Nat := total UInt64.toNat s.active

/-- The counter is the true sum, and within the budget. -/
structure Accounted (s : MemoryScheduler) : Prop where
  exact : s.used.toNat = s.reserved
  within : s.used ≤ s.totalBudget

/-- Admitting `req` now neither wraps the counter nor overwrites a slot that
holds bytes. -/
def Fresh (s : MemoryScheduler) (req : RequestInfo) : Prop :=
  s.used.toNat + req.estimatedBytes.toNat < 2 ^ 64 ∧ (s.active.lookup req.id).getD 0 = 0

/-- Every turn of a drain over `reqs` that admits its request finds it fresh. -/
def FreshTurns (p : Pressure) : MemoryScheduler × List SlotHandle → List RequestInfo → Prop
  | _, [] => True
  | d, req :: reqs => (d.1.admits p req = true → d.1.Fresh req) ∧
      FreshTurns p (drainTurn p d req) reqs

/-- The new counter of an `updateUsage` that is accepted does not wrap. -/
def Unwrapped (s : MemoryScheduler) (id : String) (newBytes : UInt64) : Prop :=
  ∀ old, s.active.lookup id = some old → s.used - old + newBytes ≤ s.totalBudget →
    (s.used - old).toNat + newBytes.toNat < 2 ^ 64

/-- The call neither wraps the counter nor overwrites a slot that holds bytes. -/
def Safe (p : Pressure) (s : MemoryScheduler) : Call → Prop
  | .tryAdmit req => s.admits p req = true → s.Fresh req
  | .drainQueue =>
    FreshTurns p ({ s with waitQueue := [] }, []) (s.waitQueue.mergeSort RequestInfo.before)
  | .release _ => True
  | .updateUsage id newBytes => s.Unwrapped id newBytes

/-! ## One step -/

variable {p : Pressure} {s : MemoryScheduler} {req : RequestInfo}

theorem accounted_new (b : UInt64) : (new b).Accounted := by
  constructor
  · rfl
  · exact UInt64.zero_le

theorem fits_of_admits (h : s.admits p req = true) :
    s.used + req.estimatedBytes ≤ s.totalBudget := by
  simp only [admits, Bool.and_eq_true, decide_eq_true_eq] at h
  exact h.2

variable (hs : s.Accounted) {id : String}

include hs

theorem Accounted.openSlot (hfits : s.used + req.estimatedBytes ≤ s.totalBudget)
    (hfresh : s.Fresh req) : (s.openSlot req).Accounted := by
  obtain ⟨hwrap, hold⟩ := hfresh
  refine ⟨?_, hfits⟩
  show (s.used + req.estimatedBytes).toNat = total UInt64.toNat (s.active.insert _ _)
  rw [UInt64.toNat_add, Nat.mod_eq_of_lt hwrap, hs.exact, reserved]
  cases hl : s.active.lookup req.id with
  | none =>
    rw [total_insert_new _ hl, Nat.add_comm]
  | some old =>
    have hz : old = 0 := by simpa [hl] using hold
    subst hz
    have := total_insert_old UInt64.toNat hl req.estimatedBytes
    simpa using this.symm

theorem Accounted.enqueue : (s.enqueue req).Accounted := ⟨hs.exact, hs.within⟩

theorem Accounted.tryAdmit (hsafe : s.admits p req = true → s.Fresh req) :
    (s.tryAdmit p req).1.Accounted := by
  have hs' : { s with nextOrder := s.nextOrder + 1 }.Accounted := ⟨hs.exact, hs.within⟩
  unfold MemoryScheduler.tryAdmit
  dsimp only
  -- the tests see neither the submission order nor the submission counter
  split
  · rename_i h
    exact hs'.openSlot (fits_of_admits h) (hsafe h)
  · exact hs'.enqueue

omit hs in
theorem Accounted.drain {d : MemoryScheduler × List SlotHandle} {reqs : List RequestInfo}
    (hd : d.1.Accounted) (hsafe : FreshTurns p d reqs) :
    (reqs.foldl (drainTurn p) d).1.Accounted := by
  induction reqs generalizing d with
  | nil => exact hd
  | cons req reqs ih =>
    obtain ⟨hturn, hrest⟩ := hsafe
    refine ih ?_ hrest
    unfold drainTurn
    by_cases h : d.1.admits p req = true
    · rw [if_pos h]
      exact hd.openSlot (fits_of_admits h) (hturn h)
    · rw [if_neg h]
      exact hd.enqueue

/-- A slot holds at most what is used. -/
theorem Accounted.le_used {bytes : UInt64} (h : s.active.lookup id = some bytes) :
    bytes.toNat ≤ s.used.toNat := by
  rw [hs.exact]
  exact le_total UInt64.toNat h

theorem Accounted.toNat_sub {bytes : UInt64} (h : s.active.lookup id = some bytes) :
    (s.used - bytes).toNat = s.used.toNat - bytes.toNat :=
  UInt64.toNat_sub_of_le _ _ (UInt64.le_iff_toNat_le.mpr (hs.le_used h))

theorem Accounted.release (id : String) : (s.release id).1.Accounted := by
  unfold MemoryScheduler.release
  cases hl : s.active.lookup id with
  | none => exact hs
  | some bytes =>
    have hle := hs.le_used hl
    have hsub := hs.toNat_sub hl
    have hrest := total_erase UInt64.toNat hl
    have hexact := hs.exact
    have hwithin := UInt64.le_iff_toNat_le.mp hs.within
    have hsat : saturatingSub s.used bytes = s.used - bytes :=
      if_neg (UInt64.not_lt.mpr (UInt64.le_iff_toNat_le.mpr hle))
    unfold reserved at hexact
    constructor
    · show (saturatingSub s.used bytes).toNat = total UInt64.toNat (s.active.erase id)
      rw [hsat, hsub]
      omega
    · show saturatingSub s.used bytes ≤ s.totalBudget
      rw [hsat, UInt64.le_iff_toNat_le, hsub]
      omega

theorem Accounted.updateUsage {newBytes : UInt64} (hsafe : s.Unwrapped id newBytes) :
    (s.updateUsage id newBytes).1.Accounted := by
  unfold MemoryScheduler.updateUsage
  cases hl : s.active.lookup id with
  | none => exact hs
  | some old =>
    by_cases hgt : s.used - old + newBytes > s.totalBudget
    · simp only [if_pos hgt]
      exact hs
    simp only [if_neg hgt]
    have hfits : s.used - old + newBytes ≤ s.totalBudget := UInt64.not_lt.mp hgt
    have hle := hs.le_used hl
    have hwrap := hsafe old hl hfits
    have hnew := total_insert_old UInt64.toNat hl newBytes
    have hexact := hs.exact
    unfold reserved at hexact
    refine ⟨?_, hfits⟩
    show (s.used - old + newBytes).toNat = total UInt64.toNat (s.active.insert id newBytes)
    rw [UInt64.toNat_add, Nat.mod_eq_of_lt hwrap, hs.toNat_sub hl]
    omega

/-- A safe call keeps the account. -/
theorem Accounted.exec {c : Call} (hsafe : s.Safe p c) : (c.exec p s).Accounted := by
  cases c with
  | tryAdmit req => exact hs.tryAdmit hsafe
  | drainQueue =>
    have hempty : { s with waitQueue := [] }.Accounted := ⟨hs.exact, hs.within⟩
    exact Accounted.drain (d := ({ s with waitQueue := [] }, [])) hempty hsafe
  | release id => exact hs.release id
  | updateUsage id newBytes => exact hs.updateUsage hsafe

/-! ## Whole runs -/

omit hs

/-- `release` for each id in turn. -/
def releaseAll (s : MemoryScheduler) (ids : List String) : MemoryScheduler :=
  ids.foldl (fun s id => (s.release id).1) s

theorem totalBudget_drain (d : MemoryScheduler × List SlotHandle) (reqs : List RequestInfo) :
    (reqs.foldl (drainTurn p) d).1.totalBudget = d.1.totalBudget := by
  induction reqs generalizing d with
  | nil => rfl
  | cons req reqs ih =>
    rw [List.foldl_cons, ih]
    unfold drainTurn
    split <;> rfl

theorem totalBudget_exec (c : Call) : (c.exec p s).totalBudget = s.totalBudget := by
  cases c with
  | tryAdmit req =>
    unfold Call.exec tryAdmit
    dsimp only
    split <;> rfl
  | drainQueue => exact totalBudget_drain _ _
  | release id =>
    unfold Call.exec release
    dsimp only
    split <;> rfl
  | updateUsage id newBytes =>
    unfold Call.exec updateUsage
    dsimp only
    split
    · split <;> rfl
    · rfl

theorem lookup_release (id x : String) :
    (s.release id).1.active.lookup x = if x = id then none else s.active.lookup x := by
  unfold release
  cases hl : s.active.lookup id with
  | some bytes => exact lookup_erase_ite s.active id x
  | none =>
    by_cases hx : x = id
    · rw [if_pos hx, hx]
      exact hl
    · rw [if_neg hx]

/-- Releasing every active slot empties the account. -/
theorem Accounted.used_releaseAll (hs : s.Accounted) {ids : List String}
    (hall : ∀ id, s.active.lookup id ≠ none → id ∈ ids) : (s.releaseAll ids).used = 0 := by
  induction ids generalizing s with
  | nil =>
    have hnone : ∀ id, s.active.lookup id = none := fun id => by
      by_contra h
      exact absurd (hall id h) List.not_mem_nil
    have hzero : AssocMap.total UInt64.toNat s.active = 0 := by
      apply AssocMap.total_eq_zero
      intro id b hb
      rw [hnone id] at hb
      cases hb
    have hexact := hs.exact
    rw [reserved, hzero] at hexact
    exact UInt64.toNat_inj.mp hexact
  | cons id ids ih =>
    refine ih (hs.release id) fun x hx => ?_
    rw [lookup_release] at hx
    split at hx
    · exact absurd rfl hx
    · rename_i hne
      exact (List.mem_cons.mp (hall x hx)).resolve_left hne

/-- **The scheduler never over-commits**: in every state reached from an empty
one by safe calls the counter is the true sum of the reservations, within the
budget, and releasing every active slot brings it back to zero. -/
theorem reservations_exact (p : Pressure) (b : UInt64) (s : MemoryScheduler)
    (h : Reaches p (fun s c => s.Safe p c) (new b) s) :
    s.used.toNat = s.reserved ∧ s.used ≤ b ∧
      ∀ ids : List String, (∀ id, s.active.lookup id ≠ none → id ∈ ids) →
        (s.releaseAll ids).used = 0 := by
  have hinv : s.Accounted ∧ s.totalBudget = b := by
    refine h.invariant (I := fun s => s.Accounted ∧ s.totalBudget = b) ?_ ⟨accounted_new b, rfl⟩
    intro s c hs hc
    exact ⟨hs.1.exec hc, (totalBudget_exec c).trans hs.2⟩
  obtain ⟨hs, rfl⟩ := hinv
  exact ⟨hs.exact, hs.within, fun ids => hs.used_releaseAll⟩

/-- The pressure test at the default threshold of four fifths. -/
def fourFifths : Pressure := fun used budget =>
  decide (budget = 0) || decide (4 * budget.toNat ≤ 5 * used.toNat)

/-- The scheduler after some calls on an empty one. -/
def after (b : UInt64) (calls : List Call) : MemoryScheduler :=
  calls.foldl (fun s c => c.exec fourFifths s) (new b)

/-- Two requests, the second queued under pressure, and the first released. -/
def releasedUnderPressure : MemoryScheduler :=
  after 1000 [.tryAdmit ⟨"a", 900, .normal, 0⟩, .tryAdmit ⟨"b", 50, .normal, 0⟩, .release "a"]

/-- The drain then admits the second. -/
theorem reservations_exact_after_drain :
    let s := Call.drainQueue.exec fourFifths releasedUnderPressure
    s.used = 50 ∧ s.used.toNat = s.reserved ∧ s.used ≤ 1000 ∧
      ∀ ids : List String, (∀ id, s.active.lookup id ≠ none → id ∈ ids) →
        (s.releaseAll ids).used = 0 := by
  refine ⟨by decide +kernel, reservations_exact fourFifths 1000 _ ?_⟩
  have hreach : Reaches fourFifths (fun s c => s.Safe fourFifths c) (new 1000)
      releasedUnderPressure := by
    refine .step (.release "a") (.step (.tryAdmit ⟨"b", 50, .normal, 0⟩)
      (.step (.tryAdmit ⟨"a", 900, .normal, 0⟩) .refl ?_) ?_) trivial
    · intro _
      unfold Fresh
      decide +kernel
    · intro _
      unfold Fresh
      decide +kernel
  refine .step .drainQueue hreach ?_
  have hqueue : releasedUnderPressure.waitQueue.mergeSort RequestInfo.before =
      [⟨"b", 50, .normal, 1⟩] := by decide +kernel
  show FreshTurns fourFifths ({ releasedUnderPressure with waitQueue := [] }, [])
    (releasedUnderPressure.waitQueue.mergeSort RequestInfo.before)
  rw [hqueue]
  refine ⟨fun _ => ?_, trivial⟩
  unfold Fresh
  decide +kernel

def admittedTwice : MemoryScheduler :=
  after 100 [.tryAdmit ⟨"a", 5, .high, 0⟩, .tryAdmit ⟨"a", 5, .high, 0⟩]

def nearWordLimit : MemoryScheduler :=
  after 100 [.tryAdmit ⟨"a", 10, .high, 0⟩, .tryAdmit ⟨"b", 2 ^ 64 - 5, .high, 0⟩]

/-- An id admitted twice leaves its first reservation in the counter for good;
a request near the word limit is admitted although it is far over the budget. -/
theorem reservations_miscounted :
    (admittedTwice.used = 10 ∧ admittedTwice.reserved = 5 ∧
      (admittedTwice.releaseAll ["a"]).active.entries = [] ∧
      (admittedTwice.releaseAll ["a"]).used = 5) ∧
    (nearWordLimit.totalBudget = 100 ∧ nearWordLimit.used = 5 ∧
      nearWordLimit.reserved = 2 ^ 64 + 5) := by
  decide +kernel

end MemoryScheduler

end Fuel.Inference
