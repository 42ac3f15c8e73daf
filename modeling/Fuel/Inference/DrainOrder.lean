import Fuel.Inference.Scheduler
import Fuel.Lib.Lists

/-!
# What a drain admits

`drain_queue` walks the queued requests in the heap's order and admits each one
that passes the pressure and the budget test at its turn. The specification is
the walk over exact byte counts, in the order of priority and then of original
submission; nothing that is left could be admitted afterwards.

The pressure test is any predicate that a growing use cannot turn off.
-/

namespace Fuel.Inference

open Fuel.AssocMap List RequestInfo MemoryScheduler

/-! ## The specification -/

/-- `a` is considered before `b`: by priority, then by submission. -/
def RequestInfo.Earlier (a b : RequestInfo) : Prop :=
  b.priority.rank < a.priority.rank ∨
    a.priority.rank = b.priority.rank ∧ a.submissionOrder < b.submissionOrder

/-- The pressure and the budget test of a request, on exact byte counts. -/
def RequestInfo.Passes (p : Pressure) (budget used : UInt64) (r : RequestInfo) : Prop :=
  ¬ (p used budget = true ∧ r.priority.rank < Priority.high.rank) ∧
    used.toNat + r.estimatedBytes.toNat ≤ budget.toNat

instance (p : Pressure) (budget used : UInt64) (r : RequestInfo) :
    Decidable (r.Passes p budget used) := inferInstanceAs (Decidable (_ ∧ _))

def RequestInfo.handle (r : RequestInfo) : SlotHandle := ⟨r.id, r.estimatedBytes⟩

/-- How a walk ends: what was admitted and what was not, in order, and the bytes in use. -/
structure Walk where
  admitted : List RequestInfo
  left : List RequestInfo
  used : UInt64

/-- The walk that admits every request that passes at its turn. -/
def greedy (p : Pressure) (budget : UInt64) : UInt64 → List RequestInfo → Walk
  | used, [] => ⟨[], [], used⟩
  | used, r :: rest =>
    if r.Passes p budget used then
      let w := greedy p budget (used + r.estimatedBytes) rest
      { w with admitted := r :: w.admitted }
    else
      let w := greedy p budget used rest
      { w with left := r :: w.left }

/-- A growing use does not turn the pressure off. -/
def Pressure.Monotone (p : Pressure) : Prop :=
  ∀ u u' budget : UInt64, u ≤ u' → p u budget = true → p u' budget = true

/-! ## The walk -/

section Greedy

variable {p : Pressure} {budget used : UInt64} {r : RequestInfo} {l : List RequestInfo}

theorem RequestInfo.Passes.toNat_add (h : r.Passes p budget used) :
    (used + r.estimatedBytes).toNat = used.toNat + r.estimatedBytes.toNat := by
  have hlt := budget.toNat_lt
  rw [UInt64.toNat_add]
  exact Nat.mod_eq_of_lt (Nat.lt_of_le_of_lt h.2 hlt)

theorem RequestInfo.Passes.anti (hmono : p.Monotone) {used' : UInt64} (hle : used ≤ used')
    (h : r.Passes p budget used') : r.Passes p budget used := by
  refine ⟨fun hp => h.1 ⟨hmono used used' budget hle hp.1, hp.2⟩, ?_⟩
  have := UInt64.le_iff_toNat_le.mp hle
  have := h.2
  omega

theorem greedy_perm (used : UInt64) (l : List RequestInfo) :
    ((greedy p budget used l).admitted ++ (greedy p budget used l).left).Perm l := by
  induction l generalizing used with
  | nil => exact .nil
  | cons r rest ih =>
    unfold greedy
    split
    · exact (ih _).cons r
    · exact perm_middle.trans ((ih _).cons r)

theorem used_le_greedy (used : UInt64) (l : List RequestInfo) :
    used ≤ (greedy p budget used l).used := by
  induction l generalizing used with
  | nil => exact UInt64.le_refl _
  | cons r rest ih =>
    unfold greedy
    split
    · rename_i hpass
      refine UInt64.le_trans ?_ (ih _)
      rw [UInt64.le_iff_toNat_le, hpass.toNat_add]
      exact Nat.le_add_right _ _
    · exact ih _

/-- **Nothing that was left passes afterwards.** -/
theorem not_passes_of_left (hmono : p.Monotone) (used : UInt64) (l : List RequestInfo) :
    ∀ r ∈ (greedy p budget used l).left, ¬ r.Passes p budget (greedy p budget used l).used := by
  induction l generalizing used with
  | nil =>
    intro r hr
    cases hr
  | cons a rest ih =>
    unfold greedy
    split
    · exact ih _
    · rename_i hpass
      intro r hr
      rcases mem_cons.mp hr with rfl | hr
      · exact fun h => hpass (h.anti hmono (used_le_greedy used rest))
      · exact ih _ r hr

theorem greedy_admitted_of_none (h : ∀ r ∈ l, ¬ r.Passes p budget used) :
    (greedy p budget used l).admitted = [] := by
  induction l with
  | nil => rfl
  | cons r rest ih =>
    obtain ⟨hr, hrest⟩ := forall_mem_cons.mp h
    unfold greedy
    rw [if_neg hr]
    exact ih hrest

end Greedy

/-! ## The drain is that walk -/

/-- The bytes of a request can be added to any use within the budget. -/
def RequestInfo.Small (budget : UInt64) (r : RequestInfo) : Prop :=
  budget.toNat + r.estimatedBytes.toNat < 2 ^ 64

instance (budget : UInt64) (r : RequestInfo) : Decidable (r.Small budget) :=
  inferInstanceAs (Decidable (_ < _))

namespace MemoryScheduler

variable {p : Pressure} {s : MemoryScheduler}

theorem admits_iff {r : RequestInfo} (hused : s.used ≤ s.totalBudget)
    (hsmall : r.Small s.totalBudget) :
    s.admits p r = true ↔ r.Passes p s.totalBudget s.used := by
  have hle := UInt64.le_iff_toNat_le.mp hused
  unfold RequestInfo.Small at hsmall
  have hadd : (s.used + r.estimatedBytes).toNat = s.used.toNat + r.estimatedBytes.toNat := by
    rw [UInt64.toNat_add]
    exact Nat.mod_eq_of_lt (by omega)
  unfold admits RequestInfo.Passes
  rw [Bool.and_eq_true, decide_eq_true_iff, UInt64.le_iff_toNat_le, hadd, Bool.not_eq_true',
    Bool.and_eq_false_iff, decide_eq_false_iff_not, not_and_or, Bool.not_eq_true]

/-- The turns of a drain, with the queue that is collected in reverse. -/
theorem foldl_drainTurn (l : List RequestInfo) (hs : List SlotHandle)
    (hused : s.used ≤ s.totalBudget) (hsmall : ∀ r ∈ l, r.Small s.totalBudget) :
    let w := greedy p s.totalBudget s.used l
    let d := l.foldl (drainTurn p) (s, hs)
    d.2 = hs ++ w.admitted.map handle ∧
      d.1.waitQueue = w.left.reverse ++ s.waitQueue ∧ d.1.used = w.used ∧
      d.1.used ≤ d.1.totalBudget ∧ d.1.totalBudget = s.totalBudget ∧
      d.1.nextOrder = s.nextOrder := by
  induction l generalizing s hs with
  | nil => exact ⟨(append_nil hs).symm, rfl, rfl, hused, rfl, rfl⟩
  | cons r rest ih =>
    obtain ⟨hr, hrest⟩ := forall_mem_cons.mp hsmall
    have hiff : s.admits p r = true ↔ _ := admits_iff (p := p) hused hr
    simp only [foldl_cons, greedy]
    by_cases hpass : r.Passes p s.totalBudget s.used
    · have hturn : drainTurn p (s, hs) r = (s.openSlot r, hs ++ [r.handle]) :=
        if_pos (hiff.mpr hpass)
      have hopen : (s.openSlot r).used ≤ (s.openSlot r).totalBudget := by
        rw [UInt64.le_iff_toNat_le]
        show (s.used + r.estimatedBytes).toNat ≤ s.totalBudget.toNat
        rw [hpass.toNat_add]
        exact hpass.2
      rw [hturn, if_pos hpass]
      obtain ⟨hhandles, hrest⟩ := ih (s := s.openSlot r) (hs ++ [r.handle]) hopen hrest
      refine ⟨?_, hrest⟩
      rw [hhandles, List.append_assoc]
      rfl
    · have hturn : drainTurn p (s, hs) r = (s.enqueue r, hs) := if_neg (mt hiff.mp hpass)
      rw [hturn, if_neg hpass]
      obtain ⟨hhandles, hqueue, hrest⟩ := ih (s := s.enqueue r) hs hused hrest
      refine ⟨hhandles, ?_, hrest⟩
      rw [hqueue]
      simp only [enqueue, reverse_cons, List.append_assoc, singleton_append]

/-- A drain from a state within its budget is the walk in the heap's order. -/
theorem drainQueue_spec (hused : s.used ≤ s.totalBudget)
    (hsmall : ∀ r ∈ s.waitQueue, r.Small s.totalBudget) :
    let w := greedy p s.totalBudget s.used (s.waitQueue.mergeSort before)
    (s.drainQueue p).2 = w.admitted.map handle ∧
      (s.drainQueue p).1.waitQueue.Perm w.left ∧ (s.drainQueue p).1.used = w.used ∧
      (s.drainQueue p).1.used ≤ (s.drainQueue p).1.totalBudget ∧
      (s.drainQueue p).1.totalBudget = s.totalBudget ∧
      (s.drainQueue p).1.nextOrder = s.nextOrder := by
  have hspec := foldl_drainTurn (p := p) (s := { s with waitQueue := [] })
    (s.waitQueue.mergeSort before) [] hused
    (fun r hr => hsmall r (mem_mergeSort.mp hr))
  obtain ⟨hhandles, hqueue, hrest⟩ := hspec
  refine ⟨hhandles, ?_, hrest⟩
  unfold drainQueue
  rw [hqueue, append_nil]
  exact reverse_perm _

end MemoryScheduler

/-! ## Runs -/

/-- The requests a call submits. -/
def Call.submitted : Call → List RequestInfo
  | .tryAdmit req => [req]
  | _ => []

/-- Nothing overflows: the sizes are small against the budget, the submissions can be counted. -/
def Call.Fits (budget : UInt64) (s : MemoryScheduler) : Call → Prop
  | .tryAdmit req => req.Small budget ∧ s.nextOrder.toNat + 1 < 2 ^ 64
  | _ => True

/-- The states of a scheduler with a budget, with the requests submitted so far. -/
inductive Ran (p : Pressure) (budget : UInt64) : List RequestInfo → MemoryScheduler → Prop
  | new : Ran p budget [] (.new budget)
  | call {log : List RequestInfo} {s : MemoryScheduler} (c : Call) : Ran p budget log s →
      c.Fits budget s → Ran p budget (log ++ c.submitted) (c.exec p s)

/-- A queued request is one that was submitted, stamped with its number. -/
def FromLog (log : List RequestInfo) (r : RequestInfo) : Prop :=
  ∃ req, log[r.submissionOrder.toNat]? = some req ∧
    r = { req with submissionOrder := r.submissionOrder }

/-- The queue holds submissions, each at most once. -/
structure Queued (budget : UInt64) (log : List RequestInfo) (s : MemoryScheduler) : Prop where
  total : s.totalBudget = budget
  used_le : s.used ≤ s.totalBudget
  counted : s.nextOrder.toNat = log.length
  small : ∀ r ∈ s.waitQueue, r.Small budget
  logged : ∀ r ∈ s.waitQueue, FromLog log r
  distinct : (s.waitQueue.map submissionOrder).Nodup

namespace Queued

variable {p : Pressure} {budget : UInt64} {log : List RequestInfo} {s : MemoryScheduler}
  (h : Queued budget log s)

include h

theorem tryAdmit {req : RequestInfo} (hfits : (Call.tryAdmit req).Fits budget s) :
    Queued budget (log ++ [req]) (s.tryAdmit p req).1 := by
  obtain ⟨hsmall, hnext⟩ := hfits
  have hcount : (s.nextOrder + 1).toNat = (log ++ [req]).length := by
    rw [UInt64.toNat_add, length_append, ← h.counted]
    exact Nat.mod_eq_of_lt hnext
  have hlogged : ∀ r ∈ s.waitQueue, FromLog (log ++ [req]) r := by
    intro r hr
    obtain ⟨q, hq, heq⟩ := h.logged r hr
    exact ⟨q, getElem?_append_left (lt_of_getElem? hq) ▸ hq, heq⟩
  have hnew : FromLog (log ++ [req]) { req with submissionOrder := s.nextOrder } := by
    refine ⟨req, ?_, rfl⟩
    rw [h.counted, getElem?_concat_length]
  unfold MemoryScheduler.tryAdmit
  simp only
  split
  · rename_i hadm
    refine ⟨h.total, ?_, hcount, h.small, hlogged, h.distinct⟩
    simp only [admits, Bool.and_eq_true, decide_eq_true_eq] at hadm
    exact hadm.2
  refine ⟨h.total, h.used_le, hcount, ?_, ?_, ?_⟩
  · exact forall_mem_cons.mpr ⟨hsmall, h.small⟩
  · exact forall_mem_cons.mpr ⟨hnew, hlogged⟩
  · refine nodup_cons.mpr ⟨?_, h.distinct⟩
    rintro hmem
    obtain ⟨r, hr, horder⟩ := mem_map.mp hmem
    obtain ⟨q, hq, -⟩ := h.logged r hr
    have hlt := lt_of_getElem? hq
    rw [horder, ← h.counted] at hlt
    exact Nat.lt_irrefl _ hlt

/-- The queue after a drain is part of the queue before. -/
theorem drain_left : ∃ admitted, (admitted ++ (s.drainQueue p).1.waitQueue).Perm s.waitQueue := by
  obtain ⟨-, hleft, -⟩ := drainQueue_spec (p := p) h.used_le
    (h.total ▸ h.small)
  have hwalk : ((greedy p s.totalBudget s.used (s.waitQueue.mergeSort before)).admitted ++
      (s.drainQueue p).1.waitQueue).Perm (s.waitQueue.mergeSort before) :=
    (List.Perm.append_left _ hleft).trans (greedy_perm _ _)
  exact ⟨_, hwalk.trans (mergeSort_perm _ _)⟩

theorem drainQueue : Queued budget log (s.drainQueue p).1 := by
  obtain ⟨-, -, -, hused, hbudget, hnext⟩ := drainQueue_spec (p := p) h.used_le
    (h.total ▸ h.small)
  obtain ⟨admitted, hperm⟩ := h.drain_left (p := p)
  have hsub : ∀ r ∈ (s.drainQueue p).1.waitQueue, r ∈ s.waitQueue := fun r hr =>
    hperm.subset (mem_append_right _ hr)
  refine ⟨hbudget.trans h.total, hused, hnext ▸ h.counted, ?_, ?_, ?_⟩
  · exact fun r hr => h.small r (hsub r hr)
  · exact fun r hr => h.logged r (hsub r hr)
  · have hnodup := ((hperm.map submissionOrder).nodup_iff).mpr h.distinct
    rw [map_append] at hnodup
    exact hnodup.of_append_right

omit h in
theorem saturatingSub_le (a b : UInt64) : saturatingSub a b ≤ a := by
  unfold saturatingSub
  split
  · rw [UInt64.le_iff_toNat_le]
    exact Nat.zero_le _
  · rename_i hle
    rw [UInt64.le_iff_toNat_le, UInt64.toNat_sub_of_le _ _ (UInt64.not_lt.mp hle)]
    exact Nat.sub_le _ _

theorem call {c : Call} (hfits : c.Fits budget s) :
    Queued budget (log ++ c.submitted) (c.exec p s) := by
  cases c with
  | tryAdmit req => exact h.tryAdmit hfits
  | drainQueue =>
    simp only [Call.submitted, append_nil]
    exact h.drainQueue
  | release id =>
    simp only [Call.submitted, append_nil]
    show Queued budget log (s.release id).1
    unfold release
    split
    · exact ⟨h.total, UInt64.le_trans (saturatingSub_le _ _) h.used_le, h.counted, h.small,
        h.logged, h.distinct⟩
    · exact h
  | updateUsage id newBytes =>
    simp only [Call.submitted, append_nil]
    show Queued budget log (s.updateUsage id newBytes).1
    unfold updateUsage
    split
    · simp only
      split
      · exact h
      · rename_i hle
        exact ⟨h.total, UInt64.not_lt.mp hle, h.counted, h.small, h.logged, h.distinct⟩
    · exact h

end Queued

theorem Ran.queued {p : Pressure} {budget : UInt64} {log : List RequestInfo} {s : MemoryScheduler}
    (h : Ran p budget log s) : Queued budget log s := by
  induction h with
  | new =>
    refine ⟨rfl, ?_, rfl, ?_, ?_, .nil⟩
    · rw [UInt64.le_iff_toNat_le]
      exact Nat.zero_le _
    · intro r hr
      cases hr
    · intro r hr
      cases hr
  | call c _ hfits ih => exact ih.call hfits

/-! ## The order -/

theorem before_trans (a b c : RequestInfo) (hab : a.before b = true) (hbc : b.before c = true) :
    a.before c = true := by
  simp only [before, Bool.or_eq_true, Bool.and_eq_true, decide_eq_true_eq,
    UInt64.le_iff_toNat_le] at *
  omega

theorem before_total (a b : RequestInfo) : (a.before b || b.before a) = true := by
  simp only [before, Bool.or_eq_true, Bool.and_eq_true, decide_eq_true_eq,
    UInt64.le_iff_toNat_le]
  omega

/-- The heap hands distinct submissions out in the order of `Earlier`. -/
theorem mergeSort_pairwise {l : List RequestInfo}
    (h : (l.map submissionOrder).Nodup) :
    (l.mergeSort before).Pairwise RequestInfo.Earlier := by
  have hsorted := pairwise_mergeSort before_trans before_total l
  have hne : (l.mergeSort before).Pairwise fun a b =>
      a.submissionOrder ≠ b.submissionOrder := by
    rw [← pairwise_map]
    exact (((mergeSort_perm l _).map _).nodup_iff).mpr h
  refine (hsorted.and hne).imp ?_
  rintro a b ⟨hbefore, hab⟩
  simp only [before, Bool.or_eq_true, Bool.and_eq_true, decide_eq_true_eq] at hbefore
  rcases hbefore with hprio | ⟨hprio, horder⟩
  · exact .inl hprio
  · exact .inr ⟨hprio, UInt64.lt_of_le_of_ne horder hab⟩

/-- **A drain admits greedily and leaves nothing admissible.** In every reachable state it considers
the queued requests, each one submitted, by priority and then in the order of their submission, and
admits exactly those that pass at their turn. What it leaves and what it admits are the queue it
started with, nothing left passes, and draining again admits nothing. -/
theorem drain_queue_admits_greedily {p : Pressure} (hmono : p.Monotone) {budget : UInt64}
    {log : List RequestInfo} {s : MemoryScheduler} (h : Ran p budget log s) :
    ∃ order : List RequestInfo, order.Perm s.waitQueue ∧ order.Pairwise RequestInfo.Earlier ∧
      (∀ r ∈ order, FromLog log r) ∧
      (s.drainQueue p).2 = (greedy p budget s.used order).admitted.map handle ∧
      (s.drainQueue p).1.waitQueue.Perm (greedy p budget s.used order).left ∧
      ((greedy p budget s.used order).admitted ++ (s.drainQueue p).1.waitQueue).Perm s.waitQueue ∧
      (∀ r ∈ (s.drainQueue p).1.waitQueue, ¬ r.Passes p budget (s.drainQueue p).1.used) ∧
      ((s.drainQueue p).1.drainQueue p).2 = [] := by
  have hq := h.queued
  have hq' : Queued budget log (s.drainQueue p).1 := hq.drainQueue
  have hperm := mergeSort_perm s.waitQueue before
  obtain ⟨hhandles, hleft, hused, -⟩ := drainQueue_spec (p := p) hq.used_le
    (hq.total ▸ hq.small)
  rw [hq.total] at hhandles hleft hused
  have hnone : ∀ r ∈ (s.drainQueue p).1.waitQueue, ¬ r.Passes p budget (s.drainQueue p).1.used := by
    intro r hr
    rw [hused]
    exact not_passes_of_left hmono _ _ r (hleft.subset hr)
  refine ⟨_, hperm, mergeSort_pairwise hq.distinct, ?_, hhandles, hleft, ?_, hnone, ?_⟩
  · exact fun r hr => hq.logged r (hperm.subset hr)
  · exact (List.Perm.append_left _ hleft).trans ((greedy_perm _ _).trans hperm)
  · -- the next drain walks over requests none of which pass
    obtain ⟨hhandles', -⟩ := drainQueue_spec (p := p) hq'.used_le
      (hq'.total ▸ hq'.small)
    rw [hhandles', hq'.total, greedy_admitted_of_none]
    · rfl
    · intro r hr
      exact hnone r (mem_mergeSort.mp hr)

/-- Half of the budget is in use. -/
def halfUsed : Pressure := fun used budget => decide (budget.toNat ≤ 2 * used.toNat)

/-- Three requests wait while a large one runs. Once it is released two of them are drained, and
the one of low priority is left: half of the budget is in use again. -/
theorem waiting_requests_drain : ∃ log s, Ran halfUsed 100 log s ∧
    s.waitQueue.map RequestInfo.id = ["urgent", "usual", "small"] ∧
    (s.drainQueue halfUsed).2.map SlotHandle.id = ["urgent", "usual"] ∧
    (s.drainQueue halfUsed).1.waitQueue.map RequestInfo.id = ["small"] ∧
    ∀ r ∈ (s.drainQueue halfUsed).1.waitQueue,
      ¬ r.Passes halfUsed 100 (s.drainQueue halfUsed).1.used := by
  have hmono : halfUsed.Monotone := by
    intro u u' budget hle h
    have := UInt64.le_iff_toNat_le.mp hle
    simp only [halfUsed, decide_eq_true_eq] at h ⊢
    omega
  have hran : Ran halfUsed 100 [] (.new 100) := .new
  have hran := hran.call (.tryAdmit ⟨"large", 60, .high, 0⟩) ⟨by decide, by decide⟩
  have hran := hran.call (.tryAdmit ⟨"small", 10, .low, 0⟩) ⟨by decide, by decide⟩
  have hran := hran.call (.tryAdmit ⟨"usual", 30, .normal, 0⟩) ⟨by decide, by decide⟩
  have hran := hran.call (.tryAdmit ⟨"urgent", 45, .high, 0⟩) ⟨by decide, by decide⟩
  have hran := hran.call (.release "large") trivial
  obtain ⟨order, -, -, -, -, -, -, hleft, -⟩ := drain_queue_admits_greedily hmono hran
  refine ⟨_, _, hran, by decide, ?_, ?_, hleft⟩
  · rw [drainQueue, mergeSort_of_pairwise (by decide)]
    decide
  · rw [drainQueue, mergeSort_of_pairwise (by decide)]
    decide

end Fuel.Inference
