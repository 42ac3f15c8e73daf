import Fuel.Lib.PostOrder

/-!
# Reachability by worklist

Two loops that collect a set of vertices: `cone` marks a vertex when it leaves
the worklist and starts with its source marked; `reach` marks a vertex when it
enters the worklist, so its source is marked only if it lies on a cycle.
-/

namespace Fuel.DepGraph

open Relation List

variable {α : Type*} [DecidableEq α]

structure SearchState (α : Type*) where
  stack : List α
  seen : List α

/-! ## Marking on the way out -/

/-- One pop: skip a vertex outside `inside` or seen before, else mark it and push what it reads. -/
def coneNext (deps : α → List α) (inside : α → Bool) (s : SearchState α) :
    Option (SearchState α) :=
  match s.stack with
  | [] => none
  | a :: rest =>
    if inside a = false ∨ a ∈ s.seen then some { s with stack := rest }
    else
      let seen := a :: s.seen
      some ⟨((deps a).filter fun c => decide (c ∉ seen)).reverse ++ rest, seen⟩

/-- The vertices `start` needs, itself included, inside `inside`. -/
def cone (deps : α → List α) (inside : α → Bool) (support : List α) (start : α) : List α :=
  (iter (coneNext deps inside) (1 + (support.map fun a => (deps a).length).sum)
    ⟨[start], []⟩).seen

/-- The vertices any of `starts` needs, inside `inside`. -/
def coneFrom (deps : α → List α) (inside : α → Bool) (support starts : List α) : List α :=
  (iter (coneNext deps inside) (starts.length + (support.map fun a => (deps a).length).sum)
    ⟨starts.reverse, []⟩).seen

variable {deps : α → List α} {inside : α → Bool} {s t : SearchState α} {support : List α}

theorem coneNext_cases (h : coneNext deps inside s = some t) : ∃ a rest, s.stack = a :: rest ∧
      ((inside a = false ∨ a ∈ s.seen) ∧ t = { s with stack := rest } ∨
        ∃ children, inside a = true ∧ a ∉ s.seen ∧
          (∀ c, c ∈ children ↔ c ∈ deps a ∧ c ∉ a :: s.seen) ∧
          children.length ≤ (deps a).length ∧ t = ⟨children ++ rest, a :: s.seen⟩) := by
  unfold coneNext at h
  split at h
  · cases h
  rename_i a rest hstack
  refine ⟨a, rest, hstack, ?_⟩
  split at h
  · rename_i hskip
    exact .inl ⟨hskip, (Option.some.inj h).symm⟩
  · rename_i hskip
    rw [not_or, Bool.not_eq_false] at hskip
    refine .inr ⟨_, hskip.1, hskip.2, ?_, ?_, (Option.some.inj h).symm⟩
    · intro c
      simp
    · rw [length_reverse]
      exact length_filter_le _ _

theorem coneNext_eq_none (h : coneNext deps inside s = none) : s.stack = [] := by
  unfold coneNext at h
  split at h
  · assumption
  · split at h <;> cases h

/-- Everything met is needed by `starts`; what is seen lies inside, and what it
reads is seen, outside, or on the worklist. -/
structure ConeInv (deps : α → List α) (inside : α → Bool) (starts : List α) (s : SearchState α) :
    Prop where
  stack_sound : ∀ a ∈ s.stack, Needed deps starts a
  sound : ∀ a ∈ s.seen, inside a = true ∧ Needed deps starts a
  start_seen : ∀ a ∈ starts, a ∈ s.stack ∨ inside a = false ∨ a ∈ s.seen
  deps_seen : ∀ a ∈ s.seen, ∀ c ∈ deps a, c ∈ s.stack ∨ inside c = false ∨ c ∈ s.seen

theorem coneNext_inv {starts : List α} (hs : ConeInv deps inside starts s)
    (h : coneNext deps inside s = some t) : ConeInv deps inside starts t := by
  obtain ⟨a, rest, hstack, ⟨hskip, rfl⟩ | ⟨children, hin, hnew, hch, -, rfl⟩⟩ := coneNext_cases h
  · have hkeep : ∀ c, c ∈ s.stack ∨ inside c = false ∨ c ∈ s.seen →
        c ∈ rest ∨ inside c = false ∨ c ∈ s.seen := by
      rintro c (hc | hc)
      · rw [hstack] at hc
        rcases mem_cons.mp hc with rfl | hc
        · exact .inr hskip
        · exact .inl hc
      · exact .inr hc
    constructor
    case stack_sound => exact fun c hc => hs.stack_sound c (hstack ▸ mem_cons_of_mem _ hc)
    case sound => exact hs.sound
    case start_seen => exact fun c hc => hkeep c (hs.start_seen c hc)
    case deps_seen => exact fun b hb c hc => hkeep c (hs.deps_seen b hb c hc)
  · have hapath := hs.stack_sound a (hstack ▸ mem_cons_self)
    have hkeep : ∀ c, c ∈ s.stack ∨ inside c = false ∨ c ∈ s.seen →
        c ∈ children ++ rest ∨ inside c = false ∨ c ∈ a :: s.seen := by
      rintro c (hc | hc | hc)
      · rw [hstack] at hc
        rcases mem_cons.mp hc with rfl | hc
        · exact .inr (.inr mem_cons_self)
        · exact .inl (mem_append_right _ hc)
      · exact .inr (.inl hc)
      · exact .inr (.inr (mem_cons_of_mem _ hc))
    constructor
    case stack_sound =>
      intro c hc
      rcases mem_append.mp hc with hc | hc
      · exact hapath.dep ((hch c).mp hc).1
      · exact hs.stack_sound c (hstack ▸ mem_cons_of_mem _ hc)
    case sound =>
      intro c hc
      rcases mem_cons.mp hc with rfl | hc
      · exact ⟨hin, hapath⟩
      · exact hs.sound c hc
    case start_seen => exact fun c hc => hkeep c (hs.start_seen c hc)
    case deps_seen =>
      intro b hb c hc
      rcases mem_cons.mp hb with rfl | hb
      · by_cases hcs : c ∈ b :: s.seen
        · exact .inr (.inr hcs)
        · exact .inl (mem_append_left _ ((hch c).mpr ⟨hc, hcs⟩))
      · exact hkeep c (hs.deps_seen b hb c hc)

/-- Work left: the worklist, and what unseen vertices may still push. -/
def coneWork (deps : α → List α) (support : List α) (s : SearchState α) : Nat :=
  s.stack.length +
    ((support.filter fun a => decide (a ∉ s.seen)).map fun a => (deps a).length).sum

variable (hsupp : ∀ a, inside a = true → a ∉ support → deps a = [])

include hsupp

theorem coneNext_work_lt (h : coneNext deps inside s = some t) :
    coneWork deps support t < coneWork deps support s := by
  obtain ⟨a, rest, hstack, ⟨-, rfl⟩ | ⟨children, hin, hnew, -, hlen, rfl⟩⟩ := coneNext_cases h
  · simp only [coneWork, hstack, length_cons]
    omega
  · have hle := sum_unvisited_cons_le (fun b => (deps b).length) support s.seen a hnew
      (fun hmem => by simp [hsupp a hin hmem])
    simp only [coneWork, hstack, length_cons, length_append]
    omega

/-- **The cone of some vertices in a part closed under reading.** -/
theorem mem_coneFrom (hclosed : ∀ b, inside b = true → ∀ a ∈ deps b, inside a = true)
    {starts : List α} (hin : ∀ a ∈ starts, inside a = true) (a : α) :
    a ∈ coneFrom deps inside support starts ↔ Needed deps starts a := by
  have hinit : ConeInv deps inside starts ⟨starts.reverse, []⟩ := by
    constructor
    case stack_sound => exact fun c hc => Needed.of_mem (mem_reverse.mp hc)
    case sound => intro c hc; cases hc
    case start_seen => exact fun c hc => .inl (mem_reverse.mpr hc)
    case deps_seen => intro c hc; cases hc
  have hinv : ConeInv deps inside starts (iter (coneNext deps inside)
      (starts.length + (support.map fun a => (deps a).length).sum) ⟨starts.reverse, []⟩) :=
    iter_invariant (fun _ _ hs h => coneNext_inv hs h) _ _ hinit
  have hend : (iter (coneNext deps inside)
      (starts.length + (support.map fun a => (deps a).length).sum) ⟨starts.reverse, []⟩).stack =
      [] := by
    refine coneNext_eq_none (iter_halts (I := fun _ => True) (coneWork deps support)
      (fun _ _ _ _ => trivial) (fun s t _ h => coneNext_work_lt hsupp h) _ _ trivial ?_)
    simp [coneWork]
  constructor
  · exact fun ha => (hinv.sound a ha).2
  intro hneed
  refine hneed.closed (P := fun a => a ∈ coneFrom deps inside support starts) ?_ ?_
  · intro r hr
    rcases hinv.start_seen r hr with h | h | h
    · rw [hend] at h
      cases h
    · rw [hin r hr] at h
      cases h
    · exact h
  · intro b hb c hbc
    rcases hinv.deps_seen _ hb _ hbc with h | h | h
    · rw [hend] at h
      cases h
    · rw [hclosed _ (hinv.sound _ hb).1 _ hbc] at h
      cases h
    · exact h

/-- **The cone of a vertex in a part closed under reading.** -/
theorem mem_cone (hclosed : ∀ b, inside b = true → ∀ a ∈ deps b, inside a = true) {start : α}
    (hin : inside start = true) (a : α) :
    a ∈ cone deps inside support start ↔ ReflTransGen (Precedes deps) a start := by
  have hfrom : a ∈ coneFrom deps inside support [start] ↔ Needed deps [start] a :=
    mem_coneFrom hsupp hclosed (fun b hb => by rw [mem_singleton.mp hb]; exact hin) a
  refine hfrom.trans ?_
  simp [Needed]

/-! ## Marking on the way in -/

omit hsupp

/-- A vertex not met before is marked and goes on the worklist. -/
def meet (acc : SearchState α) (m : α) : SearchState α :=
  if m ∈ acc.seen then acc else ⟨m :: acc.stack, m :: acc.seen⟩

/-- One pop: meet every neighbour. -/
def reachNext (adj : α → List α) (s : SearchState α) : Option (SearchState α) :=
  match s.stack with
  | [] => none
  | a :: rest => some ((adj a).foldl meet ⟨rest, s.seen⟩)

/-- The vertices reachable from `start` over at least one edge. -/
def reach (adj : α → List α) (support : List α) (start : α) : List α :=
  (iter (reachNext adj) (1 + support.length) ⟨[start], []⟩).seen

/-- Meeting a list: the new vertices, and only they, are marked and pushed. -/
theorem foldl_meet (ms : List α) (s : SearchState α) :
    ∃ new, (ms.foldl meet s).stack = new ++ s.stack ∧ (ms.foldl meet s).seen = new ++ s.seen ∧
      new.Nodup ∧ ∀ m, m ∈ new ↔ m ∈ ms ∧ m ∉ s.seen := by
  induction ms generalizing s with
  | nil => exact ⟨[], rfl, rfl, nodup_nil, by simp⟩
  | cons x ms ih =>
    obtain ⟨new, hstack, hseen, hnd, hmem⟩ := ih (meet s x)
    rw [foldl_cons]
    by_cases hx : x ∈ s.seen
    · have hmeet : meet s x = s := by simp [meet, hx]
      rw [hmeet] at hstack hseen hmem ⊢
      refine ⟨new, hstack, hseen, hnd, fun m => ?_⟩
      rw [hmem m, mem_cons]
      constructor
      · rintro ⟨h₁, h₂⟩
        exact ⟨.inr h₁, h₂⟩
      · rintro ⟨rfl | h₁, h₂⟩
        · exact absurd hx h₂
        · exact ⟨h₁, h₂⟩
    · have hmeet : meet s x = ⟨x :: s.stack, x :: s.seen⟩ := by simp [meet, hx]
      rw [hmeet] at hstack hseen hmem ⊢
      have hxnew : x ∉ new := fun h => ((hmem x).mp h).2 mem_cons_self
      refine ⟨new ++ [x], by rw [hstack]; simp, by rw [hseen]; simp, ?_, fun m => ?_⟩
      · exact nodup_append.mpr ⟨hnd, nodup_singleton x, fun a ha b hb hab =>
          hxnew (by rw [← mem_singleton.mp hb, ← hab]; exact ha)⟩
      rw [mem_append, mem_singleton, hmem m, mem_cons, mem_cons, not_or]
      constructor
      · rintro (⟨h₁, -, h₂⟩ | rfl)
        · exact ⟨.inr h₁, h₂⟩
        · exact ⟨.inl rfl, hx⟩
      · rintro ⟨rfl | h₁, h₂⟩
        · exact .inr rfl
        · by_cases hm : m = x
          · exact .inr hm
          · exact .inl ⟨h₁, hm, h₂⟩

/-- Marked vertices are reachable, and what a marked vertex or `start` points
to is marked unless that vertex is still on the worklist. -/
structure ReachInv (adj : α → List α) (start : α) (s : SearchState α) : Prop where
  nodup : s.seen.Nodup
  stack_seen : ∀ a ∈ s.stack, a = start ∨ a ∈ s.seen
  sound : ∀ a ∈ s.seen, TransGen (fun x y => y ∈ adj x) start a
  closed : ∀ a, a = start ∨ a ∈ s.seen → a ∈ s.stack ∨ ∀ m ∈ adj a, m ∈ s.seen

theorem reachNext_inv {adj : α → List α} {start : α} (hs : ReachInv adj start s)
    (h : reachNext adj s = some t) : ReachInv adj start t := by
  unfold reachNext at h
  split at h
  · cases h
  rename_i a rest hstack
  obtain ⟨new, hst, hse, hnd, hmem⟩ := foldl_meet (adj a) ⟨rest, s.seen⟩
  cases h
  have hastart := hs.stack_seen a (hstack ▸ mem_cons_self)
  have hnew : ∀ m ∈ new, TransGen (fun x y => y ∈ adj x) start m := by
    intro m hm
    rcases hastart with rfl | ha
    · exact .single ((hmem m).mp hm).1
    · exact (hs.sound a ha).tail ((hmem m).mp hm).1
  constructor
  case nodup =>
    rw [hse]
    refine nodup_append.mpr ⟨hnd, hs.nodup, ?_⟩
    rintro m hm n hn rfl
    exact ((hmem m).mp hm).2 hn
  case stack_seen =>
    intro b hb
    rw [hst] at hb
    rw [hse]
    rcases mem_append.mp hb with hb | hb
    · exact .inr (mem_append_left _ hb)
    · exact (hs.stack_seen b (hstack ▸ mem_cons_of_mem _ hb)).imp_right
        (mem_append_right _)
  case sound =>
    intro b hb
    rw [hse] at hb
    rcases mem_append.mp hb with hb | hb
    · exact hnew b hb
    · exact hs.sound b hb
  case closed =>
    intro b hb
    rw [hst, hse]
    rw [hse] at hb
    by_cases hba : b = a
    · subst hba
      right
      intro m hm
      by_cases hms : m ∈ s.seen
      · exact mem_append_right _ hms
      · exact mem_append_left _ ((hmem m).mpr ⟨hm, hms⟩)
    have hold : b ∈ new ∨ (b = start ∨ b ∈ s.seen) := by
      rcases hb with hb | hb
      · exact .inr (.inl hb)
      · rcases mem_append.mp hb with hb | hb
        · exact .inl hb
        · exact .inr (.inr hb)
    rcases hold with hb | hb
    · exact .inl (mem_append_left _ hb)
    · rcases hs.closed b hb with hbs | hbs
      · rw [hstack] at hbs
        exact .inl (mem_append_right _ ((mem_cons.mp hbs).resolve_left hba))
      · exact .inr fun m hm => mem_append_right _ (hbs m hm)

/-- **What `reach` collects.** -/
theorem mem_reach {adj : α → List α} (hsupp : ∀ a, ∀ m ∈ adj a, m ∈ support) (start a : α) :
    a ∈ reach adj support start ↔ TransGen (fun x y => y ∈ adj x) start a := by
  have hinit : ReachInv adj start ⟨[start], []⟩ := by
    constructor
    case nodup => exact nodup_nil
    case stack_seen => intro b hb; exact .inl (mem_singleton.mp hb)
    case sound => intro b hb; cases hb
    case closed =>
      rintro b (rfl | hb)
      · exact .inl mem_cons_self
      · cases hb
  have hseen : ∀ s, ReachInv adj start s → s.seen.length ≤ support.length := by
    intro s hs
    refine (hs.nodup.subperm fun b hb => ?_).length_le
    rcases TransGen.tail'_iff.mp (hs.sound b hb) with ⟨c, -, hcb⟩
    exact hsupp c b hcb
  have hinv : ReachInv adj start (iter (reachNext adj) (1 + support.length) ⟨[start], []⟩) :=
    iter_invariant (fun _ _ hs h => reachNext_inv hs h) _ _ hinit
  have hend : (iter (reachNext adj) (1 + support.length) ⟨[start], []⟩).stack = [] := by
    have hnone : reachNext adj (iter (reachNext adj) (1 + support.length) ⟨[start], []⟩) = none := by
      -- every vertex enters the worklist once, when it is marked
      refine iter_halts (I := ReachInv adj start)
        (fun s => s.stack.length + (support.length - s.seen.length))
        (fun _ _ hs h => reachNext_inv hs h) ?_ _ _ hinit ?_
      · intro s t hs h
        have ht := hseen t (reachNext_inv hs h)
        unfold reachNext at h
        split at h
        · cases h
        · rename_i b rest hstack
          obtain ⟨new, hst, hse, -, -⟩ := foldl_meet (adj b) ⟨rest, s.seen⟩
          cases h
          rw [hse, length_append] at ht
          rw [hst, hse, hstack, length_append, length_append, length_cons]
          simp only at ht ⊢
          omega
      · simp
    unfold reachNext at hnone
    split at hnone
    · assumption
    · cases hnone
  constructor
  · exact hinv.sound a
  intro hpath
  have hstep : ∀ b, b = start ∨ b ∈ reach adj support start →
      ∀ m ∈ adj b, m ∈ reach adj support start := by
    intro b hb
    rcases hinv.closed b hb with h | h
    · rw [hend] at h
      cases h
    · exact h
  induction hpath with
  | single h => exact hstep start (.inl rfl) _ h
  | tail _ h ih => exact hstep _ (.inr ih) _ h

end Fuel.DepGraph
