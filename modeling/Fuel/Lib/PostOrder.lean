import Fuel.Lib.DepGraph

/-!
# Depth-first post-order with an explicit stack

The iterative form of a depth-first walk: the stack holds vertices still to be
opened and, marked, vertices already opened whose dependencies lie above them.
A vertex is listed when its mark comes back to the top of the stack.

The walk lists exactly the vertices its targets need, each once
(`postOrder_nodup`, `mem_postOrder`), and on an acyclic graph it puts every
vertex after its dependencies (`postOrder_schedules`).
-/

namespace Fuel.DepGraph

open Relation List

variable {α : Type*} [DecidableEq α]

/-- The walk between two pops: `(a, false)` on the stack asks for `a` to be
opened, `(a, true)` says `a` was opened and waits for what lies above it. -/
structure WalkState (α : Type*) where
  stack : List (α × Bool)
  visited : List α
  order : List α

/-- One pop. The head of `stack` is its top, so the dependencies, pushed in
their order, come out last first. -/
def walkNext (deps : α → List α) (s : WalkState α) : Option (WalkState α) :=
  match s.stack with
  | [] => none
  | (a, true) :: rest => some { s with stack := rest, order := s.order ++ [a] }
  | (a, false) :: rest =>
    if a ∈ s.visited then some { s with stack := rest }
    else
      let visited := a :: s.visited
      let children := (deps a).filter (fun c => decide (c ∉ visited))
      some ⟨(children.map fun c => (c, false)).reverse ++ (a, true) :: rest, visited, s.order⟩

/-- The walk before its first pop; the last target is on top. -/
def walkInit (targets : List α) : WalkState α :=
  ⟨(targets.map fun r => (r, false)).reverse, [], []⟩

/-- The walk's listing of everything `targets` need. -/
def postOrder (deps : α → List α) (fuel : Nat) (targets : List α) : List α :=
  (iter (walkNext deps) fuel (walkInit targets)).order

/-- Turns the walk takes at most, when only vertices of `support` have dependencies. -/
def walkFuel (deps : α → List α) (support targets : List α) : Nat :=
  2 * targets.length + (support.map fun a => 2 * (deps a).length).sum

/-! ## One pop -/

variable {deps : α → List α} {s t : WalkState α} {a : α} {rest : List (α × Bool)}
  {targets support : List α}

/-- What one pop does: list a marked vertex, drop a visited one, or open a new one. -/
theorem walkNext_cases (h : walkNext deps s = some t) : (∃ a rest, s.stack = (a, true) :: rest ∧
      t = { s with stack := rest, order := s.order ++ [a] }) ∨
    (∃ a rest, s.stack = (a, false) :: rest ∧ a ∈ s.visited ∧ t = { s with stack := rest }) ∨
    (∃ a rest children, s.stack = (a, false) :: rest ∧ a ∉ s.visited ∧
      (∀ e, e ∈ children ↔ e.2 = false ∧ e.1 ∈ deps a ∧ e.1 ∉ a :: s.visited) ∧
      children.length ≤ (deps a).length ∧
      t = ⟨children ++ (a, true) :: rest, a :: s.visited, s.order⟩) := by
  unfold walkNext at h
  split at h
  · cases h
  · rename_i a rest hstack
    exact .inl ⟨a, rest, hstack, (Option.some.inj h).symm⟩
  rename_i a rest hstack
  split at h
  · rename_i hvis
    exact .inr (.inl ⟨a, rest, hstack, hvis, (Option.some.inj h).symm⟩)
  rename_i hvis
  refine .inr (.inr ⟨a, rest, _, hstack, hvis, ?_, ?_, (Option.some.inj h).symm⟩)
  · rintro ⟨c, b⟩
    simp only [mem_reverse, mem_map, mem_filter, decide_eq_true_eq,
      Prod.mk.injEq]
    constructor
    · rintro ⟨x, ⟨hx, hx'⟩, rfl, rfl⟩
      exact ⟨rfl, hx, hx'⟩
    · rintro ⟨rfl, hc, hc'⟩
      exact ⟨c, ⟨hc, hc'⟩, rfl, rfl⟩
  · rw [length_reverse, length_map]
    exact length_filter_le _ _

theorem walkNext_eq_none (h : walkNext deps s = none) : s.stack = [] := by
  unfold walkNext at h
  split at h
  · assumption
  · cases h
  · split at h <;> cases h

/-! ## What the walk has seen -/

/-- The opened vertices still on a stack. -/
def opened (stack : List (α × Bool)) : List α := (stack.filter (·.2)).map (·.1)

omit [DecidableEq α] in
theorem mem_opened {stack : List (α × Bool)} : a ∈ opened stack ↔ (a, true) ∈ stack := by
  simp [opened]

omit [DecidableEq α] in
@[simp] theorem opened_cons_true (a : α) (rest : List (α × Bool)) :
    opened ((a, true) :: rest) = a :: opened rest := by
  simp [opened]

omit [DecidableEq α] in
@[simp] theorem opened_cons_false (a : α) (rest : List (α × Bool)) :
    opened ((a, false) :: rest) = opened rest := by
  simp [opened]

omit [DecidableEq α] in
theorem opened_append_of_false {children : List (α × Bool)} (h : ∀ e ∈ children, e.2 = false) :
    opened (children ++ rest) = opened rest := by
  have hnil : children.filter (·.2) = [] := by
    rw [filter_eq_nil_iff]
    intro e he
    simp [h e he]
  simp [opened, filter_append, hnil]

/-- The visited vertices are the listed ones and the open ones, and what a
visited vertex or a target asks for is visited or still on the stack. -/
structure WalkInv (deps : α → List α) (targets : List α) (s : WalkState α) : Prop where
  nodup : (s.order ++ opened s.stack).Nodup
  visited : ∀ a, a ∈ s.visited ↔ a ∈ s.order ++ opened s.stack
  sound : ∀ e ∈ s.stack, Needed deps targets e.1
  visited_sound : ∀ a ∈ s.visited, Needed deps targets a
  targets_seen : ∀ r ∈ targets, r ∈ s.visited ∨ (r, false) ∈ s.stack
  deps_seen : ∀ a ∈ s.visited, ∀ c ∈ deps a, c ∈ s.visited ∨ (c, false) ∈ s.stack

omit [DecidableEq α] in
theorem walkInit_inv (deps : α → List α) (targets : List α) :
    WalkInv deps targets (walkInit targets) := by
  have hopen : opened (walkInit targets).stack = [] := by
    have hfalse : ∀ e ∈ (walkInit targets).stack, e.2 = false := by simp [walkInit]
    have happend : opened ((walkInit targets).stack ++ []) = opened [] :=
      opened_append_of_false hfalse
    rwa [append_nil] at happend
  constructor
  case nodup => rw [hopen]; exact nodup_nil
  case visited => intro a; rw [hopen]; exact Iff.rfl
  case sound =>
    intro e he
    obtain ⟨r, hr, rfl⟩ : ∃ r ∈ targets, (r, false) = e := by simpa [walkInit] using he
    exact Needed.of_mem hr
  case visited_sound => intro a ha; cases ha
  case targets_seen => intro r hr; right; simpa [walkInit] using hr
  case deps_seen => intro a ha; cases ha

section Step

variable {deps : α → List α} {targets : List α} {s : WalkState α} {a : α}
  {rest children : List (α × Bool)} (hs : WalkInv deps targets s)

include hs

omit [DecidableEq α] in
/-- A marked vertex moves from the stack to the listing. -/
theorem WalkInv.list (hstack : s.stack = (a, true) :: rest) :
    WalkInv deps targets { s with stack := rest, order := s.order ++ [a] } := by
  have hopen : opened s.stack = a :: opened rest := by rw [hstack, opened_cons_true]
  have hlist : s.order ++ opened s.stack = s.order ++ [a] ++ opened rest := by simp [hopen]
  have hkeep : ∀ c, (c, false) ∈ s.stack → (c, false) ∈ rest := by
    intro c hc
    rw [hstack] at hc
    simpa using hc
  constructor
  case nodup => exact hlist ▸ hs.nodup
  case visited => intro c; rw [hs.visited c, hlist]
  case sound => exact fun e he => hs.sound e (hstack ▸ mem_cons_of_mem _ he)
  case visited_sound => exact hs.visited_sound
  case targets_seen => exact fun r hr => (hs.targets_seen r hr).imp_right (hkeep r)
  case deps_seen => exact fun b hb c hc => (hs.deps_seen b hb c hc).imp_right (hkeep c)

omit [DecidableEq α] in
/-- A second request for a visited vertex is dropped. -/
theorem WalkInv.drop (hstack : s.stack = (a, false) :: rest) (hvis : a ∈ s.visited) :
    WalkInv deps targets { s with stack := rest } := by
  have hopen : opened s.stack = opened rest := by rw [hstack, opened_cons_false]
  have hkeep : ∀ c, c ∈ s.visited ∨ (c, false) ∈ s.stack → c ∈ s.visited ∨ (c, false) ∈ rest := by
    rintro c (hc | hc)
    · exact .inl hc
    · rw [hstack] at hc
      rcases mem_cons.mp hc with hca | hc
      · cases hca
        exact .inl hvis
      · exact .inr hc
  constructor
  case nodup => exact hopen ▸ hs.nodup
  case visited => intro c; rw [hs.visited c, hopen]
  case sound => exact fun e he => hs.sound e (hstack ▸ mem_cons_of_mem _ he)
  case visited_sound => exact hs.visited_sound
  case targets_seen => exact fun r hr => hkeep r (hs.targets_seen r hr)
  case deps_seen => exact fun b hb c hc => hkeep c (hs.deps_seen b hb c hc)

/-- A new vertex is opened and asks for its dependencies. -/
theorem WalkInv.open (hstack : s.stack = (a, false) :: rest) (hvis : a ∉ s.visited)
    (hch : ∀ e, e ∈ children ↔ e.2 = false ∧ e.1 ∈ deps a ∧ e.1 ∉ a :: s.visited) :
    WalkInv deps targets ⟨children ++ (a, true) :: rest, a :: s.visited, s.order⟩ := by
  have hopen : opened (children ++ (a, true) :: rest) = a :: opened s.stack := by
    rw [opened_append_of_false (fun e he => ((hch e).mp he).1), opened_cons_true, hstack,
      opened_cons_false]
  have ha : a ∉ s.order ++ opened s.stack := fun h => hvis ((hs.visited a).mpr h)
  have hneed : Needed deps targets a := hs.sound (a, false) (hstack ▸ mem_cons_self)
  have hkeep : ∀ c, c ∈ s.visited ∨ (c, false) ∈ s.stack →
      c ∈ a :: s.visited ∨ (c, false) ∈ children ++ (a, true) :: rest := by
    rintro c (hc | hc)
    · exact .inl (mem_cons_of_mem _ hc)
    · rw [hstack] at hc
      rcases mem_cons.mp hc with hca | hc
      · cases hca
        exact .inl mem_cons_self
      · exact .inr (mem_append_right _ (mem_cons_of_mem _ hc))
  constructor
  case nodup =>
    rw [hopen]
    exact nodup_middle.mpr (nodup_cons.mpr ⟨ha, hs.nodup⟩)
  case visited =>
    intro c
    rw [hopen, mem_cons, hs.visited c]
    simp only [mem_append, mem_cons]
    tauto
  case sound =>
    intro e he
    rcases mem_append.mp he with he | he
    · exact hneed.dep ((hch e).mp he).2.1
    · rcases mem_cons.mp he with rfl | he
      · exact hneed
      · exact hs.sound e (hstack ▸ mem_cons_of_mem _ he)
  case visited_sound =>
    intro c hc
    rcases mem_cons.mp hc with rfl | hc
    · exact hneed
    · exact hs.visited_sound c hc
  case targets_seen => exact fun r hr => hkeep r (hs.targets_seen r hr)
  case deps_seen =>
    intro b hb c hc
    rcases mem_cons.mp hb with rfl | hb
    · by_cases hcv : c ∈ b :: s.visited
      · exact .inl hcv
      · exact .inr (mem_append_left _ ((hch (c, false)).mpr ⟨rfl, hc, hcv⟩))
    · exact hkeep c (hs.deps_seen b hb c hc)

end Step

theorem walkNext_inv (hs : WalkInv deps targets s) (h : walkNext deps s = some t) :
    WalkInv deps targets t := by
  obtain ⟨a, rest, hstack, rfl⟩ | ⟨a, rest, hstack, hvis, rfl⟩ |
    ⟨a, rest, children, hstack, hvis, hch, -, rfl⟩ := walkNext_cases h
  · exact hs.list hstack
  · exact hs.drop hstack hvis
  · exact hs.open hstack hvis hch

/-! ## The walk stops -/

/-- Work left: each request costs its own two turns, and each vertex not yet
opened may still ask for all its dependencies. -/
def walkWork (deps : α → List α) (support : List α) (s : WalkState α) : Nat :=
  (s.stack.map fun e => if e.2 then 1 else 2).sum +
    ((support.filter fun a => decide (a ∉ s.visited)).map fun a => 2 * (deps a).length).sum

theorem sum_unvisited_cons_le (f : α → Nat) (support visited : List α) (a : α)
    (ha : a ∉ visited) (hf : a ∉ support → f a = 0) :
    ((support.filter fun b => decide (b ∉ a :: visited)).map f).sum + f a ≤
      ((support.filter fun b => decide (b ∉ visited)).map f).sum := by
  have hmono : ∀ l : List α, ((l.filter fun b => decide (b ∉ a :: visited)).map f).sum ≤
      ((l.filter fun b => decide (b ∉ visited)).map f).sum := by
    intro l
    induction l with
    | nil => simp
    | cons b l ih =>
      by_cases hb : b ∈ visited
      · simpa [filter_cons, hb] using ih
      · by_cases hba : b = a
        · simp [hba, ha] at ih ⊢
          omega
        · simpa [filter_cons, hb, hba] using ih
  by_cases hmem : a ∈ support
  · obtain ⟨l₁, l₂, rfl⟩ := append_of_mem hmem
    have h₁ := hmono l₁
    have h₂ := hmono l₂
    simp only [filter_append, filter_cons, map_append, sum_append,
      mem_cons, true_or, not_true, decide_false, Bool.false_eq_true, if_false, ha,
      not_false_iff, decide_true, if_true, map_cons, sum_cons] at h₁ h₂ ⊢
    omega
  · rw [hf hmem]
    exact hmono support

theorem walkNext_work_lt (hsupp : ∀ a, a ∉ support → deps a = []) (h : walkNext deps s = some t) :
    walkWork deps support t < walkWork deps support s := by
  obtain ⟨a, rest, hstack, rfl⟩ | ⟨a, rest, hstack, hvis, rfl⟩ |
    ⟨a, rest, children, hstack, hvis, hch, hlen, rfl⟩ := walkNext_cases h
  · simp only [walkWork, hstack, map_cons, sum_cons, if_true]
    omega
  · simp only [walkWork, hstack, map_cons, sum_cons, Bool.false_eq_true, if_false]
    omega
  have hle := sum_unvisited_cons_le (fun b => 2 * (deps b).length) support s.visited a hvis
    (fun hmem => by simp [hsupp a hmem])
  have hchildren : (children.map fun e => if e.2 then 1 else 2).sum = 2 * children.length := by
    rw [map_congr_left (g := fun _ => 2) (fun e he => by simp [((hch e).mp he).1])]
    simp [Nat.mul_comm]
  simp only [walkWork, hstack, map_append, sum_append, map_cons, sum_cons,
    Bool.false_eq_true, if_false, if_true, hchildren]
  omega

/-- The state the walk ends in, with enough fuel: nothing is left on the stack. -/
theorem walk_ends {fuel : Nat} (hsupp : ∀ a, a ∉ support → deps a = [])
    (hfuel : walkFuel deps support targets ≤ fuel) :
    (iter (walkNext deps) fuel (walkInit targets)).stack = [] := by
  have hwork : walkWork deps support (walkInit targets) = walkFuel deps support targets := by
    simp [walkWork, walkFuel, walkInit, Function.comp_def, Nat.mul_comm]
  refine walkNext_eq_none (iter_halts (I := fun _ => True) (walkWork deps support)
    (fun _ _ _ _ => trivial) (fun s t _ h => walkNext_work_lt hsupp h) fuel _ trivial ?_)
  omega

/-! ## What is listed -/

theorem postOrder_inv (deps : α → List α) (fuel : Nat) (targets : List α) :
    WalkInv deps targets (iter (walkNext deps) fuel (walkInit targets)) :=
  iter_invariant (fun _ _ hs h => walkNext_inv hs h) fuel _ (walkInit_inv deps targets)

theorem postOrder_nodup (deps : α → List α) (fuel : Nat) (targets : List α) :
    (postOrder deps fuel targets).Nodup :=
  (nodup_append.mp (postOrder_inv deps fuel targets).nodup).1

/-- **The walk lists exactly what its targets need.** -/
theorem mem_postOrder {fuel : Nat} (hsupp : ∀ a, a ∉ support → deps a = [])
    (hfuel : walkFuel deps support targets ≤ fuel) (a : α) :
    a ∈ postOrder deps fuel targets ↔ Needed deps targets a := by
  have hinv := postOrder_inv deps fuel targets
  have hend := walk_ends hsupp hfuel
  have hvis : ∀ b, b ∈ (iter (walkNext deps) fuel (walkInit targets)).visited ↔
      b ∈ postOrder deps fuel targets := by
    intro b
    rw [hinv.visited b, hend]
    simp [opened, postOrder]
  constructor
  · intro ha
    exact hinv.visited_sound a ((hvis a).mpr ha)
  · intro ha
    refine (hvis a).mp (Needed.closed ?_ ?_ ha)
    · intro r hr
      simpa [hend] using hinv.targets_seen r hr
    · intro b hb c hc
      simpa [hend] using hinv.deps_seen b hb c hc

/-! ## The order on an acyclic graph -/

/-- What lies above an open vertex is needed for it; what an open vertex waits
for is listed or lies above it; and the listing is a schedule so far. -/
structure WalkNested (deps : α → List α) (s : WalkState α) : Prop where
  above : ∀ above a below, s.stack = above ++ (a, true) :: below →
    ∀ e ∈ above, TransGen (Precedes deps) e.1 a
  pending : ∀ above a below, s.stack = above ++ (a, true) :: below →
    ∀ c ∈ deps a, c ∈ s.order ∨ ∃ e ∈ above, e.1 = c
  schedules : Schedules deps s.order

omit [DecidableEq α] in
theorem walkInit_nested (deps : α → List α) (targets : List α) :
    WalkNested deps (walkInit targets) := by
  have hnone : ∀ above a below, (walkInit targets).stack ≠ above ++ (a, true) :: below := by
    intro above a below h
    have hmem : (a, true) ∈ (walkInit targets).stack := by rw [h]; simp
    simp [walkInit] at hmem
  exact ⟨fun _ _ _ h => absurd h (hnone _ _ _), fun _ _ _ h => absurd h (hnone _ _ _),
    schedules_nil deps⟩

omit [DecidableEq α] in
/-- Where an open vertex sits after unmarked requests and one open vertex were pushed. -/
theorem split_after_push {children above below : List (α × Bool)} {x : α}
    (hfalse : ∀ e ∈ children, e.2 = false)
    (h : children ++ (x, true) :: rest = above ++ (a, true) :: below) : (above = children ∧ a = x) ∨
      ∃ above', above = children ++ (x, true) :: above' ∧
        rest = above' ++ (a, true) :: below := by
  induction children generalizing above with
  | nil =>
    cases above with
    | nil =>
      simp only [nil_append, List.cons.injEq, Prod.mk.injEq, and_true] at h
      exact .inl ⟨rfl, h.1.symm⟩
    | cons e above =>
      simp only [nil_append, cons_append, List.cons.injEq] at h
      exact .inr ⟨above, by rw [← h.1]; rfl, h.2⟩
  | cons e children ih =>
    cases above with
    | nil =>
      simp only [nil_append, cons_append, List.cons.injEq] at h
      have := hfalse e mem_cons_self
      rw [h.1] at this
      cases this
    | cons f above =>
      simp only [cons_append, List.cons.injEq] at h
      obtain ⟨rfl, h⟩ := h
      rcases ih (fun d hd => hfalse d (mem_cons_of_mem _ hd)) h with ⟨rfl, rfl⟩ |
        ⟨above', rfl, hrest⟩
      · exact .inl ⟨rfl, rfl⟩
      · exact .inr ⟨above', rfl, hrest⟩

omit [DecidableEq α] in
/-- A visited vertex asked for from above cannot be open: it would wait for itself. -/
theorem mem_order_of_request (hacyc : ∀ a, Needed deps targets a → ¬ TransGen (Precedes deps) a a)
    (hinv : WalkInv deps targets s) (hnest : WalkNested deps s)
    (hstack : s.stack = (a, false) :: rest) {c : α} (hc : ReflTransGen (Precedes deps) c a)
    (hvis : c ∈ s.visited) : c ∈ s.order := by
  rcases mem_append.mp ((hinv.visited c).mp hvis) with hord | hopen
  · exact hord
  exfalso
  obtain ⟨above, below, hsplit⟩ := append_of_mem (mem_opened.mp hopen)
  -- the request for `a` is on top, hence above the open `c`
  have htop : (a, false) ∈ above := by
    cases above with
    | nil =>
      rw [hsplit] at hstack
      simp at hstack
    | cons e above =>
      rw [hsplit, cons_append, List.cons.injEq] at hstack
      rw [hstack.1]
      exact mem_cons_self
  have hpath := hnest.above above c below hsplit (a, false) htop
  exact hacyc c (hinv.visited_sound c hvis) (TransGen.trans_right hc hpath)

section NestedStep

variable {deps : α → List α} {targets : List α} {s : WalkState α} {a : α}
  {rest children : List (α × Bool)}

omit [DecidableEq α] in
/-- A split below the top entry is a split of the whole stack. -/
theorem split_below_top {stack above below : List (α × Bool)} {e f : α × Bool}
    (hstack : stack = e :: rest) (h : rest = above ++ f :: below) :
    stack = (e :: above) ++ f :: below := by
  rw [hstack, h]
  rfl

variable (hnest : WalkNested deps s)

include hnest

omit [DecidableEq α] in
/-- The top entry goes, and its vertex is listed. -/
theorem WalkNested.pop {e : α × Bool} {order : List α} (hstack : s.stack = e :: rest)
    (hsub : s.order ⊆ order) (hlisted : e.1 ∈ order) (hsched : Schedules deps order) :
    WalkNested deps { s with stack := rest, order := order } where
  above := by
    intro above b below hr e he
    exact hnest.above _ b below (split_below_top hstack hr) e (mem_cons_of_mem _ he)
  pending := by
    intro above b below hr c hc
    rcases hnest.pending _ b below (split_below_top hstack hr) c hc with hord | ⟨e, he, rfl⟩
    · exact .inl (hsub hord)
    · rcases mem_cons.mp he with rfl | he
      · exact .inl hlisted
      · exact .inr ⟨e, he, rfl⟩
  schedules := hsched

omit [DecidableEq α] in
/-- Listing the top vertex: nothing lies above it, so all it waits for is listed. -/
theorem WalkNested.list (hstack : s.stack = (a, true) :: rest) :
    WalkNested deps { s with stack := rest, order := s.order ++ [a] } := by
  refine hnest.pop hstack (subset_append_left _ _) (by simp) (hnest.schedules.snoc ?_)
  intro c hc
  rcases hnest.pending [] a rest hstack c hc with hord | ⟨e, he, -⟩
  · exact hord
  · cases he

omit [DecidableEq α] in
/-- Dropping a request for a vertex already listed. -/
theorem WalkNested.drop (hstack : s.stack = (a, false) :: rest) (haord : a ∈ s.order) :
    WalkNested deps { s with stack := rest } :=
  hnest.pop hstack (fun _ h => h) haord hnest.schedules

/-- Opening a vertex: its unvisited dependencies go above it, the visited ones are listed. -/
theorem WalkNested.open (hstack : s.stack = (a, false) :: rest)
    (hch : ∀ e, e ∈ children ↔ e.2 = false ∧ e.1 ∈ deps a ∧ e.1 ∉ a :: s.visited)
    (hlisted : ∀ c ∈ deps a, c ∈ a :: s.visited → c ∈ s.order) :
    WalkNested deps ⟨children ++ (a, true) :: rest, a :: s.visited, s.order⟩ := by
  have hfalse : ∀ e ∈ children, e.2 = false := fun e he => ((hch e).mp he).1
  constructor
  case above =>
    intro above b below hsplit e he
    rcases split_after_push hfalse hsplit with ⟨rfl, rfl⟩ | ⟨above', rfl, hr⟩
    · exact TransGen.single ((hch e).mp he).2.1
    · have habove := hnest.above _ b below (split_below_top hstack hr)
      have hab : TransGen (Precedes deps) a b := habove (a, false) mem_cons_self
      rcases mem_append.mp he with he | he
      · exact TransGen.head ((hch e).mp he).2.1 hab
      · rcases mem_cons.mp he with rfl | he
        · exact hab
        · exact habove e (mem_cons_of_mem _ he)
  case pending =>
    intro above b below hsplit c hc
    rcases split_after_push hfalse hsplit with ⟨rfl, rfl⟩ | ⟨above', rfl, hr⟩
    · by_cases hcv : c ∈ b :: s.visited
      · exact .inl (hlisted c hc hcv)
      · exact .inr ⟨(c, false), (hch (c, false)).mpr ⟨rfl, hc, hcv⟩, rfl⟩
    · rcases hnest.pending _ b below (split_below_top hstack hr) c hc with hord | ⟨e, he, rfl⟩
      · exact .inl hord
      · rcases mem_cons.mp he with rfl | he
        · exact .inr ⟨(a, true), by simp, rfl⟩
        · exact .inr ⟨e, by simp [he], rfl⟩
  case schedules => exact hnest.schedules

end NestedStep

theorem walkNext_nested (hacyc : ∀ a, Needed deps targets a → ¬ TransGen (Precedes deps) a a)
    (hinv : WalkInv deps targets s) (hnest : WalkNested deps s) (h : walkNext deps s = some t) :
    WalkNested deps t := by
  obtain ⟨a, rest, hstack, rfl⟩ | ⟨a, rest, hstack, hvis, rfl⟩ |
    ⟨a, rest, children, hstack, hvis, hch, -, rfl⟩ := walkNext_cases h
  · exact hnest.list hstack
  · exact hnest.drop hstack (mem_order_of_request hacyc hinv hnest hstack .refl hvis)
  · refine hnest.open hstack hch fun c hc hcv => ?_
    rcases mem_cons.mp hcv with rfl | hcv
    · exact absurd (TransGen.single hc)
        (hacyc c (hinv.sound (c, false) (hstack ▸ mem_cons_self)))
    · exact mem_order_of_request hacyc hinv hnest hstack (ReflTransGen.single hc) hcv

/-- **On what the targets need, if acyclic, the walk lists dependencies first.** -/
theorem postOrder_schedules (fuel : Nat)
    (hacyc : ∀ a, Needed deps targets a → ¬ TransGen (Precedes deps) a a) :
    Schedules deps (postOrder deps fuel targets) := by
  have hboth : WalkInv deps targets (iter (walkNext deps) fuel (walkInit targets)) ∧
      WalkNested deps (iter (walkNext deps) fuel (walkInit targets)) :=
    iter_invariant (I := fun s => WalkInv deps targets s ∧ WalkNested deps s)
      (fun s t hs h => ⟨walkNext_inv hs.1 h, walkNext_nested hacyc hs.1 hs.2 h⟩)
      fuel _ ⟨walkInit_inv deps targets, walkInit_nested deps targets⟩
  exact hboth.2.schedules

end Fuel.DepGraph
