import Fuel.Lib.DepGraph

/-!
# Scheduling by counting what each vertex still waits for

Kahn's loop: every vertex carries the number of its dependencies not yet
listed; a vertex whose count reaches zero becomes ready, and a choice function
picks the next one to list among the ready ones.

Whatever the choice, the listing has no repeats and puts every vertex after its
dependencies (`kahn_nodup`, `kahn_schedules`); it lists everything exactly when
the graph has no cycle (`kahn_complete`, `Schedules.no_cycle`).
-/

namespace Fuel.DepGraph

open Relation List

variable {α : Type*} [DecidableEq α]

/-- The loop between two turns. -/
structure KahnState (α : Type*) where
  inDegree : α → Nat
  ready : List α
  plan : List α

/-- Edges turned around: the vertices of `nodes` that wait for `a`, once for
each time they name it. -/
def dependents (nodes : List α) (deps : α → List α) (a : α) : List α :=
  nodes.flatMap fun b => (deps b).filterMap fun c => if c = a then some b else none

/-- One dependency of `b` has been listed; at count zero `b` becomes ready. -/
def relax (acc : (α → Nat) × List α) (b : α) : (α → Nat) × List α :=
  let d := acc.1 b - 1
  (Function.update acc.1 b d, if d = 0 then acc.2 ++ [b] else acc.2)

/-- One turn: list the chosen ready vertex and count down its dependents. -/
def kahnNext (nodes : List α) (deps : α → List α) (choose : List α → List α → Option α)
    (s : KahnState α) : Option (KahnState α) :=
  match choose s.plan s.ready with
  | none => none
  | some a =>
    let acc := (dependents nodes deps a).foldl relax (s.inDegree, s.ready.erase a)
    some ⟨acc.1, acc.2, s.plan ++ [a]⟩

def kahnInit (nodes : List α) (deps : α → List α) : KahnState α :=
  ⟨fun a => (deps a).length, nodes.filter fun a => decide ((deps a).length = 0), []⟩

/-- The listing the loop ends with. -/
def kahn (nodes : List α) (deps : α → List α) (choose : List α → List α → Option α) : List α :=
  (iter (kahnNext nodes deps choose) nodes.length (kahnInit nodes deps)).plan

/-- A choice picks a ready vertex, and fails only when there is none. -/
structure Chooses (choose : List α → List α → Option α) : Prop where
  mem : ∀ plan ready a, choose plan ready = some a → a ∈ ready
  none : ∀ plan ready, choose plan ready = none → ready = []

/-! ## Counting -/

theorem count_filterMap_single (l : List α) (a b c : α) :
    (l.filterMap fun x => if x = a then some b else none).count c =
      if c = b then l.count a else 0 := by
  induction l with
  | nil => simp
  | cons x l ih =>
    by_cases hx : x = a
    · subst hx
      by_cases hc : c = b
      · subst hc
        simp_all
      · have hbc : ¬ b = c := fun h => hc h.symm
        simp_all
    · simp_all

variable {nodes : List α}

/-- The turned-around edge list names each dependent as often as it waits. -/
theorem count_dependents (hnd : nodes.Nodup) (deps : α → List α) (a b : α) :
    (dependents nodes deps a).count b = if b ∈ nodes then (deps b).count a else 0 := by
  unfold dependents
  induction nodes with
  | nil => simp
  | cons x nodes ih =>
    obtain ⟨hx, hnd⟩ := nodup_cons.mp hnd
    rw [flatMap_cons, count_append, count_filterMap_single, ih hnd]
    by_cases hb : b = x
    · subst hb
      simp [hx]
    · simp [hb]

theorem mem_dependents {deps : α → List α} {a b : α} :
    b ∈ dependents nodes deps a ↔ b ∈ nodes ∧ a ∈ deps b := by
  simp only [dependents, mem_flatMap, mem_filterMap]
  constructor
  · rintro ⟨x, hx, c, hc, hif⟩
    split at hif
    · cases hif
      rename_i hca
      exact ⟨hx, hca ▸ hc⟩
    · cases hif
  · rintro ⟨hb, ha⟩
    exact ⟨b, hb, a, ha, by simp⟩

section Relax

variable {deg : α → Nat} {ready : List α}

theorem relax_degree_self (x : α) : (relax (deg, ready) x).1 x = deg x - 1 := by
  simp [relax]

variable {x b : α} {bs : List α}

theorem relax_degree_of_ne (h : b ≠ x) : (relax (deg, ready) x).1 b = deg b := by
  simp [relax, Function.update_of_ne h]

theorem mem_relax_ready (hx : 0 < deg x) :
    b ∈ (relax (deg, ready) x).2 ↔ b ∈ ready ∨ b = x ∧ deg x = 1 := by
  have hone : deg x - 1 = 0 ↔ deg x = 1 := by omega
  by_cases h : deg x - 1 = 0
  · simp [relax, hone.mp h]
  · have hne : deg x ≠ 1 := fun h' => h (hone.mpr h')
    simp [relax, h, hne]

/-- What is ready stays without repeats and at count zero. -/
theorem relax_ready (hx : 0 < deg x) (hnd : ready.Nodup) (hzero : ∀ b ∈ ready, deg b = 0) :
    (relax (deg, ready) x).2.Nodup ∧
      ∀ b ∈ (relax (deg, ready) x).2, (relax (deg, ready) x).1 b = 0 := by
  have hnew : x ∉ ready := fun hmem => by
    have := hzero x hmem
    omega
  constructor
  · unfold relax
    simp only
    split
    · exact nodup_append.mpr ⟨hnd, nodup_singleton x, fun b hb c hc hbc =>
        hnew (by rw [← mem_singleton.mp hc, ← hbc]; exact hb)⟩
    · exact hnd
  · intro b hb
    rcases (mem_relax_ready hx).mp hb with hmem | ⟨rfl, hone⟩
    · have hne : b ≠ x := fun h => hnew (h ▸ hmem)
      rw [relax_degree_of_ne hne]
      exact hzero b hmem
    · rw [relax_degree_self]
      omega

/-- Counting one dependent down leaves enough for the rest. -/
theorem count_le_relax (hle : ∀ b, (x :: bs).count b ≤ deg b) (b : α) :
    bs.count b ≤ (relax (deg, ready) x).1 b := by
  have hb := hle b
  by_cases hbx : b = x
  · subst hbx
    rw [count_cons_self] at hb
    rw [relax_degree_self]
    omega
  · rw [count_cons_of_ne fun h => hbx h.symm] at hb
    rwa [relax_degree_of_ne hbx]

theorem pos_of_count_le (hle : ∀ b, (x :: bs).count b ≤ deg b) : 0 < deg x := by
  have := hle x
  rw [count_cons_self] at this
  omega

/-- Counting down a list of dependents: the counts drop by the number of mentions. -/
theorem foldl_relax_degree (ready bs : List α) (hle : ∀ b, bs.count b ≤ deg b) (b : α) :
    (bs.foldl relax (deg, ready)).1 b = deg b - bs.count b := by
  induction bs generalizing deg ready with
  | nil => simp
  | cons x bs ih =>
    rw [foldl_cons, ih _ (count_le_relax hle)]
    by_cases hbx : b = x
    · subst hbx
      rw [relax_degree_self, count_cons_self]
      omega
    · rw [relax_degree_of_ne hbx, count_cons_of_ne fun h => hbx h.symm]

/-- Exactly the vertices that reach zero become ready. -/
theorem mem_foldl_relax (ready bs : List α) (hle : ∀ b, bs.count b ≤ deg b) (b : α) :
    b ∈ (bs.foldl relax (deg, ready)).2 ↔ b ∈ ready ∨ b ∈ bs ∧ bs.count b = deg b := by
  induction bs generalizing deg ready with
  | nil => simp
  | cons x bs ih =>
    rw [foldl_cons, ih _ (count_le_relax hle), mem_relax_ready (pos_of_count_le hle), or_assoc]
    refine or_congr_right ?_
    by_cases hbx : b = x
    · subst hbx
      have hb := hle b
      rw [count_cons_self] at hb
      rw [relax_degree_self, count_cons_self, ← count_pos_iff, ← count_pos_iff,
        count_cons_self]
      simp only [true_and]
      omega
    · rw [relax_degree_of_ne hbx, count_cons_of_ne fun h => hbx h.symm]
      simp [hbx]

theorem foldl_relax_nodup (bs : List α) (hle : ∀ b, bs.count b ≤ deg b) (hnd : ready.Nodup)
    (hzero : ∀ b ∈ ready, deg b = 0) : (bs.foldl relax (deg, ready)).2.Nodup := by
  induction bs generalizing deg ready with
  | nil => exact hnd
  | cons x bs ih =>
    obtain ⟨hnd', hzero'⟩ := relax_ready (pos_of_count_le hle) hnd hzero
    rw [foldl_cons]
    exact ih (count_le_relax hle) hnd' hzero'

end Relax

/-! ## What the loop keeps -/

section Run

variable {nodes : List α} {deps : α → List α} {choose : List α → List α → Option α}

/-- The counts are the dependencies not yet listed; the ready vertices are the
unlisted ones at count zero. -/
structure KahnInv (nodes : List α) (deps : α → List α) (s : KahnState α) : Prop where
  nodup : s.plan.Nodup
  subset : ∀ a ∈ s.plan, a ∈ nodes
  degree : ∀ a ∈ nodes, s.inDegree a = ((deps a).filter fun c => decide (c ∉ s.plan)).length
  ready_nodup : s.ready.Nodup
  ready : ∀ a, a ∈ s.ready ↔ a ∈ nodes ∧ a ∉ s.plan ∧ s.inDegree a = 0
  schedules : Schedules deps s.plan

theorem kahnInit_inv (hnd : nodes.Nodup) : KahnInv nodes deps (kahnInit nodes deps) := by
  constructor
  case nodup => exact nodup_nil
  case subset => intro a ha; cases ha
  case degree => intro a _; simp [kahnInit]
  case ready_nodup => exact hnd.filter _
  case ready => intro a; simp [kahnInit]
  case schedules => exact schedules_nil deps

variable {a : α} {s t : KahnState α}

theorem length_filter_not_mem_snoc (l plan : List α) (ha : a ∉ plan) :
    (l.filter fun c => decide (c ∉ plan ++ [a])).length + l.count a =
      (l.filter fun c => decide (c ∉ plan)).length := by
  induction l with
  | nil => simp
  | cons c l ih =>
    by_cases hca : c = a
    · subst hca
      simp [ha] at ih ⊢
      omega
    · by_cases hc : c ∈ plan
      · simp [hc, count_cons_of_ne hca] at ih ⊢
        omega
      · simp [hc, hca] at ih ⊢
        omega

theorem kahnNext_inv (hnd : nodes.Nodup) (hchoose : Chooses choose) (hs : KahnInv nodes deps s)
    (h : kahnNext nodes deps choose s = some t) : KahnInv nodes deps t := by
  unfold kahnNext at h
  split at h
  · cases h
  rename_i a hpick
  have haready : a ∈ s.ready := hchoose.mem _ _ a hpick
  obtain ⟨hanodes, haplan, hazero⟩ := (hs.ready a).mp haready
  -- every dependency of the chosen vertex is listed
  have hadeps : ∀ c ∈ deps a, c ∈ s.plan := by
    have hnil := hs.degree a hanodes
    rw [hazero, eq_comm, length_eq_zero_iff, filter_eq_nil_iff] at hnil
    intro c hc
    simpa using hnil c hc
  have hcount : ∀ b, (dependents nodes deps a).count b =
      if b ∈ nodes then (deps b).count a else 0 := count_dependents hnd deps a
  have hsplit := fun b => length_filter_not_mem_snoc (deps b) s.plan haplan
  have hle : ∀ b, (dependents nodes deps a).count b ≤ s.inDegree b := by
    intro b
    rw [hcount b]
    split
    · rename_i hb
      rw [hs.degree b hb, ← hsplit b]
      omega
    · omega
  have hdeg := foldl_relax_degree (s.ready.erase a) (dependents nodes deps a) hle
  have hready := mem_foldl_relax (s.ready.erase a) (dependents nodes deps a) hle
  cases h
  constructor
  case nodup =>
    exact nodup_append.mpr ⟨hs.nodup, nodup_singleton a, fun b hb c hc hbc =>
      haplan (by rw [← mem_singleton.mp hc, ← hbc]; exact hb)⟩
  case subset =>
    intro b hb
    rcases mem_append.mp hb with hb | hb
    · exact hs.subset b hb
    · exact mem_singleton.mp hb ▸ hanodes
  case degree =>
    intro b hb
    show (List.foldl relax _ _).1 b = ((deps b).filter fun c => decide (c ∉ s.plan ++ [a])).length
    rw [hdeg b, hcount b, if_pos hb, hs.degree b hb, ← hsplit b]
    omega
  case ready_nodup =>
    exact foldl_relax_nodup _ hle (hs.ready_nodup.erase a) fun b hb =>
      ((hs.ready b).mp (mem_of_mem_erase hb)).2.2
  case ready =>
    intro b
    show b ∈ (List.foldl relax _ _).2 ↔ b ∈ nodes ∧ b ∉ s.plan ++ [a] ∧
      (List.foldl relax _ _).1 b = 0
    rw [hready b, hdeg b, hs.ready_nodup.mem_erase_iff, hs.ready b, mem_dependents,
      mem_append, mem_singleton]
    have hle' := hle b
    constructor
    · rintro (⟨hba, hbn, hbp, hbz⟩ | ⟨⟨hbn, hab⟩, hbz⟩)
      · exact ⟨hbn, fun h => h.elim hbp hba, by omega⟩
      · refine ⟨hbn, ?_, by omega⟩
        -- a vertex that waits for `a` is not `a` and is not listed yet
        rintro (hbp | rfl)
        · exact haplan (hs.schedules.mem hbp hab)
        · exact haplan (hadeps b hab)
    rintro ⟨hbn, hbp, hbz⟩
    have hbp' : b ∉ s.plan := fun h => hbp (.inl h)
    by_cases hab : a ∈ deps b
    · exact .inr ⟨⟨hbn, hab⟩, by omega⟩
    · refine .inl ⟨fun h => hbp (.inr h), hbn, hbp', ?_⟩
      have hzero : (dependents nodes deps a).count b = 0 := by
        rw [hcount b, if_pos hbn]
        exact count_eq_zero.mpr hab
      omega
  case schedules => exact hs.schedules.snoc hadeps

theorem kahn_inv (hnd : nodes.Nodup) (hchoose : Chooses choose) :
    KahnInv nodes deps
      (iter (kahnNext nodes deps choose) nodes.length (kahnInit nodes deps)) :=
  iter_invariant (fun _ _ hs h => kahnNext_inv hnd hchoose hs h) _ _ (kahnInit_inv hnd)

theorem kahnNext_plan (h : kahnNext nodes deps choose s = some t) :
    ∃ a, t.plan = s.plan ++ [a] := by
  unfold kahnNext at h
  split at h
  · cases h
  · rename_i a _
    cases h
    exact ⟨a, rfl⟩

theorem kahnNext_eq_none (hchoose : Chooses choose) (h : kahnNext nodes deps choose s = none) :
    s.ready = [] := by
  unfold kahnNext at h
  split at h
  · rename_i hpick
    exact hchoose.none _ _ hpick
  · cases h

omit [DecidableEq α] in
theorem length_le_of_subset {l nodes : List α} (hnd : l.Nodup) (hsub : ∀ a ∈ l, a ∈ nodes) :
    l.length ≤ nodes.length :=
  (hnd.subperm hsub).length_le

variable (hnd : nodes.Nodup)

include hnd

/-- With one turn for each vertex the loop runs until nothing is ready. -/
theorem kahn_ready_nil (hchoose : Chooses choose) :
    (iter (kahnNext nodes deps choose) nodes.length (kahnInit nodes deps)).ready = [] := by
  refine kahnNext_eq_none hchoose (iter_halts (I := KahnInv nodes deps)
    (fun s => nodes.length - s.plan.length)
    (fun s t hs h => kahnNext_inv hnd hchoose hs h) ?_ _ _ (kahnInit_inv hnd) ?_)
  · intro s t hs h
    obtain ⟨a, ht⟩ := kahnNext_plan h
    have hle := length_le_of_subset (kahnNext_inv hnd hchoose hs h).nodup
      (kahnNext_inv hnd hchoose hs h).subset
    rw [ht, length_append, length_singleton] at hle
    rw [ht, length_append, length_singleton]
    omega
  · exact Nat.sub_le _ _

theorem kahn_nodup (hchoose : Chooses choose) : (kahn nodes deps choose).Nodup :=
  (kahn_inv hnd hchoose).nodup

theorem kahn_subset (hchoose : Chooses choose) (ha : a ∈ kahn nodes deps choose) : a ∈ nodes :=
  (kahn_inv hnd hchoose).subset a ha

/-- **The listing puts every vertex after its dependencies.** -/
theorem kahn_schedules (hchoose : Chooses choose) : Schedules deps (kahn nodes deps choose) :=
  (kahn_inv hnd hchoose).schedules

/-- **Without a cycle the loop lists everything.** -/
theorem kahn_complete (hchoose : Chooses choose) (hdeps : ∀ b ∈ nodes, ∀ a ∈ deps b, a ∈ nodes)
    (hacyc : ∀ a ∈ nodes, ¬ TransGen (Precedes deps) a a) :
    (kahn nodes deps choose).Perm nodes := by
  have hinv : KahnInv nodes deps _ := kahn_inv hnd hchoose
  have hready : (iter (kahnNext nodes deps choose) nodes.length (kahnInit nodes deps)).ready = [] :=
    kahn_ready_nil hnd hchoose
  refine (perm_ext_iff_of_nodup hinv.nodup hnd).mpr fun a => ⟨hinv.subset a, fun ha => ?_⟩
  by_contra hmiss
  -- among the unlisted vertices one waits only for listed ones, hence is ready
  let rest := nodes.filter fun b => decide (b ∉ kahn nodes deps choose)
  have hacyc' : ∀ b ∈ rest, ¬ TransGen (Precedes deps) b b :=
    fun b hb => hacyc b (mem_filter.mp hb).1
  obtain ⟨m, hm, hmin⟩ := exists_source rest
    (ne_nil_of_mem (mem_filter.mpr ⟨ha, decide_eq_true hmiss⟩)) hacyc'
  obtain ⟨hmn, hmp⟩ := mem_filter.mp hm
  have hmp : m ∉ kahn nodes deps choose := of_decide_eq_true hmp
  have hzero := hinv.degree m hmn
  have hnil : (deps m).filter (fun c => decide (c ∉ kahn nodes deps choose)) = [] := by
    rw [filter_eq_nil_iff]
    intro c hc hcp
    exact hmin c (mem_filter.mpr ⟨hdeps m hmn c hc, hcp⟩) hc
  have hmready := (hinv.ready m).mpr ⟨hmn, hmp, by
    rw [hzero, length_eq_zero_iff]
    exact hnil⟩
  rw [hready] at hmready
  cases hmready

/-- A listing as long as the vertex list is a permutation of it. -/
theorem kahn_perm_of_length (hchoose : Chooses choose)
    (hlen : (kahn nodes deps choose).length = nodes.length) : (kahn nodes deps choose).Perm nodes :=
  (subperm_of_subset (kahn_nodup hnd hchoose)
    (fun _ ha => kahn_subset hnd hchoose ha)).perm_of_length_le (Nat.le_of_eq hlen.symm)

end Run

end Fuel.DepGraph
