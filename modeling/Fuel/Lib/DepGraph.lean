import Mathlib.Tactic

/-!
# Dependency graphs, loops over them, and schedules

A dependency graph is a function `deps : α → List α` naming what each vertex
waits for. This file has the vocabulary the walks and schedulers share:
precedence, acyclicity, lists that put every vertex after what it waits for,
and the two rules for loops that run until they have nothing left to do.
-/

namespace Fuel.DepGraph

open Relation List

/-! ## Loops -/

section Loop

variable {σ : Type*} {next : σ → Option σ}

/-- Iterates `next` until it answers `none` or the fuel is spent. -/
def iter (next : σ → Option σ) : Nat → σ → σ
  | 0, s => s
  | fuel + 1, s =>
    match next s with
    | none => s
    | some t => iter next fuel t

variable {I : σ → Prop}

/-- What one turn of the loop preserves, the loop preserves. -/
theorem iter_invariant (hstep : ∀ s t, I s → next s = some t → I t) (fuel : Nat) (s : σ) (h : I s) :
    I (iter next fuel s) := by
  induction fuel generalizing s with
  | zero => exact h
  | succ fuel ih =>
    rw [iter]
    split
    · exact h
    · rename_i t ht
      exact ih t (hstep s t h ht)

/-- A loop whose measure drops at every turn has stopped once the fuel covers the measure. -/
theorem iter_halts (μ : σ → Nat) (hstep : ∀ s t, I s → next s = some t → I t)
    (hdrop : ∀ s t, I s → next s = some t → μ t < μ s) (fuel : Nat) (s : σ) (h : I s)
    (hfuel : μ s ≤ fuel) : next (iter next fuel s) = none := by
  induction fuel generalizing s with
  | zero =>
    rw [iter]
    cases hn : next s with
    | none => rfl
    | some t =>
      have := hdrop s t h hn
      omega
  | succ fuel ih =>
    rw [iter]
    split
    · assumption
    · rename_i t ht
      have hlt := hdrop s t h ht
      exact ih t (hstep s t h ht) (by omega)

/-- What each turn of a `for` loop preserves, told which elements are already done. -/
theorem foldl_invariant {β : Type*} {f : σ → β → σ} {I : List β → σ → Prop} {s : σ}
    (l : List β) (h0 : I [] s)
    (hstep : ∀ done b rest t, l = done ++ b :: rest → I done t → I (done ++ [b]) (f t b)) :
    I l (l.foldl f s) := by
  have hrun : ∀ done rest, l = done ++ rest → I done (done.foldl f s) := by
    intro done
    induction done using List.reverseRecOn with
    | nil => intro _ _; exact h0
    | append_singleton done b ih =>
      intro rest hsplit
      have hsplit' : l = done ++ b :: rest := by rw [hsplit]; simp
      rw [foldl_append]
      exact hstep done b rest _ hsplit' (ih (b :: rest) hsplit')
  exact hrun l [] (append_nil l).symm

/-- A loop that may stop short runs to its end when no turn stops, told which elements are
already done. -/
theorem foldlM_invariant {β : Type*} {f : σ → β → Option σ} {I : List β → σ → Prop} {s : σ}
    (l : List β) (h0 : I [] s)
    (hstep : ∀ done b rest t, l = done ++ b :: rest → I done t →
      ∃ t', f t b = some t' ∧ I (done ++ [b]) t') : ∃ s', l.foldlM f s = some s' ∧ I l s' := by
  have hrun : ∀ rest done t, l = done ++ rest → I done t →
      ∃ s', rest.foldlM f t = some s' ∧ I l s' := by
    intro rest
    induction rest with
    | nil =>
      intro done t hsplit ht
      rw [append_nil] at hsplit
      exact ⟨t, rfl, hsplit ▸ ht⟩
    | cons b rest ih =>
      intro done t hsplit ht
      obtain ⟨t', hb, ht'⟩ := hstep done b rest t hsplit ht
      rw [foldlM_cons, hb]
      exact ih (done ++ [b]) t' (by simp [hsplit]) ht'
  exact hrun l [] s rfl h0

end Loop

/-! ## Precedence -/

variable {α : Type*}

/-- `a` is something `b` waits for. -/
def Precedes (deps : α → List α) (a b : α) : Prop := a ∈ deps b

/-- No vertex waits, directly or not, for itself. -/
def Acyclic (deps : α → List α) : Prop := ∀ a, ¬ TransGen (Precedes deps) a a

/-- `a` is one of the targets or something a target waits for, directly or not. -/
def Needed (deps : α → List α) (targets : List α) (a : α) : Prop :=
  ∃ r ∈ targets, ReflTransGen (Precedes deps) a r

variable {deps : α → List α} {targets l : List α} {a c b : α} {P : α → Prop}

theorem Needed.of_mem {r : α} (h : r ∈ targets) : Needed deps targets r :=
  ⟨r, h, .refl⟩

theorem Needed.dep (h : Needed deps targets a) (hc : c ∈ deps a) : Needed deps targets c := by
  obtain ⟨r, hr, hpath⟩ := h
  exact ⟨r, hr, ReflTransGen.head hc hpath⟩

theorem Needed.ancestor (h : Needed deps targets a) (hc : ReflTransGen (Precedes deps) c a) :
    Needed deps targets c := by
  obtain ⟨r, hr, hpath⟩ := h
  exact ⟨r, hr, hc.trans hpath⟩

/-- A set that holds the targets and is closed under `deps` holds everything needed. -/
theorem Needed.closed (hroots : ∀ r ∈ targets, P r) (hdeps : ∀ b, P b → ∀ a ∈ deps b, P a)
    {a : α} (h : Needed deps targets a) : P a := by
  obtain ⟨r, hr, hpath⟩ := h
  induction hpath using ReflTransGen.head_induction_on with
  | refl => exact hroots r hr
  | head hab _ ih => exact hdeps _ ih _ hab

/-- Inside a closed part where every dependency is also one of `deps'`, paths are paths of `deps'`. -/
theorem transGen_mono_on {deps' : α → List α} (hsub : ∀ b, P b → ∀ a ∈ deps b, a ∈ deps' b ∧ P a)
    (hb : P b) (h : TransGen (Precedes deps) a b) : TransGen (Precedes deps') a b ∧ P a := by
  induction h using TransGen.head_induction_on with
  | single h₁ => exact ⟨.single (hsub b hb _ h₁).1, (hsub b hb _ h₁).2⟩
  | head h₁ _ ih => exact ⟨.head (hsub _ ih.2 _ h₁).1 ih.1, (hsub _ ih.2 _ h₁).2⟩

/-- Inside a closed part where some measure grows along dependencies there is no cycle. -/
theorem no_cycle_of_measure (μ : α → Nat) (hgrow : ∀ b, P b → ∀ a ∈ deps b, P a ∧ μ a < μ b)
    (hb : P b) : ¬ TransGen (Precedes deps) b b := by
  have hlt : ∀ a, TransGen (Precedes deps) a b → P a ∧ μ a < μ b := by
    intro a h
    induction h using TransGen.head_induction_on with
    | single h₁ => exact hgrow b hb _ h₁
    | head h₁ _ ih =>
      obtain ⟨ha, hac⟩ := hgrow _ ih.1 _ h₁
      exact ⟨ha, Nat.lt_trans hac ih.2⟩
  intro h
  exact Nat.lt_irrefl _ (hlt b h).2

/-- An edge with no way back lies on no closed walk: what closes a walk of `R`
and `S` edges, where `S` edges have no way back, is a walk of `R` edges. -/
theorem transGen_of_no_return {R S : α → α → Prop}
    (hS : ∀ a b, S a b → ¬ ReflTransGen (fun a b => R a b ∨ S a b) b a)
    (h : TransGen (fun a b => R a b ∨ S a b) a b)
    (hback : ReflTransGen (fun a b => R a b ∨ S a b) b a) : TransGen R a b := by
  induction h with
  | single hab =>
    rcases hab with hab | hab
    · exact .single hab
    · exact absurd hback (hS _ _ hab)
  | @tail b c hab hbc ih =>
    have hR : R b c := by
      rcases hbc with hbc | hbc
      · exact hbc
      · exact absurd (hback.trans hab.to_reflTransGen) (hS _ _ hbc)
    exact (ih (.head hbc hback)).tail hR

/-! ## Schedules -/

/-- `a` occurs in `l` somewhere before an occurrence of `b`. -/
def Before (l : List α) (a b : α) : Prop := [a, b].Sublist l

instance [DecidableEq α] (l : List α) (a b : α) : Decidable (Before l a b) :=
  inferInstanceAs (Decidable ([a, b].Sublist l))

/-- Every vertex of `l` comes after everything it waits for. -/
def Schedules (deps : α → List α) (l : List α) : Prop :=
  ∀ p b q, l = p ++ b :: q → ∀ a ∈ deps b, a ∈ p

theorem before_of_split {p q : List α} (hl : l = p ++ b :: q) (ha : a ∈ p) : Before l a b := by
  subst hl
  have h : ([a] ++ [b]).Sublist (p ++ b :: q) :=
    (singleton_sublist.mpr ha).append (singleton_sublist.mpr mem_cons_self)
  exact h

theorem Before.mem_left (h : Before l a b) : a ∈ l :=
  h.subset mem_cons_self

theorem Before.mem_right (h : Before l a b) : b ∈ l :=
  h.subset (mem_cons_of_mem _ mem_cons_self)

theorem Before.of_sublist {l' : List α} (h : Before l a b) (hl : l.Sublist l') : Before l' a b :=
  List.Sublist.trans h hl

/-- In a list without repeats, what comes before `b` is what any split at `b` has on its left. -/
theorem Before.mem_of_split {p q : List α} (h : Before l a b) (hnd : l.Nodup) (hl : l = p ++ b :: q) :
    a ∈ p := by
  subst hl
  unfold Before at h
  rw [show ([a, b] : List α) = [a] ++ [b] from rfl, append_sublist_iff] at h
  obtain ⟨l₁, l₂, hsplit, ha, hb⟩ := h
  have ha' : a ∈ l₁ := singleton_sublist.mp ha
  have hb' : b ∈ l₂ := singleton_sublist.mp hb
  rcases append_eq_append_iff.mp hsplit with ⟨c, hl₁, -⟩ | ⟨c, hp, -⟩
  · -- `b` would occur in both halves
    cases c with
    | nil =>
      rw [append_nil] at hl₁
      exact hl₁ ▸ ha'
    | cons d c =>
      exfalso
      have hmem : b ∈ l₁ := by
        rw [hl₁] at hsplit ⊢
        simp only [List.append_assoc, cons_append, append_cancel_left_eq,
          List.cons.injEq] at hsplit
        rw [hsplit.1]
        simp
      have hnd' : (l₁ ++ l₂).Nodup := hsplit ▸ hnd
      exact (disjoint_of_nodup_append hnd') hmem hb'
  · rw [hp]
    exact mem_append_left _ ha'

theorem Before.irrefl (hnd : l.Nodup) : ¬ Before l a a := by
  intro h
  have := List.Nodup.sublist h hnd
  simp at this

theorem Before.asymm (hnd : l.Nodup) (h : Before l a b) : ¬ Before l b a := by
  intro h'
  obtain ⟨p, q, hl⟩ := append_of_mem h.mem_right
  have ha : a ∈ p := h.mem_of_split hnd hl
  obtain ⟨p₁, p₂, rfl⟩ := append_of_mem ha
  have hb : b ∈ p₁ := h'.mem_of_split hnd (q := p₂ ++ b :: q) (by rw [hl]; simp)
  rw [hl] at hnd
  have := disjoint_of_nodup_append hnd (mem_append_left _ hb)
  simp at this

theorem Before.trans (hnd : l.Nodup) (h : Before l a b) (h' : Before l b c) : Before l a c := by
  obtain ⟨p, q, hl⟩ := append_of_mem h'.mem_right
  have hb : b ∈ p := h'.mem_of_split hnd hl
  obtain ⟨p₁, p₂, rfl⟩ := append_of_mem hb
  have ha : a ∈ p₁ := h.mem_of_split hnd (q := p₂ ++ c :: q) (by rw [hl]; simp)
  exact before_of_split hl (mem_append_left _ ha)

/-- Two different members of a list come in one order or the other. -/
theorem before_or_before (ha : a ∈ l) (hb : b ∈ l) (hne : a ≠ b) : Before l a b ∨ Before l b a := by
  obtain ⟨p, q, rfl⟩ := append_of_mem hb
  rcases mem_append.mp ha with ha | ha
  · exact .inl (before_of_split rfl ha)
  · right
    have ha : a ∈ q := (mem_cons.mp ha).resolve_left hne
    obtain ⟨q₁, q₂, rfl⟩ := append_of_mem ha
    exact before_of_split (p := p ++ b :: q₁) (q := q₂) (by simp) (by simp)

/-- What is left of a list keeps its order. -/
theorem Before.of_sublist_of_mem {l' : List α} (h : Before l a b) (hnd : l.Nodup)
    (hsub : l'.Sublist l) (ha : a ∈ l') (hb : b ∈ l') : Before l' a b := by
  have hne : a ≠ b := by
    rintro rfl
    exact Before.irrefl hnd h
  rcases before_or_before ha hb hne with hab | hba
  · exact hab
  · exact absurd (hba.of_sublist hsub) (h.asymm hnd)

theorem schedules_nil (deps : α → List α) : Schedules deps [] := by
  intro p b q h
  simp at h

variable (h : Schedules deps l)

include h

theorem Schedules.snoc (hb : ∀ a ∈ deps b, a ∈ l) : Schedules deps (l ++ [b]) := by
  intro p c q hl
  rcases eq_nil_or_concat q with rfl | ⟨q', d, rfl⟩
  · obtain ⟨rfl, hcb⟩ := append_inj' hl rfl
    cases hcb
    exact hb
  · rw [concat_eq_append, ← cons_append, ← List.append_assoc] at hl
    obtain ⟨rfl, -⟩ := append_inj' hl rfl
    exact h p c q' rfl

theorem Schedules.before (hb : b ∈ l) (hab : a ∈ deps b) : Before l a b := by
  obtain ⟨p, q, hl⟩ := append_of_mem hb
  exact before_of_split hl (h p b q hl a hab)

omit h in
theorem Schedules.of_before (hnd : l.Nodup) (h : ∀ b ∈ l, ∀ a ∈ deps b, Before l a b) :
    Schedules deps l := by
  intro p b q hl a hab
  exact (h b (by simp [hl]) a hab).mem_of_split hnd hl

/-- Induction along a schedule: each vertex may use the claim for what it waits for. -/
theorem Schedules.induction (hstep : ∀ b ∈ l, (∀ a ∈ deps b, P a) → P b) : ∀ b ∈ l, P b := by
  have hrun : ∀ done rest, l = done ++ rest → ∀ b ∈ done, P b := by
    intro done
    induction done using List.reverseRecOn with
    | nil => intro _ _ b hb; cases hb
    | append_singleton done c ih =>
      intro rest hsplit b hb
      have hsplit' : l = done ++ c :: rest := by rw [hsplit]; simp
      rcases mem_append.mp hb with hb | hb
      · exact ih (c :: rest) hsplit' b hb
      · rw [mem_singleton.mp hb]
        exact hstep c (by simp [hsplit']) fun a ha =>
          ih (c :: rest) hsplit' a (h done c rest hsplit' a ha)
  exact hrun l [] (append_nil l).symm

theorem Schedules.mem (hb : b ∈ l) (hab : a ∈ deps b) : a ∈ l :=
  (h.before hb hab).mem_left

/-- Precedence of any length is kept by a schedule. -/
theorem Schedules.before_of_transGen (hnd : l.Nodup) (hb : b ∈ l)
    (hab : TransGen (Precedes deps) a b) : Before l a b := by
  induction hab using TransGen.head_induction_on with
  | single h₁ => exact h.before hb h₁
  | head h₁ _ ih => exact (h.before ih.mem_left h₁).trans hnd ih

/-- What has a schedule has no cycle. -/
theorem Schedules.no_cycle (hnd : l.Nodup) (ha : a ∈ l) : ¬ TransGen (Precedes deps) a a :=
  fun hcyc => Before.irrefl hnd (h.before_of_transGen hnd ha hcyc)

/-- A schedule's positions grow along dependencies. -/
theorem Schedules.idxOf_lt [DecidableEq α] (hnd : l.Nodup) (hb : b ∈ l) (hab : a ∈ deps b) :
    l.idxOf a < l.idxOf b := by
  obtain ⟨p, q, hl⟩ := append_of_mem hb
  have ha : a ∈ p := h p b q hl a hab
  have hbp : b ∉ p := fun hmem => by
    rw [hl] at hnd
    exact disjoint_of_nodup_append hnd hmem mem_cons_self
  rw [hl, idxOf_append_of_mem ha, idxOf_append_of_notMem hbp]
  have := idxOf_lt_length_of_mem ha
  omega

/-- Fewer dependencies are easier to schedule. -/
theorem Schedules.mono {deps' : α → List α} (hsub : ∀ b ∈ l, ∀ a ∈ deps' b, a ∈ deps b) :
    Schedules deps' l := by
  intro p b q hl a ha
  exact h p b q hl a (hsub b (by simp [hl]) a ha)

/-! ## Vertices with nothing left to wait for -/

omit h

/-- A nonempty part of an acyclic graph has a vertex that waits for nothing inside that part. -/
theorem exists_source (l : List α) (hne : l ≠ []) (hacyc : ∀ a ∈ l, ¬ TransGen (Precedes deps) a a) :
    ∃ m ∈ l, ∀ a ∈ l, a ∉ deps m := by
  let R : {x // x ∈ l} → {x // x ∈ l} → Prop := fun x y => TransGen (Precedes deps) x.1 y.1
  have : Finite {x // x ∈ l} := (finite_toSet l).to_subtype
  have : IsTrans {x // x ∈ l} R := ⟨fun _ _ _ h h' => h.trans h'⟩
  have : Std.Irrefl R := ⟨fun x h => hacyc x.1 x.2 h⟩
  have hwf : WellFounded R := Finite.wellFounded_of_trans_of_irrefl R
  obtain ⟨x, hx⟩ := exists_mem_of_ne_nil l hne
  obtain ⟨m, -, hmin⟩ := hwf.has_min Set.univ ⟨⟨x, hx⟩, trivial⟩
  exact ⟨m.1, m.2, fun a ha hdep => hmin ⟨a, ha⟩ trivial (TransGen.single hdep)⟩

end Fuel.DepGraph
