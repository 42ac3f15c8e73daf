import Mathlib.Data.List.Basic

/-!
# Lists kept in shared pages

A store keeps many growing lists in pages of `bs` cells: a page table says
which page holds the `i`-th stretch of a list, a page may stand in several
tables, and some may be away (`none`). `Keeps` says that the pages there are
hold the lists, and that no page in two places can still be written: it is
full in both. The steps of such a store — a page leaves, the next cell is
written, the first pages are shared with an empty list, pages come back —
each keep it; copying before a write never becomes necessary.
-/

namespace Fuel.Paging

open List Function

variable {S P V : Type}

/-- The pages hold the lists, and a page in two places is full. -/
structure Keeps (bs : Nat) (page : S → Nat → Option P) (cells : P → Nat → V)
    (vals : S → List V) : Prop where
  holds : ∀ s i p, page s i = some p → ∀ j, j < bs → i * bs + j < (vals s).length →
    (vals s)[i * bs + j]? = some (cells p j)
  full : ∀ s i s' i' p, page s i = some p → page s' i' = some p → (s, i) ≠ (s', i') →
    (i + 1) * bs ≤ (vals s).length

variable {bs : Nat} {page page' : S → Nat → Option P} {cells cells' : P → Nat → V}
  {vals vals' : S → List V}

theorem Keeps.empty (bs : Nat) (cells : P → Nat → V) (vals : S → List V) :
    Keeps bs (fun _ _ => none) cells vals where
  holds := by
    intro s i p hp
    cases hp
  full := by
    intro s i s' i' p hp
    cases hp

/-- No list has the page. -/
def Fresh (page : S → Nat → Option P) (p : P) : Prop := ∀ s i, page s i ≠ some p

/-- Where the next cell of a list goes: to its last page while that has room,
or to a page nobody has. -/
structure Next (bs : Nat) (page page' : S → Nat → Option P) (vals : S → List V) (s : S)
    (p : P) : Prop where
  here : page' s ((vals s).length / bs) = some p
  others : ∀ s' i', (s', i') ≠ (s, (vals s).length / bs) → page' s' i' = page s' i'
  writable : page s ((vals s).length / bs) = some p ∨ (vals s).length % bs = 0 ∧ Fresh page p

theorem lt_succ_div_mul (hbs : 0 < bs) (n : Nat) : n < (n / bs + 1) * bs := by
  have := Nat.lt_mul_div_succ n hbs
  rwa [Nat.mul_comm] at this

variable (h : Keeps bs page cells vals)

include h

/-- Pages leave; lists without pages are of no concern. -/
theorem Keeps.drop (hsub : ∀ s i p, page' s i = some p → page s i = some p)
    (hvals : ∀ s i p, page' s i = some p → vals' s = vals s) :
    Keeps bs page' cells vals' where
  holds := by
    intro s i p hp j hj hlt
    rw [hvals s i p hp] at hlt ⊢
    exact h.holds s i p (hsub s i p hp) j hj hlt
  full := by
    intro s i s' i' p hp hp' hne
    rw [hvals s i p hp]
    exact h.full s i s' i' p (hsub s i p hp) (hsub s' i' p hp') hne

/-- The page of the next cell stands in no other place. -/
theorem Next.alone {s : S} {p : P} (hn : Next bs page page' vals s p) (hbs : 0 < bs)
    {s' : S} {i' : Nat} (hp : page' s' i' = some p) : (s', i') = (s, (vals s).length / bs) := by
  by_contra hne
  rw [hn.others s' i' hne] at hp
  rcases hn.writable with hold | ⟨-, hfresh⟩
  · have hfull := h.full _ _ _ _ _ hold hp (Ne.symm hne)
    have := lt_succ_div_mul hbs (vals s).length
    omega
  · exact hfresh s' i' hp

/-- What the page of the next cell holds already. -/
theorem Next.holds {s : S} {p : P} (hn : Next bs page page' vals s p) {j : Nat}
    (hj : j < bs) (hlt : (vals s).length / bs * bs + j < (vals s).length) :
    (vals s)[(vals s).length / bs * bs + j]? = some (cells p j) := by
  rcases hn.writable with hp | ⟨hzero, -⟩
  · exact h.holds _ _ _ hp j hj hlt
  · have hpos : (vals s).length / bs * bs + (vals s).length % bs = (vals s).length :=
      Nat.div_add_mod' _ _
    omega

section Write

variable [DecidableEq S]

/-- **Writing** the next cell of one list. -/
theorem Keeps.write [DecidableEq P] (hbs : 0 < bs) {s : S} {p : P}
    (hn : Next bs page page' vals s p) (x : V) :
    Keeps bs page'
      (Function.update cells p (Function.update (cells p) ((vals s).length % bs) x))
      (Function.update vals s (vals s ++ [x])) where
  holds := by
    intro s' i q hq j hj hlt
    by_cases hqp : q = p
    · -- the written page: the new cell, or one that was there
      subst hqp
      obtain ⟨rfl, rfl⟩ := Prod.mk.inj (hn.alone h hbs hq)
      rw [update_self] at hlt ⊢
      rw [update_self]
      have hpos : (vals s').length / bs * bs + (vals s').length % bs = (vals s').length :=
        Nat.div_add_mod' _ _
      by_cases hjn : j = (vals s').length % bs
      · subst hjn
        rw [update_self, hpos, getElem?_append_right (Nat.le_refl _), Nat.sub_self]
        rfl
      · rw [update_of_ne hjn]
        rw [length_append, length_singleton] at hlt
        have hold : (vals s').length / bs * bs + j < (vals s').length := by omega
        rw [getElem?_append_left hold]
        exact hn.holds h hj hold
    · -- another page: as it was, and below the new cell
      have hne : (s', i) ≠ (s, (vals s).length / bs) := by
        intro heq
        obtain ⟨rfl, rfl⟩ := Prod.mk.inj heq
        rw [hn.here, Option.some.injEq] at hq
        exact hqp hq.symm
      rw [hn.others s' i hne] at hq
      rw [update_of_ne hqp]
      by_cases hs : s' = s
      · subst hs
        rw [update_self, length_append, length_singleton] at hlt
        have hi : i ≠ (vals s').length / bs := fun hi => hne (by rw [hi])
        have hold : i * bs + j < (vals s').length := by
          by_contra hge
          have heq : i * bs + j = (vals s').length := by omega
          apply hi
          rw [← heq, Nat.mul_comm, Nat.mul_add_div hbs, Nat.div_eq_of_lt hj, Nat.add_zero]
        rw [update_self, getElem?_append_left hold]
        exact h.holds _ _ _ hq j hj hold
      · rw [update_of_ne hs] at hlt ⊢
        exact h.holds _ _ _ hq j hj hlt
  full := by
    intro s₁ i₁ s₂ i₂ q h₁ h₂ hne
    by_cases hqp : q = p
    · subst hqp
      exact absurd ((hn.alone h hbs h₁).trans (hn.alone h hbs h₂).symm) hne
    have hold : ∀ s' i', page' s' i' = some q → page s' i' = some q := by
      intro s' i' hq
      rw [← hn.others s' i', hq]
      intro heq
      obtain ⟨rfl, rfl⟩ := Prod.mk.inj heq
      rw [hn.here, Option.some.injEq] at hq
      exact hqp hq.symm
    have hfull := h.full s₁ i₁ s₂ i₂ q (hold _ _ h₁) (hold _ _ h₂) hne
    by_cases hs : s₁ = s
    · subst hs
      rw [update_self, length_append]
      omega
    · rw [update_of_ne hs]
      exact hfull

/-- **Sharing** the first `k` pages of one list with an empty one. -/
theorem Keeps.share {src dst : S} {k : Nat} (hfull : k * bs ≤ (vals src).length)
    (hempty : ∀ i, page dst i = none)
    (hothers : ∀ s i, s ≠ dst → page' s i = page s i)
    (hdst : ∀ i p, page' dst i = some p → i < k ∧ page src i = some p) :
    Keeps bs page' cells (Function.update vals dst ((vals src).take (k * bs))) := by
  have hupto : ∀ i, i < k → (i + 1) * bs ≤ k * bs := fun i hi => Nat.mul_le_mul_right bs hi
  have hlen : ((vals src).take (k * bs)).length = k * bs := by
    rw [length_take]
    omega
  -- a place in the new tables is a place in the old ones with the same page
  have hplace : ∀ s i p, page' s i = some p →
      (s ≠ dst ∧ page s i = some p) ∨ (s = dst ∧ i < k ∧ page src i = some p) := by
    intro s i p hp
    by_cases hs : s = dst
    · subst hs
      exact .inr ⟨rfl, hdst i p hp⟩
    · rw [hothers s i hs] at hp
      exact .inl ⟨hs, hp⟩
  have hsrc : ∀ i p, page src i = some p → src ≠ dst := by
    intro i p hp hs
    rw [hs, hempty i] at hp
    cases hp
  refine ⟨?_, ?_⟩
  · intro s i p hp j hj hlt
    rcases hplace s i p hp with ⟨hs, hold⟩ | ⟨rfl, hi, hold⟩
    · rw [update_of_ne hs] at hlt ⊢
      exact h.holds s i p hold j hj hlt
    · rw [update_self] at hlt ⊢
      rw [hlen] at hlt
      rw [getElem?_take_of_lt hlt]
      exact h.holds src i p hold j hj (by omega)
  intro s₁ i₁ s₂ i₂ p h₁ h₂ hne
  rcases hplace s₁ i₁ p h₁ with ⟨hs₁, hold₁⟩ | ⟨rfl, hi₁, hold₁⟩
  · rw [update_of_ne hs₁]
    rcases hplace s₂ i₂ p h₂ with ⟨hs₂, hold₂⟩ | ⟨rfl, hi₂, hold₂⟩
    · exact h.full s₁ i₁ s₂ i₂ p hold₁ hold₂ hne
    · by_cases hsame : (s₁, i₁) = (src, i₂)
      · obtain ⟨rfl, rfl⟩ := Prod.mk.inj hsame
        exact Nat.le_trans (hupto i₁ hi₂) hfull
      · exact h.full s₁ i₁ src i₂ p hold₁ hold₂ hsame
  · rw [update_self, hlen]
    exact hupto i₁ hi₁

end Write

/-- **Coming back**: pages with the cells of their stretch, that nobody has. -/
theorem Keeps.refill {s : S} (hothers : ∀ s' i, s' ≠ s → page' s' i = page s' i)
    (hback : ∀ i p, page' s i = some p → page s i = some p ∨
      Fresh page p ∧ (∀ i', page' s i' = some p → i' = i) ∧
        ∀ j, j < bs → i * bs + j < (vals s).length →
          (vals s)[i * bs + j]? = some (cells' p j))
    (hcells : ∀ q, ¬ Fresh page q → cells' q = cells q) : Keeps bs page' cells' vals := by
  have hplace : ∀ s' i p, page' s' i = some p → page s' i = some p ∨ s' = s ∧ Fresh page p := by
    intro s' i p hp
    by_cases hs : s' = s
    · subst hs
      rcases hback i p hp with hold | ⟨hfresh, -⟩
      · exact .inl hold
      · exact .inr ⟨rfl, hfresh⟩
    · rw [hothers s' i hs] at hp
      exact .inl hp
  refine ⟨?_, ?_⟩
  · intro s' i p hp j hj hlt
    rcases hplace s' i p hp with hold | ⟨rfl, hfresh⟩
    · rw [hcells p fun hfresh => hfresh s' i hold]
      exact h.holds s' i p hold j hj hlt
    · rcases hback i p hp with hold | ⟨-, -, hcell⟩
      · exact absurd hold (hfresh _ _)
      · exact hcell j hj hlt
  intro s₁ i₁ s₂ i₂ p h₁ h₂ hne
  rcases hplace s₁ i₁ p h₁ with hold₁ | ⟨rfl, hfresh⟩
  · rcases hplace s₂ i₂ p h₂ with hold₂ | ⟨-, hfresh⟩
    · exact h.full s₁ i₁ s₂ i₂ p hold₁ hold₂ hne
    · exact absurd hold₁ (hfresh _ _)
  · rcases hplace s₂ i₂ p h₂ with hold₂ | ⟨rfl, -⟩
    · exact absurd hold₂ (hfresh _ _)
    · rcases hback i₂ p h₂ with hold₂ | ⟨-, huniq, -⟩
      · exact absurd hold₂ (hfresh _ _)
      · exact absurd (by rw [huniq i₁ h₁]) hne

/-- **Reading** through a table that has every page of the list. -/
theorem Keeps.read (hbs : 0 < bs) {s : S} {row : Nat → P}
    (hrow : ∀ i, i * bs < (vals s).length → page s i = some (row i)) :
    (List.range (vals s).length).map (fun n => cells (row (n / bs)) (n % bs)) = vals s := by
  apply ext_getElem?
  intro n
  by_cases hn : n < (vals s).length
  · have hpos : n / bs * bs + n % bs = n := Nat.div_add_mod' _ _
    have hpage := hrow (n / bs) (by omega)
    have hcell := h.holds s _ _ hpage (n % bs) (Nat.mod_lt _ hbs) (by omega)
    rw [hpos] at hcell
    rw [hcell, getElem?_map, getElem?_range hn]
    rfl
  · rw [getElem?_eq_none (by simpa using hn), getElem?_eq_none (by omega)]

end Fuel.Paging
