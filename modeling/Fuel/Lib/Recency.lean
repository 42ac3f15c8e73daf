import Mathlib.Data.Finset.Card

/-!
# Recency of use, read off a history

A least-recently-used store decides by time stamps; what it should decide
by is the history of its calls. This file says the second without the
first: what was last stored under a key, and which other keys have been
used since that key's last use. A store whose stamps *rank* its keys — the
keys stamped later are exactly the keys used since — can then be compared
with the history one call at a time.

Histories are lists of events, the latest first.
-/

namespace Fuel.Recency

open List Function

variable {K V : Type}

/-- What a call did to the store. -/
inductive Event (K V : Type) where
  | stored (k : K) (v : V)
  | hit (k : K)
  | cleared
  deriving DecidableEq, Repr

variable [DecidableEq K]

/-- What the latest store under `k` left there, unless the store has been
cleared since. -/
def lastStored (k : K) : List (Event K V) → Option V
  | [] => none
  | .stored k' v :: past => if k' = k then some v else lastStored k past
  | .hit _ :: past => lastStored k past
  | .cleared :: _ => none

/-- The other keys used since the last use of `k`. -/
def usedSince (k : K) : List (Event K V) → Finset K
  | [] => ∅
  | .stored k' _ :: past => if k' = k then ∅ else insert k' (usedSince k past)
  | .hit k' :: past => if k' = k then ∅ else insert k' (usedSince k past)
  | .cleared :: past => usedSince k past

/-- What a store that remembers the `cap` latest used keys holds under `k`. -/
def held (cap : Nat) (k : K) (past : List (Event K V)) : Option V :=
  if (usedSince k past).card < cap then lastStored k past else none

/-- The number of uses since the store was last cleared. -/
def useCount : List (Event K V) → Nat
  | [] => 0
  | .stored _ _ :: past => useCount past + 1
  | .hit _ :: past => useCount past + 1
  | .cleared :: _ => 0

/-- The event is a use of `k`. -/
def Event.Uses (k : K) (e : Event K V) : Prop := e = .hit k ∨ ∃ v, e = .stored k v

variable {k k₀ : K} {e : Event K V}

theorem Event.Uses.usedSince_self (h : e.Uses k) (past : List (Event K V)) :
    usedSince k (e :: past) = ∅ := by
  rcases h with rfl | ⟨v, rfl⟩ <;> simp [usedSince]

theorem Event.Uses.usedSince_ne {k' : K} (h : e.Uses k) (hne : k ≠ k') (past : List (Event K V)) :
    usedSince k' (e :: past) = insert k (usedSince k' past) := by
  rcases h with rfl | ⟨v, rfl⟩ <;> simp [usedSince, hne]

theorem Event.Uses.lastStored_ne {k' : K} (h : e.Uses k) (hne : k ≠ k') (past : List (Event K V)) :
    lastStored k' (e :: past) = lastStored k' past := by
  rcases h with rfl | ⟨v, rfl⟩ <;> simp [lastStored, hne]

omit [DecidableEq K] in
theorem Event.Uses.useCount_cons (h : e.Uses k) (past : List (Event K V)) :
    useCount (e :: past) = useCount past + 1 := by
  rcases h with rfl | ⟨v, rfl⟩ <;> rfl

/-! ## Stamps that rank the keys -/

/-- The stamped entries `look` hold what was last stored, and order their
keys by last use; no stamp is later than `now`. -/
structure Ranks (past : List (Event K V)) (look : K → Option (V × Nat)) (now : Nat) : Prop where
  holds : ∀ k v t, look k = some (v, t) → lastStored k past = some v
  later : ∀ k v t, look k = some (v, t) → ∀ k',
    k' ∈ usedSince k past ↔ ∃ v' t', look k' = some (v', t') ∧ t < t'
  distinct : ∀ k k' v v' t, look k = some (v, t) → look k' = some (v', t) → k = k'
  le_now : ∀ k v t, look k = some (v, t) → t ≤ now

/-- A key that is not there was never stored, or `cap` other keys have been
used since. -/
def Forgets (cap : Nat) (past : List (Event K V)) (look : K → Option (V × Nat)) : Prop :=
  ∀ k, look k = none → lastStored k past = none ∨ cap ≤ (usedSince k past).card

theorem Ranks.of_empty (past : List (Event K V)) : Ranks past (fun _ => none) 0 where
  holds := by
    intro k v t h
    cases h
  later := by
    intro k v t h
    cases h
  distinct := by
    intro k k' v v' t h
    cases h
  le_now := by
    intro k v t h
    cases h

theorem Forgets.of_nil (cap : Nat) : Forgets cap ([] : List (Event K V)) fun _ => none :=
  fun _ _ => Or.inl rfl

theorem Forgets.of_cleared (cap : Nat) (past : List (Event K V)) :
    Forgets cap (.cleared :: past) fun _ => none :=
  fun _ _ => Or.inl rfl

variable {past : List (Event K V)} {look : K → Option (V × Nat)} {now cap : Nat}

theorem update_some_eq_some {x y : V × Nat} (h : Function.update look k₀ (some y) k = some x) :
    k = k₀ ∧ x = y ∨ k ≠ k₀ ∧ look k = some x := by
  by_cases hk : k = k₀
  · subst hk
    rw [update_self, Option.some.injEq] at h
    exact .inl ⟨rfl, h.symm⟩
  · rw [update_of_ne hk] at h
    exact .inr ⟨hk, h⟩

/-- A use stamps its key later than every other. -/
theorem Ranks.use (h : Ranks past look now) (he : e.Uses k) {v : V}
    (hv : lastStored k (e :: past) = some v) :
    Ranks (e :: past) (Function.update look k (some (v, now + 1))) (now + 1) where
  holds := by
    intro k₁ v₁ t₁ h₁
    rcases update_some_eq_some h₁ with ⟨rfl, heq⟩ | ⟨hk, h₁⟩
    · cases heq
      exact hv
    · rw [he.lastStored_ne (Ne.symm hk)]
      exact h.holds _ _ _ h₁
  later := by
    intro k₁ v₁ t₁ h₁ k₂
    rcases update_some_eq_some h₁ with ⟨rfl, heq⟩ | ⟨hk, h₁⟩
    · -- nothing has been used since, and nothing is stamped later
      cases heq
      rw [he.usedSince_self]
      constructor
      · intro hmem
        simp at hmem
      rintro ⟨v₂, t₂, h₂, hlt⟩
      rcases update_some_eq_some h₂ with ⟨-, heq₂⟩ | ⟨-, h₂⟩
      · cases heq₂
        omega
      · have := h.le_now _ _ _ h₂
        omega
    · rw [he.usedSince_ne (Ne.symm hk), Finset.mem_insert]
      have hle := h.le_now _ _ _ h₁
      by_cases hk₂ : k₂ = k
      · subst hk₂
        rw [update_self]
        constructor
        · intro _
          exact ⟨v, now + 1, rfl, by omega⟩
        · intro _
          exact Or.inl rfl
      · rw [update_of_ne hk₂, ← h.later _ _ _ h₁ k₂]
        simp [hk₂]
  distinct := by
    intro k₁ k₂ v₁ v₂ t h₁ h₂
    rcases update_some_eq_some h₁ with ⟨hk₁, heq₁⟩ | ⟨-, h₁⟩ <;>
      rcases update_some_eq_some h₂ with ⟨hk₂, heq₂⟩ | ⟨-, h₂⟩
    · rw [hk₁, hk₂]
    · cases heq₁
      exact absurd (h.le_now _ _ _ h₂) (Nat.not_succ_le_self _)
    · cases heq₂
      exact absurd (h.le_now _ _ _ h₁) (Nat.not_succ_le_self _)
    · exact h.distinct _ _ _ _ _ h₁ h₂
  le_now := by
    intro k₁ v₁ t₁ h₁
    rcases update_some_eq_some h₁ with ⟨-, heq⟩ | ⟨-, h₁⟩
    · cases heq
      exact Nat.le_refl _
    · exact Nat.le_succ_of_le (h.le_now _ _ _ h₁)

theorem update_none_eq_some {x : V × Nat} (h : Function.update look k₀ none k = some x) :
    k ≠ k₀ ∧ look k = some x := by
  by_cases hk : k = k₀
  · subst hk
    simp at h
  · rw [update_of_ne hk] at h
    exact ⟨hk, h⟩

/-- Taking out the key with the earliest stamp keeps the ranking. -/
theorem Ranks.drop (h : Ranks past look now) {v₀ : V} {t₀ : Nat} (h₀ : look k₀ = some (v₀, t₀))
    (hmin : ∀ k v t, look k = some (v, t) → t₀ ≤ t) :
    Ranks past (Function.update look k₀ none) now where
  holds := by
    intro k v t hk
    exact h.holds _ _ _ (update_none_eq_some hk).2
  later := by
    intro k v t hk k'
    have hlook := (update_none_eq_some hk).2
    rw [h.later _ _ _ hlook k']
    by_cases hk' : k' = k₀
    · -- the key taken out was stamped before `k`
      subst hk'
      have hle := hmin _ _ _ hlook
      rw [update_self, h₀]
      constructor
      · rintro ⟨v', t', ht', hlt⟩
        cases ht'
        omega
      · rintro ⟨v', t', ht', -⟩
        cases ht'
    · rw [update_of_ne hk']
  distinct := by
    intro k k' v v' t hk hk'
    exact h.distinct _ _ _ _ _ (update_none_eq_some hk).2
      (update_none_eq_some hk').2
  le_now := by
    intro k v t hk
    exact h.le_now _ _ _ (update_none_eq_some hk).2

theorem Forgets.use (h : Forgets cap past look) (he : e.Uses k) (x : V × Nat) :
    Forgets cap (e :: past) (Function.update look k (some x)) := by
  intro k' hk'
  have hne : k' ≠ k := by
    intro heq
    subst heq
    simp at hk'
  rw [update_of_ne hne] at hk'
  rw [he.lastStored_ne (Ne.symm hne), he.usedSince_ne (Ne.symm hne)]
  rcases h k' hk' with hnone | hcap
  · exact Or.inl hnone
  · exact Or.inr (le_trans hcap (Finset.card_le_card (Finset.subset_insert _ _)))

/-- Making room for a new key: the key taken out has then been overtaken by
`cap` others, the new one among them. -/
theorem Forgets.drop_use (h : Forgets cap past look) (he : e.Uses k) (hne : k ≠ k₀)
    (hnew : k ∉ usedSince k₀ past) (hcap : cap ≤ (usedSince k₀ past).card + 1) (x : V × Nat) :
    Forgets cap (e :: past)
      (Function.update (Function.update look k₀ none) k (some x)) := by
  intro k' hk'
  have hne' : k' ≠ k := by
    intro heq
    subst heq
    simp at hk'
  rw [update_of_ne hne'] at hk'
  by_cases hk₀ : k' = k₀
  · subst hk₀
    rw [he.usedSince_ne hne, Finset.card_insert_of_notMem hnew]
    exact Or.inr hcap
  · rw [update_of_ne hk₀] at hk'
    rw [he.lastStored_ne (Ne.symm hne'), he.usedSince_ne (Ne.symm hne')]
    rcases h k' hk' with hnone | hle
    · exact Or.inl hnone
    · exact Or.inr (le_trans hle (Finset.card_le_card (Finset.subset_insert _ _)))

section Present

variable {s : Finset K} (hs : ∀ k, k ∈ s ↔ (look k).isSome)

include hs

variable (h : Ranks past look now)

include h

theorem Ranks.usedSince_subset {k : K} {v : V} {t : Nat} (hk : look k = some (v, t)) :
    usedSince k past ⊆ s.erase k := by
  intro k' hk'
  obtain ⟨v', t', h', hlt⟩ := (h.later _ _ _ hk k').mp hk'
  rw [Finset.mem_erase, hs, h']
  refine ⟨?_, rfl⟩
  intro heq
  subst heq
  rw [hk] at h'
  cases h'
  omega

/-- Every other key has been used since the one with the earliest stamp. -/
theorem Ranks.usedSince_earliest {k₀ : K} {v₀ : V} {t₀ : Nat} (h₀ : look k₀ = some (v₀, t₀))
    (hmin : ∀ k v t, look k = some (v, t) → t₀ ≤ t) : usedSince k₀ past = s.erase k₀ := by
  apply Finset.Subset.antisymm (h.usedSince_subset hs h₀)
  intro k hk
  obtain ⟨hne, hmem⟩ := Finset.mem_erase.mp hk
  obtain ⟨⟨v, t⟩, hlook⟩ := Option.isSome_iff_exists.mp ((hs k).mp hmem)
  refine (h.later _ _ _ h₀ k).mpr ⟨v, t, hlook, ?_⟩
  have hle := hmin _ _ _ hlook
  have hnet : t₀ ≠ t := by
    intro heq
    subst heq
    exact hne (h.distinct _ _ _ _ _ hlook h₀)
  omega

/-- **The store answers from its history.** -/
theorem Ranks.held_eq (hf : Forgets cap past look) (hcap : s.card ≤ cap) (k : K) :
    held cap k past = (look k).map Prod.fst := by
  unfold held
  cases hk : look k with
  | none =>
    rcases hf k hk with hnone | hle
    · simp [hnone]
    · rw [if_neg (by omega)]
      rfl
  | some x =>
    obtain ⟨v, t⟩ := x
    have hmem : k ∈ s := (hs k).mpr (by simp [hk])
    have hlt : (usedSince k past).card < cap := by
      calc (usedSince k past).card ≤ (s.erase k).card :=
            Finset.card_le_card (h.usedSince_subset hs hk)
        _ < s.card := Finset.card_erase_lt_of_mem hmem
        _ ≤ cap := hcap
    rw [if_pos hlt, h.holds _ _ _ hk]
    rfl

end Present

/-! ## Renaming the keys -/

section Renaming

variable {K' : Type} [DecidableEq K']

/-- The event, with its key renamed. -/
def Event.map (f : K → K') : Event K V → Event K' V
  | .stored k v => .stored (f k) v
  | .hit k => .hit (f k)
  | .cleared => .cleared

/-- The event is a use of some key of `S`, or none. -/
def Event.UsesIn (S : Set K) (e : Event K V) : Prop := ∀ k, e.Uses k → k ∈ S

variable {f : K → K'} {S : Set K} {past : List (Event K V)} {k : K}

theorem lastStored_map (hf : Set.InjOn f S) (hpast : ∀ e ∈ past, e.UsesIn S) (hk : k ∈ S) :
    lastStored (f k) (past.map (Event.map f)) = lastStored k past := by
  induction past with
  | nil => rfl
  | cons e past ih =>
    have hrest := ih fun e he => hpast e (by simp [he])
    cases e with
    | cleared => rfl
    | hit k' => exact hrest
    | stored k' v =>
      have hk' : k' ∈ S := hpast _ (by simp) k' (Or.inr ⟨v, rfl⟩)
      simp only [map_cons, Event.map, lastStored, hf.eq_iff hk' hk, hrest]

theorem usedSince_subset (past : List (Event K V)) (hpast : ∀ e ∈ past, e.UsesIn S) (k : K) :
    ↑(usedSince k past) ⊆ S := by
  induction past with
  | nil => simp [usedSince]
  | cons e past ih =>
    have hrest := ih fun e he => hpast e (by simp [he])
    cases e with
    | cleared => exact hrest
    | hit k' | stored k' v =>
      have hk' : k' ∈ S := hpast _ mem_cons_self k' (by simp [Event.Uses])
      unfold usedSince
      split
      · simp
      · simpa [Set.insert_subset_iff] using ⟨hk', hrest⟩

theorem usedSince_map (hf : Set.InjOn f S) (hpast : ∀ e ∈ past, e.UsesIn S) (hk : k ∈ S) :
    usedSince (f k) (past.map (Event.map f)) = (usedSince k past).image f := by
  induction past with
  | nil => rfl
  | cons e past ih =>
    have hrest := ih fun e he => hpast e (by simp [he])
    cases e with
    | cleared => exact hrest
    | hit k' | stored k' v =>
      have hk' : k' ∈ S := hpast _ mem_cons_self k' (by simp [Event.Uses])
      simp only [map_cons, Event.map, usedSince, hf.eq_iff hk' hk, hrest]
      split
      · rfl
      · rw [Finset.image_insert]

/-- A renaming that keeps the keys in use apart changes no answer. -/
theorem held_map (hf : Set.InjOn f S) (hpast : ∀ e ∈ past, e.UsesIn S) (hk : k ∈ S) (cap : Nat) :
    held cap (f k) (past.map (Event.map f)) = held cap k past := by
  have hcard : ((usedSince k past).image f).card = (usedSince k past).card :=
    Finset.card_image_of_injOn (hf.mono (usedSince_subset past hpast k))
  unfold held
  rw [lastStored_map hf hpast hk, usedSince_map hf hpast hk, hcard]

end Renaming

/-! ## Stamps that count the uses

A store whose clock ticks once per use needs no ranking: each key's stamp is
the number of its last use. The uses are listed alone, the latest first. -/

section Stamps

/-- The number of the latest use of `k`, counted from 1; 0 if there is none. -/
def lastUse (k : K) : List K → Nat
  | [] => 0
  | k' :: past => if k' = k then past.length + 1 else lastUse k past

theorem lastUse_le (k : K) (uses : List K) : lastUse k uses ≤ uses.length := by
  induction uses with
  | nil => exact Nat.le_refl _
  | cons k' past ih =>
    unfold lastUse
    split
    · exact Nat.le_refl _
    · exact Nat.le_succ_of_le ih

/-- No two keys are used at once. -/
theorem lastUse_inj {k k' : K} {uses : List K} (hk : k ∈ uses) (hk' : k' ∈ uses)
    (h : lastUse k uses = lastUse k' uses) : k = k' := by
  induction uses with
  | nil => cases hk
  | cons x past ih =>
    have hle := lastUse_le k past
    have hle' := lastUse_le k' past
    simp only [lastUse] at h
    by_cases hx : x = k
    · by_cases hx' : x = k'
      · exact hx.symm.trans hx'
      · rw [if_pos hx, if_neg hx'] at h
        omega
    · by_cases hx' : x = k'
      · rw [if_neg hx, if_pos hx'] at h
        omega
      · rw [if_neg hx, if_neg hx'] at h
        exact ih (mem_of_ne_of_mem (Ne.symm hx) hk) (mem_of_ne_of_mem (Ne.symm hx') hk') h

/-- Every stamp is the number of its key's last use, and the clock counts
the uses. -/
structure Stamps (uses : List K) (look : K → Option Nat) (now : Nat) : Prop where
  clock : now = uses.length
  used : ∀ k t, look k = some t → k ∈ uses
  stamp : ∀ k t, look k = some t → t = lastUse k uses

theorem Stamps.nil : Stamps ([] : List K) (fun _ => none) 0 where
  clock := rfl
  used := by
    intro k t h
    cases h
  stamp := by
    intro k t h
    cases h

variable {uses : List K} {stamps stamps' : K → Option Nat} {tick : Nat}

/-- The stamps that are left are the ones there were. -/
theorem Stamps.of_subset (h : Stamps uses stamps tick)
    (hsub : ∀ k t, stamps' k = some t → stamps k = some t) : Stamps uses stamps' tick where
  clock := h.clock
  used := by
    intro k t hk
    exact h.used k t (hsub k t hk)
  stamp := by
    intro k t hk
    exact h.stamp k t (hsub k t hk)

/-- A use advances the clock and stamps its key with it. -/
theorem Stamps.use (h : Stamps uses stamps tick) {k : K}
    (hself : stamps' k = some (tick + 1)) (hne : ∀ k', k' ≠ k → stamps' k' = stamps k') :
    Stamps (k :: uses) stamps' (tick + 1) where
  clock := by rw [h.clock, length_cons]
  used := by
    intro k' t hk'
    by_cases hk : k' = k
    · rw [hk]
      exact mem_cons_self
    · rw [hne k' hk] at hk'
      exact mem_cons_of_mem _ (h.used k' t hk')
  stamp := by
    intro k' t hk'
    by_cases hk : k' = k
    · subst hk
      rw [hself, Option.some.injEq] at hk'
      simp [lastUse, ← hk', h.clock]
    · rw [hne k' hk] at hk'
      rw [h.stamp k' t hk', lastUse, if_neg (Ne.symm hk)]

end Stamps

end Fuel.Recency
