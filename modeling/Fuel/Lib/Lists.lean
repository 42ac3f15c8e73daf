import Mathlib.Data.List.Nodup

/-!
# Lists read by position

Lists related element by element, one element replaced, and elements told apart
by a key.
-/

namespace Fuel

open List

variable {α β γ : Type}

theorem lt_of_getElem? {l : List α} {i : Nat} {x : α} (h : l[i]? = some x) : i < l.length :=
  (List.getElem?_eq_some_iff.mp h).1

/-! ## Related element by element -/

theorem forall₂_getElem? {R : α → β → Prop} {l : List α} {bs : List β}
    (h : List.Forall₂ R l bs) {k : Nat} {a : α} (ha : l[k]? = some a) :
    ∃ b, bs[k]? = some b ∧ R a b := by
  induction h generalizing k with
  | nil => simp at ha
  | cons hab _ ih =>
    cases k with
    | zero =>
      cases ha
      exact ⟨_, rfl, hab⟩
    | succ k => exact ih ha

theorem forall₂_exists {R : α → β → Prop} {l : List α} {bs : List β}
    (h : List.Forall₂ R l bs) {a : α} (ha : a ∈ l) : ∃ b ∈ bs, R a b := by
  obtain ⟨k, hk⟩ := mem_iff_getElem?.mp ha
  obtain ⟨b, hb, hab⟩ := forall₂_getElem? h hk
  exact ⟨b, mem_of_getElem? hb, hab⟩

theorem forall₂_comp {R : α → β → Prop} {S : β → γ → Prop} {T : α → γ → Prop}
    (hcomp : ∀ a b c, R a b → S b c → T a c) {l : List α} {l' : List β} {l'' : List γ}
    (h : List.Forall₂ R l l') (h' : List.Forall₂ S l' l'') : List.Forall₂ T l l'' := by
  induction h generalizing l'' with
  | nil =>
    cases h'
    exact .nil
  | cons hab _ ih =>
    cases h' with
    | cons hbc hrest => exact .cons (hcomp _ _ _ hab hbc) (ih hrest)

/-- Filtering two aligned lists by tests that agree. -/
theorem forall₂_filter {R : α → β → Prop} {p : α → Bool} {c : β → Bool}
    {l : List α} {m : List β} (h : List.Forall₂ R l m) (hpc : ∀ e ∈ l.zip m, c e.2 = p e.1) :
    List.Forall₂ R (l.filter p) (m.filter c) := by
  induction h with
  | nil => exact .nil
  | @cons a b l m hab _ ih =>
    have hhead : c b = p a := hpc (a, b) (by simp)
    have hrest := ih fun e he => hpc e (by simp [he])
    rw [filter_cons, filter_cons, hhead]
    split
    · exact .cons hab hrest
    · exact hrest

/-! ## One element replaced -/

theorem forall₂_set {R : α → α → Prop} (hrefl : ∀ a, R a a) {l : List α} {i : Nat} {a b : α}
    (hi : l[i]? = some a) (hab : R a b) : List.Forall₂ R l (l.set i b) := by
  induction l generalizing i with
  | nil => simp at hi
  | cons c l ih =>
    cases i with
    | zero =>
      rw [getElem?_cons_zero, Option.some.injEq] at hi
      subst hi
      exact .cons hab (List.forall₂_same.mpr fun a _ => hrefl a)
    | succ i => exact .cons (hrefl c) (ih (by simpa using hi))

/-- The members of a list with one element replaced, when the elements are told apart by `f`. -/
theorem mem_set_cases {f : α → β} {l : List α} (hnodup : (l.map f).Nodup) {i : Nat}
    {a b x : α} (hi : l[i]? = some a) (hx : x ∈ l.set i b) : x = b ∨ x ∈ l ∧ f x ≠ f a := by
  obtain ⟨j, hj⟩ := mem_iff_getElem?.mp hx
  by_cases hij : i = j
  · subst hij
    rw [getElem?_set_self (lt_of_getElem? hi)] at hj
    exact .inl (Option.some.inj hj).symm
  rw [getElem?_set_ne hij] at hj
  refine .inr ⟨mem_of_getElem? hj, ?_⟩
  intro heq
  apply hij
  have hlt : i < (l.map f).length := by
    rw [length_map]
    exact lt_of_getElem? hi
  refine (getElem?_inj hlt hnodup).mp ?_
  rw [getElem?_map, getElem?_map, hi, hj, Option.map_some, Option.map_some, heq]

/-- Replacing an element by one with the same `f` leaves the list of the `f`s. -/
theorem map_set_of_eq (f : α → β) {l : List α} {i : Nat} {a b : α}
    (hi : l[i]? = some a) (hf : f b = f a) : (l.set i b).map f = l.map f := by
  apply ext_getElem?
  intro j
  rw [getElem?_map, getElem?_map, getElem?_set]
  split_ifs with hj hlt
  · rw [← hj, hi, Option.map_some, Option.map_some, hf]
  · exact absurd (lt_of_getElem? hi) hlt
  · rfl

/-! ## Keys -/

theorem map_fst_mapIdx (l : List α) (g : α → γ) (f : Nat → α → β) :
    (l.mapIdx fun i a => (g a, f i a)).map Prod.fst = l.map g := by
  apply ext_getElem?
  intro i
  simp [Function.comp_def]

/-- Elements of a list at different places, told apart by `f`. -/
theorem nodup_map_of_places {f : α → β} {l : List α} (hl : (l.map f).Nodup)
    {idxs : List Nat} (hidxs : idxs.Nodup) {ss : List α}
    (h : List.Forall₂ (fun i s => l[i]? = some s) idxs ss) : (ss.map f).Nodup := by
  induction h with
  | nil => exact nodup_nil
  | @cons i s idxs ss hi hrest ih =>
    obtain ⟨hnotin, hidxs⟩ := nodup_cons.mp hidxs
    rw [map_cons, nodup_cons]
    refine ⟨?_, ih hidxs⟩
    intro hmem
    obtain ⟨s', hs', heq⟩ := mem_map.mp hmem
    obtain ⟨k, hk⟩ := mem_iff_getElem?.mp hs'
    obtain ⟨j, hj, hjs⟩ := forall₂_getElem? hrest.flip hk
    have hlt : i < (l.map f).length := by
      rw [length_map]
      exact lt_of_getElem? hi
    have hij : i = j := by
      refine (getElem?_inj hlt hl).mp ?_
      rw [getElem?_map, getElem?_map, hi, hjs, Option.map_some, Option.map_some, heq]
    exact hnotin (hij ▸ mem_of_getElem? hj)

theorem lookup_zip_of_nodup [DecidableEq α] {keys : List α} (hnodup : keys.Nodup)
    {vals : List β} {k : Nat} {a : α} {b : β} (ha : keys[k]? = some a) (hb : vals[k]? = some b) :
    (keys.zip vals).lookup a = some b := by
  induction keys generalizing vals k with
  | nil => simp at ha
  | cons key keys ih =>
    obtain ⟨hnotin, hnodup⟩ := nodup_cons.mp hnodup
    cases vals with
    | nil => simp at hb
    | cons val vals =>
      cases k with
      | zero =>
        cases ha
        cases hb
        simp
      | succ k =>
        rw [getElem?_cons_succ] at ha hb
        have hne : a ≠ key := by
          rintro rfl
          exact hnotin (mem_of_getElem? ha)
        rw [zip_cons_cons, lookup_cons, beq_eq_false_iff_ne.mpr hne]
        exact ih hnodup ha hb

theorem lookup_zip_of_not_mem [DecidableEq α] {keys : List α} {a : α}
    (ha : a ∉ keys) (vals : List β) : (keys.zip vals).lookup a = none := by
  rw [lookup_eq_none_iff]
  intro p hp
  have hmem := (of_mem_zip hp).1
  rw [bne_iff_ne]
  rintro rfl
  exact ha hmem

end Fuel
