import Mathlib.Data.List.AList
import Mathlib.Algebra.BigOperators.Group.List.Basic
import Mathlib.Algebra.Ring.Nat

/-!
# Sums over a finite map

`AList` is the finite map of this development: a list of key/value pairs
with distinct keys. This file adds the one thing the reference-counting
arguments need from a map — the sum of a weight over its values, and how an
insertion or a removal changes it.
-/

namespace Fuel.AssocMap

open List

variable {α β : Type}

/-- The sum of `f` over the values of `m`. -/
def total (f : β → Nat) (m : AList (fun _ : α => β)) : Nat :=
  (m.entries.map fun e => f e.2).sum

variable (f : β → Nat)

include f

variable [DecidableEq α] {m : AList (fun _ : α => β)} {a : α} {b : β}

omit f in
theorem mem_entries_iff : m.lookup a = some b ↔ (⟨a, b⟩ : Sigma fun _ : α => β) ∈ m.entries :=
  AList.mem_lookup_iff

/-- Taking a present key out takes its weight out. -/
theorem total_erase (h : m.lookup a = some b) : total f (m.erase a) + f b = total f m := by
  have hmem := mem_entries_iff.mp h
  have hkey : a ∈ m.entries.keys := mem_keys_of_mem hmem
  obtain ⟨b', l₁, l₂, hnot, hl, hk⟩ := exists_of_kerase hkey
  have hb : b' = b := by
    have h' : m.lookup a = some b' :=
      mem_entries_iff.mpr (by rw [hl]; simp)
    rw [h] at h'
    exact (Option.some.inj h').symm
  subst hb
  show ((m.entries.kerase a).map fun e => f e.2).sum + f b' = _
  rw [hk, total, hl]
  simp only [map_append, map_cons, sum_append, sum_cons]
  omega

omit f in
/-- An absent key can be taken out for free. -/
theorem erase_of_lookup_none (h : m.lookup a = none) : m.erase a = m := by
  apply AList.ext
  exact kerase_of_notMem_keys (fun hk => AList.lookup_eq_none.mp h hk)

theorem total_insert (m : AList (fun _ : α => β)) (a : α) (b : β) :
    total f (m.insert a b) = f b + total f (m.erase a) := by
  rw [total, AList.entries_insert, map_cons, sum_cons]
  rfl

/-- A new key adds its weight. -/
theorem total_insert_new (h : m.lookup a = none) (b : β) :
    total f (m.insert a b) = f b + total f m := by
  rw [total_insert, erase_of_lookup_none h]

/-- Overwriting a value exchanges its weight. -/
theorem total_insert_old (h : m.lookup a = some b) (b' : β) :
    total f (m.insert a b') + f b = total f m + f b' := by
  have := total_erase f h
  rw [total_insert]
  omega

/-- Values that weigh nothing weigh nothing together. -/
theorem total_eq_zero (h : ∀ a b, m.lookup a = some b → f b = 0) : total f m = 0 := by
  refine sum_eq_zero ?_
  intro n hn
  obtain ⟨⟨a, b⟩, hmem, rfl⟩ := mem_map.mp hn
  exact h a b (mem_entries_iff.mpr hmem)

/-- One value weighs at most the sum. -/
theorem le_total (h : m.lookup a = some b) : f b ≤ total f m := by
  have := total_erase f h
  omega

/-- Two values at different keys weigh at most the sum. -/
theorem add_le_total {a' : α} {b' : β} (hne : a ≠ a') (h : m.lookup a = some b)
    (h' : m.lookup a' = some b') : f b + f b' ≤ total f m := by
  have h1 := total_erase f h
  have h2 : (m.erase a).lookup a' = some b' := by
    rw [AList.lookup_erase_ne (Ne.symm hne)]
    exact h'
  have := le_total f h2
  omega

/-- The sum only depends on the lookups. -/
theorem total_congr {m' : AList (fun _ : α => β)} (h : ∀ a, m.lookup a = m'.lookup a) :
    total f m = total f m' := by
  have hperm : m.entries.Perm m'.entries := by
    refine lookup_ext m.nodupKeys m'.nodupKeys fun a b => ?_
    show m.lookup a = some b ↔ m'.lookup a = some b
    rw [h a]
  exact (hperm.map _).sum_eq

omit f

/-- A Boolean test over the values, as a statement about lookups. -/
theorem any_values_iff {q : β → Bool} :
    (m.entries.any fun e => q e.2) = true ↔ ∃ a b, m.lookup a = some b ∧ q b = true := by
  rw [any_eq_true]
  constructor
  · rintro ⟨e, he, hq⟩
    exact ⟨e.1, e.2, mem_entries_iff.mpr he, hq⟩
  · rintro ⟨a, b, h, hq⟩
    exact ⟨⟨a, b⟩, mem_entries_iff.mp h, hq⟩

/-- Lookup after an insertion, in one equation. -/
theorem lookup_insert_ite (m : AList (fun _ : α => β)) (a a' : α) (b : β) :
    (m.insert a b).lookup a' = if a' = a then some b else m.lookup a' := by
  by_cases h : a' = a
  · subst h
    simp
  · rw [AList.lookup_insert_ne h, if_neg h]

/-- Lookup after a removal, in one equation. -/
theorem lookup_erase_ite (m : AList (fun _ : α => β)) (a a' : α) :
    (m.erase a).lookup a' = if a' = a then none else m.lookup a' := by
  by_cases h : a' = a
  · subst h
    simp
  · rw [AList.lookup_erase_ne h, if_neg h]

theorem lookup_of_erase {a' : α} (h : (m.erase a).lookup a' = some b) :
    a' ≠ a ∧ m.lookup a' = some b := by
  rw [lookup_erase_ite] at h
  split at h
  · cases h
  · exact ⟨‹_›, h⟩

theorem lookup_of_insert {a' : α} {b' : β} (h : (m.insert a b).lookup a' = some b') :
    a' = a ∧ b' = b ∨ a' ≠ a ∧ m.lookup a' = some b' := by
  rw [lookup_insert_ite] at h
  split at h
  · exact .inl ⟨‹_›, (Option.some.inj h).symm⟩
  · exact .inr ⟨‹_›, h⟩

/-- Inserting a new key and removing it again is no change. -/
theorem erase_insert_new (h : m.lookup a = none) (b : β) : (m.insert a b).erase a = m := by
  apply AList.ext
  have hk : m.entries.kerase a = m.entries :=
    kerase_of_notMem_keys (fun hk => AList.lookup_eq_none.mp h hk)
  show (m.insert a b).entries.kerase a = m.entries
  rw [AList.entries_insert, hk]
  exact kerase_cons_eq rfl

end Fuel.AssocMap
