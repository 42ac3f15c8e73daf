import Fuel.Jit.EmitSpec
import Fuel.Jit.Match

/-!
# Validated regions

Validation looks at every op of a region. One with absolute attributes that
passed stands for a primitive, whatever scalars fill its slots; a region of such
ops, without nested fused ops, is emitted for all inputs.
-/

namespace Fuel.Jit

open Fuel.IR Method List

/-! ## One op -/

section Attrs

variable {conv : ScalarConv} {attrs : OpAttrs} {tag : OpTag}

theorem fillSlots_of_arity (h : scalarSlotArity tag = 0) : fillSlots tag attrs = attrs := by
  unfold fillSlots
  rw [if_neg]
  omega

theorem slot_tag (h : scalarSlotArity tag ≠ 0) : tag = .addScalar ∨ tag = .mulScalar := by
  cases tag with
  | addScalar => exact .inl rfl
  | mulScalar => exact .inr rfl
  | _ => exact absurd rfl h

theorem scalarRel_of_absolute {attrs : OpAttrs} (h : hasRelAttrs attrs = false) :
    attrs.scalarRel = none := by
  simp [hasRelAttrs] at h
  simpa using h.2

theorem tag_eq_fused {fid : FusedOpId} {params : FusedOpParams}
    (h : tagToOp conv tag attrs = some (.fused fid params)) : tag = .fused :=
  (Option.some.inj (recipeTag_of_tagToOp h)).symm

/-- A validated op with absolute attributes stands for a primitive, however its slot is filled. -/
theorem isSome_withSlots (hvalid : (tagToOp conv tag (fillSlots tag attrs)).isSome)
    (habs : attrs.scalarRel = none) {own : List UInt64} (hown : own.length = ownSlots tag attrs) :
    (tagToOp conv tag (attrs.withSlots own)).isSome := by
  by_cases h0 : scalarSlotArity tag = 0
  · have hnil : own = [] := by
      apply length_eq_zero_iff.mp
      rw [hown, ownSlots, h0, ite_self]
    rw [hnil, OpAttrs.withSlots, if_pos rfl]
    rwa [fillSlots_of_arity h0] at hvalid
  have hhead : (attrs.withSlots own).scalars.head?.isSome := by
    unfold ownSlots at hown
    unfold OpAttrs.withSlots
    by_cases hs : attrs.scalars = []
    · rw [if_pos ⟨hs, habs⟩] at hown
      have hne : own ≠ [] := fun h => h0 (by rw [← hown, h]; rfl)
      rw [if_neg hne]
      exact isSome_head?.mpr hne
    · rw [if_neg fun hc => hs hc.1] at hown
      rw [if_pos (length_eq_zero_iff.mp hown)]
      exact isSome_head?.mpr hs
  rcases slot_tag h0 with rfl | rfl
  · simpa [tagToOp] using hhead
  · simpa [tagToOp] using hhead

end Attrs

/-! ## The tree -/

variable {conv : ScalarConv} {k : Nat}

theorem validateAll_iff {ps : List PatternNode} :
    validateAll conv k ps = .ok () ↔ ∀ p ∈ ps, validateNode conv k p = .ok () := by
  induction ps with
  | nil => simp [validateAll]
  | cons p ps ih =>
    unfold validateAll
    rw [bind_eq_ok, forall_mem_cons, ← ih]
    exact ⟨fun ⟨_, hp, hps⟩ => ⟨hp, hps⟩, fun ⟨hp, hps⟩ => ⟨(), hp, hps⟩⟩

/-- Validation checks every subtree. -/
theorem validateNode_subtree {p q : PatternNode} (h : validateNode conv k p = .ok ())
    (hq : q ∈ p.subtrees) : validateNode conv k q = .ok () := by
  induction p using PatternNode.induct with
  | op tag operands attrs ih =>
    rcases mem_cons.mp hq with rfl | hbelow
    · exact h
    · obtain ⟨r, hr, hin⟩ := mem_subtreesAll.mp hbelow
      unfold validateNode at h
      obtain ⟨_, -, hall⟩ := bind_eq_ok.mp h
      exact ih r hr (validateAll_iff.mp hall r hr) hin
  | bind i =>
    rw [mem_singleton.mp hq]
    exact h
  | seeThrough inner ih => cases h
  | any => cases h

theorem tagToOp_of_validateOp {tag : OpTag} {attrs : OpAttrs}
    (h : validateOp conv tag attrs k = .ok ()) (habs : hasRelAttrs attrs = false) :
    (tagToOp conv tag (fillSlots tag attrs)).isSome := by
  unfold validateOp at h
  rw [habs] at h
  simp only [Bool.false_eq_true, if_false] at h
  split at h
  · assumption
  · cases h

end Fuel.Jit
