import Fuel.IR.Memory

/-!
# In-place execution refines the purely functional reading

Walking an execution plan in memory gives a root its functional value whenever
nothing reachable destroys the root's alias group, except by way of ops the
root itself is computed from. The ordering edges that make this true are the
waits of `Fuel.IR.Ordering`; readers inside the destroyed group are ordered
only through their own readers.
-/

namespace Fuel.IR

open Fuel.DepGraph Relation

variable {V C : Type}

section

variable {g : Graph} {roots order plan : List NodeId}

/-- An op that destroys something reaches an alias only through the alias's group id. -/
theorem ancestor_root_of_destroyed (htopo : IsTopoOrder g roots order)
    (hsched : Schedules g.inputs order) (hviews : g.SingleInputViews) {d x : NodeId}
    (hd : g.destroyed d = some x) : ∀ r ∈ order, ReflTransGen (Precedes g.inputs) d r →
      ReflTransGen (Precedes g.inputs) d ((aliasGroups g order).root r) := by
  have hinv := aliasGroups_inv htopo.nodup hsched
  refine hsched.induction fun r hr ih hpath => ?_
  cases halias : g.aliasInput r with
  | none => rwa [root_of_aliasInput_none hinv halias]
  | some inp =>
    rw [root_of_aliasInput_some hinv hr halias]
    rcases ReflTransGen.cases_tail hpath with rfl | ⟨c, hdc, hcr⟩
    · -- an aliasing node destroys nothing
      rw [Graph.destroyed_of_aliasInput halias] at hd
      cases hd
    · -- the path enters `r` through its only input
      have hc : c ∈ g.inputs r := hcr
      rw [hviews r inp halias, List.mem_singleton] at hc
      subst hc
      exact ih c (Graph.aliasInput_mem_inputs halias) hdc

/-- When every op that destroys the root's group feeds the root, no op destroys it. -/
theorem live_of_ancestors (htopo : IsTopoOrder g roots order) (hsched : Schedules g.inputs order)
    (hviews : g.SingleInputViews) (hplan : IsPlan g order plan) {r : NodeId} (hr : r ∈ order)
    (hanc : ∀ d ∈ plan, ∀ x, g.destroyed d = some x → StaticAlias g roots x r →
      ReflTransGen (Precedes g.inputs) d r) :
    Live g (aliasGroups g order).root plan r := by
  intro d hd x hx hroot
  have hdord : d ∈ order := hplan.mem.mp hd
  have hxd := Graph.destroyed_mem_inputs hx
  have hxord : x ∈ order := htopo.input_mem hdord hxd
  have halias := (root_eq_iff_staticAlias htopo hsched hxord hr).mp hroot
  -- `d` comes before the group id, which comes before `x`, which `d` reads
  have hdroot := ancestor_root_of_destroyed htopo hsched hviews hx r hr (hanc d hd x hx halias)
  have hrootx := (staticAlias_root htopo hsched hxord).2
  rw [hroot] at hrootx
  exact hsched.no_cycle htopo.nodup hdord
    (TransGen.trans_right (hdroot.trans hrootx) (.single hxd))

end

/-- **In-place execution along a plan gives the functional values.** For an
acyclic graph whose aliasing nodes have one input, a returned plan lists the
reachable nodes once, inputs first; a reader of a destroyed alias group that is
not in the group itself runs before the op that destroys it; and after the walk
every root whose group is destroyed only by its own ancestors reads its
functional value. -/
theorem execution_plan_refines_pure (g : Graph) (roots plan : List NodeId) (I : Interp V C)
    (hacyc : g.Acyclic) (hviews : g.SingleInputViews) (hplan : executionPlan g roots = some plan) :
    plan.Nodup ∧ (∀ id, id ∈ plan ↔ Needed g.inputs roots id) ∧
    (∀ id ∈ plan, ∀ i ∈ g.inputs id, Before plan i id) ∧
    (∀ d ∈ plan, ∀ x, g.destroyed d = some x → ∀ a, StaticAlias g roots a x →
      ∀ reader ∈ plan, a ∈ g.inputs reader → reader ≠ d → ¬ StaticAlias g roots reader x →
        Before plan reader d) ∧
    (∀ r ∈ roots,
      (∀ d ∈ plan, ∀ x, g.destroyed d = some x → StaticAlias g roots x r →
        ReflTransGen (Precedes g.inputs) d r) →
      ∃ v, Denotes g I.value r v ∧ (execute g I plan).read r = some v) := by
  obtain ⟨order, horder, hp⟩ := executionPlan_spec (hacyc.acyclicFrom roots) hplan
  have htopo := topoOrderMulti_spec horder
  have hsched := topoOrderMulti_schedules (hacyc.acyclicFrom roots) horder
  refine ⟨hp.nodup, fun id => hp.mem.trans (htopo.mem id), ?_, ?_, ?_⟩
  · intro id hid i hi
    exact hp.inputs_first.before hid hi
  · intro d hd x hx a hax reader hreader ha hne hnot
    have hro := hp.mem.mp hreader
    have haord := htopo.input_mem hro ha
    have hxord := htopo.input_mem (hp.mem.mp hd) (Graph.destroyed_mem_inputs hx)
    refine hp.pins_first.before hd ((mem_pins htopo hsched).mpr ⟨x, a, hx, hro, ha, hne, ?_, ?_⟩)
    · exact (root_eq_iff_staticAlias htopo hsched haord hxord).mpr hax
    · exact fun h => hnot ((root_eq_iff_staticAlias htopo hsched hro hxord).mp h)
  · intro r hr hanc
    have hrord := htopo.root_mem hr
    have hlive := live_of_ancestors htopo hsched hviews hp hrord hanc
    obtain ⟨b, v, hb, hreads, hden⟩ :=
      (execute_sound I htopo hsched hp).reads r (hp.mem.mpr hrord) hlive
    exact ⟨v, hden, hreads.read hb⟩

/-! ## Small graphs -/

/-- Numbers as tensors: every op adds its own id to its inputs, a storage holds
one number, and reshapes share. -/
def sumInterp : Interp Nat Nat where
  value id vs := id + vs.sum
  store _ v := v
  load _ c := c
  load_store _ _ := rfl
  overwrite _ _ v := v
  reload _ c := c
  reload_overwrite _ _ _ := rfl
  shares _ := true

/-- `relu (transpose x) + relu_inplace x`: the inner `relu` must run first. -/
def viewedInPlace : Graph where
  nodes := [plainNode .const [], plainNode .transpose [0], plainNode .relu [1],
    plainNode .reluInplace [0], plainNode .add [2, 3]]

theorem viewed_in_place_runs_pure :
    executionPlan viewedInPlace [4] = some [0, 1, 2, 3, 4] ∧
      ∃ v, Denotes viewedInPlace sumInterp.value 4 v ∧
        (execute viewedInPlace sumInterp [0, 1, 2, 3, 4]).read 4 = some v := by
  have hplan : executionPlan viewedInPlace [4] = some [0, 1, 2, 3, 4] := by decide +kernel
  have hall := execution_plan_refines_pure viewedInPlace [4] [0, 1, 2, 3, 4] sumInterp
    (Graph.acyclic_of_inputs_lt (by decide +kernel))
    (Graph.singleInputViews_of_lt (by decide +kernel)) hplan
  refine ⟨hplan, hall.2.2.2.2 4 (by simp) ?_⟩
  intro d hd x hx _
  have honly : ∀ d ∈ [0, 1, 2, 3, 4], (viewedInPlace.destroyed d).isSome → d = 3 := by
    decide +kernel
  obtain rfl : d = 3 := honly d hd (by rw [hx]; rfl)
  have hread : 3 ∈ viewedInPlace.inputs 4 := by decide +kernel
  exact .single hread

/-- `relu_inplace x` and `transpose x`, both roots. -/
def viewRoot : Graph where
  nodes := [plainNode .const [], plainNode .reluInplace [0], plainNode .transpose [0]]

/-- A view node with the in-place result as a second input. -/
def twoInputView : Graph where
  nodes := [plainNode .const [], plainNode .reluInplace [0], plainNode .transpose [0, 1]]

/-- A view of a destroyed tensor is a reader of it and is not held before the
op that destroys it; and a view with a second input, computed after the op that
overwrites its first, reads the overwritten bytes though that op is its ancestor. -/
theorem alias_reader_runs_late :
    (viewRoot.Acyclic ∧ ∃ plan, executionPlan viewRoot [2, 1] = some plan ∧
      1 ∈ plan ∧ viewRoot.destroyed 1 = some 0 ∧ 2 ∈ plan ∧ 0 ∈ viewRoot.inputs 2 ∧
      ¬ Before plan 2 1) ∧
    (twoInputView.Acyclic ∧ ∃ plan, executionPlan twoInputView [2] = some plan ∧
      (∀ d ∈ plan, ∀ x, twoInputView.destroyed d = some x → StaticAlias twoInputView [2] x 2 →
        ReflTransGen (Precedes twoInputView.inputs) d 2) ∧
      ¬ ∃ v, Denotes twoInputView sumInterp.value 2 v ∧
        (execute twoInputView sumInterp plan).read 2 = some v) := by
  constructor
  · exact ⟨Graph.acyclic_of_inputs_lt (by decide +kernel), [0, 1, 2], by decide +kernel,
      by decide, by decide +kernel, by decide, by decide +kernel, by decide⟩
  refine ⟨Graph.acyclic_of_inputs_lt (by decide +kernel), [0, 1, 2], by decide +kernel, ?_, ?_⟩
  · intro d hd x hx _
    have honly : ∀ d ∈ [0, 1, 2], (twoInputView.destroyed d).isSome → d = 1 := by
      decide +kernel
    obtain rfl : d = 1 := honly d hd (by rw [hx]; rfl)
    have hread : 1 ∈ twoInputView.inputs 2 := by decide +kernel
    exact .single hread
  · rintro ⟨v, hden, hread⟩
    have hpure : Denotes twoInputView sumInterp.value 2 2 := ⟨2, by decide +kernel⟩
    have hmem : (execute twoInputView sumInterp [0, 1, 2]).read 2 = some 3 := by decide +kernel
    rw [hden.unique hpure, hmem] at hread
    exact absurd hread (by decide)

end Fuel.IR
