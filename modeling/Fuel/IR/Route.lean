import Fuel.IR.Branch
import Fuel.IR.Lowering

/-!
# Picked routes

A route names an arm for some of the branches, and `lowerPickedRoute` drops the
runs that begin inside another arm. What is dropped is decided from the cones of
the arms' exits, which reach further back than the interiors the builder
checked, and the walk that orders the rest meets the arms other than arm 0 only
through the branch nodes it is seeded with.

`RouteClosed` is what that leaves to be asked of a graph: the nodes kept read
kept nodes, except that a merge node may read arm 0's exit in place of the
chosen one, which then has to come before it.
-/

namespace Fuel.IR

open Fuel.DepGraph Relation List

/-! ## The walk -/

section Walk

variable {g : Graph} {roots : List NodeId} {seeds : List NodeId}

theorem seedBranches_eq_some {seeds' : List NodeId} (h : seedBranches g seeds = some seeds') :
    ∃ added, seeds' = seeds ++ added ∧ added ≠ [] ∧ ∀ b ∈ added, b < g.len ∧ b ∉ seeds := by
  unfold seedBranches at h
  simp only at h
  split at h
  · cases h
  · rename_i hne
    cases h
    refine ⟨_, rfl, hne, fun b hb => ?_⟩
    obtain ⟨hrange, hnew⟩ := mem_filter.mp hb
    rw [Bool.and_eq_true, decide_eq_true_eq] at hnew
    exact ⟨mem_range.mp hrange, hnew.1⟩

theorem seedBranches_eq_none (h : seedBranches g seeds = none) {b : NodeId}
    (hb : participates g (walkFrom g seeds) b = true) : b ∈ seeds := by
  have hlt : b < g.len := by
    unfold participates at hb
    split at hb
    · cases hb
    · rename_i hat
      exact Graph.lt_len_of_branchAt hat
  unfold seedBranches at h
  simp only at h
  split at h
  · rename_i hnil
    by_contra hnot
    exact filter_eq_nil_iff.mp hnil b (mem_range.mpr hlt) (by simp [hnot, hb])
  · cases h

/-- Each pass that changes anything leaves fewer nodes unseeded. -/
theorem seedBranches_unseeded_lt {seeds' : List NodeId} (h : seedBranches g seeds = some seeds') :
    ((List.range g.len).filter fun id => decide (id ∉ seeds')).length <
      ((List.range g.len).filter fun id => decide (id ∉ seeds)).length := by
  obtain ⟨added, rfl, hne, hadded⟩ := seedBranches_eq_some h
  obtain ⟨b, hb⟩ := exists_mem_of_ne_nil _ hne
  have hsub := monotone_filter_right (List.range g.len)
    (p := fun id => decide (id ∉ seeds ++ added)) (q := fun id => decide (id ∉ seeds))
    fun id hid => by
      rw [decide_eq_true_eq, mem_append, not_or] at hid
      exact decide_eq_true hid.1
  -- were nothing lost, the seeded branch would still be unseeded
  by_contra hge
  have heq := hsub.eq_of_length_le (Nat.le_of_not_lt hge)
  have hmem : b ∈ (List.range g.len).filter fun id => decide (id ∉ seeds) :=
    mem_filter.mpr ⟨mem_range.mpr (hadded b hb).1, decide_eq_true (hadded b hb).2⟩
  rw [← heq, mem_filter, decide_eq_true_eq] at hmem
  exact hmem.2 (mem_append_right _ hb)

/-- The walk of an arena whose inputs are nodes of it returns; it starts from
the roots and meets every branch with an arm or its merge node in it. -/
theorem routeOrder_returns (hin : ∀ id, ∀ i ∈ g.inputs id, i < g.len)
    (hroots : ∀ r ∈ roots, r < g.len) :
    ∃ seeds order, effectiveRoots g roots = some seeds ∧ routeOrder g roots = some order ∧
      topoOrderMulti g seeds = some order ∧ (∀ r ∈ roots, r ∈ seeds) ∧
      ∀ b, participates g order b = true → b ∈ order := by
  have hseeds : (∀ r ∈ roots, r ∈ iter (seedBranches g) g.len roots) ∧
      ∀ s ∈ iter (seedBranches g) g.len roots, s < g.len := by
    refine iter_invariant (I := fun seeds => (∀ r ∈ roots, r ∈ seeds) ∧ ∀ s ∈ seeds, s < g.len)
      ?_ _ _ ⟨fun r hr => hr, hroots⟩
    intro seeds seeds' ⟨hkeep, hlt⟩ hstep
    obtain ⟨added, rfl, -, hadded⟩ := seedBranches_eq_some hstep
    refine ⟨fun r hr => mem_append_left _ (hkeep r hr), fun s hs => ?_⟩
    rcases mem_append.mp hs with hs | hs
    · exact hlt s hs
    · exact (hadded s hs).1
  have hbounds : ∀ id, Needed g.inputs (iter (seedBranches g) g.len roots) id → id < g.len :=
    fun id hid => hid.closed hseeds.2 fun b _ a hab => hin b a hab
  obtain ⟨order, horder⟩ := topoOrderMulti_isSome hbounds
  have heff : effectiveRoots g roots = some (iter (seedBranches g) g.len roots) := by
    simp [effectiveRoots, horder]
  refine ⟨_, order, heff, by simp [routeOrder, heff, horder], horder, hseeds.1, ?_⟩
  -- the last pass found nothing to add
  have hdone : seedBranches g (iter (seedBranches g) g.len roots) = none := by
    refine iter_halts (I := fun _ => True)
      (fun seeds => ((List.range g.len).filter fun id => decide (id ∉ seeds)).length)
      (fun _ _ _ _ => trivial) (fun _ _ _ h => seedBranches_unseeded_lt h) _ _ trivial ?_
    exact (length_filter_le _ _).trans (Nat.le_of_eq length_range)
  have hwalk : walkFrom g (iter (seedBranches g) g.len roots) = order := by
    unfold topoOrderMulti at horder
    simp only at horder
    split at horder
    · exact Option.some.inj horder
    · cases horder
  intro b hb
  rw [← hwalk] at hb
  exact (topoOrderMulti_spec horder).root_mem (seedBranches_eq_none hdone hb)

end Walk

/-! ## What a route keeps -/

/-- The arm a route takes at a branch. -/
def chosenArm (g : Graph) (picked : PickedRoute) (branch : NodeId) : Nat :=
  let chosen := (picked branch).getD 0
  if chosen < (g.inputs branch).length then chosen else 0

def keptRuns (g : Graph) (order : List NodeId) (picked : PickedRoute) : List Run :=
  (runsOf g order).filter fun r => decide (r.entry ∉ nonChosenArmNodes g order picked)

/-- The members of the runs that do not begin inside an arm not taken. -/
def keptNodes (g : Graph) (order : List NodeId) (picked : PickedRoute) : List NodeId :=
  (membersOf (keptRuns g order picked)).flatten

variable {g : Graph}

theorem lowerPickedRoute_eq {roots order : List NodeId} (h : routeOrder g roots = some order)
    (picked : PickedRoute) :
    lowerPickedRoute g roots picked = some (lowerRuns g (keptRuns g order picked)) := by
  simp [lowerPickedRoute, extractRunsMulti, h, keptRuns]

theorem keptRuns_sublist (g : Graph) (order : List NodeId) (picked : PickedRoute) :
    (keptRuns g order picked).Sublist (runsOf g order) :=
  filter_sublist

theorem mem_keptNodes {order : List NodeId} {picked : PickedRoute} {n : NodeId} :
    n ∈ keptNodes g order picked ↔ ∃ r ∈ runsOf g order, n ∈ r.members ∧
      r.entry ∉ nonChosenArmNodes g order picked := by
  simp only [keptNodes, keptRuns, membersOf, mem_flatten, mem_map, mem_filter,
    decide_eq_true_eq]
  constructor
  · rintro ⟨_, ⟨r, ⟨hr, hentry⟩, rfl⟩, hn⟩
    exact ⟨r, hr, hn, hentry⟩
  · rintro ⟨r, hr, hn, hentry⟩
    exact ⟨_, ⟨r, ⟨hr, hentry⟩, rfl⟩, hn⟩

/-! ## Arms -/

section Arms

variable {g : Graph} {seeds order : List NodeId} {branch : NodeId} {exit n diverge : NodeId}
  {i : Nat}

theorem mem_backwardCone (htopo : IsTopoOrder g seeds order) (hexit : exit ∈ order) (n : NodeId) :
    n ∈ backwardCone g order exit ↔ ReflTransGen (Precedes g.inputs) n exit := by
  refine mem_cone (fun _ _ h => inputs_support g _ h) ?_ (decide_eq_true hexit) n
  intro b hb a ha
  exact decide_eq_true (htopo.input_mem (of_decide_eq_true hb) ha)

theorem mem_branchArms (hbranch : (g.branchAt branch).isSome) (htwo : 2 ≤ (g.inputs branch).length)
    (hmem : branch ∈ order) :
    (⟨branch, (g.inputs branch).map (backwardCone g order)⟩ : BranchArms) ∈ branchArms g order := by
  refine mem_filterMap.mpr ⟨branch, hmem, ?_⟩
  rw [if_pos ⟨hbranch, htwo⟩]

theorem BranchArms.mem_shared {b : BranchArms} (hne : b.cones ≠ []) :
    n ∈ b.shared ↔ ∀ c ∈ b.cones, n ∈ c := by
  unfold BranchArms.shared
  cases hcones : b.cones with
  | nil => exact absurd hcones hne
  | cons c cs => simp

theorem chosenArm_lt (picked : PickedRoute) (htwo : 2 ≤ (g.inputs branch).length) :
    chosenArm g picked branch < (g.inputs branch).length := by
  unfold chosenArm
  simp only
  split
  · assumption
  · omega

/-- The nodes skipped at one branch; `chosen` is the arm index after clamping. -/
theorem BranchArms.mem_skipped {b : BranchArms} (hne : b.cones ≠ []) {pick chosen : Nat}
    (hchosen : (if pick < b.cones.length then pick else 0) = chosen) :
    n ∈ b.skipped pick ↔ ∃ i c c', i ≠ chosen ∧ b.cones[i]? = some c ∧
      b.cones[chosen]? = some c' ∧ n ∈ c ∧ n ∉ c' := by
  have hlt : chosen < b.cones.length := by
    have := length_pos_iff.mpr hne
    rw [← hchosen]
    split <;> assumption
  have hget := getElem?_eq_getElem hlt
  unfold BranchArms.skipped
  simp only [hchosen, hget, Option.getD_some, mem_flatMap, mem_range]
  constructor
  · rintro ⟨i, hi, hn⟩
    by_cases heq : i = chosen
    · rw [if_pos heq] at hn
      cases hn
    · rw [if_neg heq, getElem?_eq_getElem hi, Option.getD_some, mem_filter,
        Bool.and_eq_true, decide_eq_true_eq, decide_eq_true_eq] at hn
      exact ⟨i, _, _, heq, getElem?_eq_getElem hi, rfl, hn.1, hn.2.2⟩
  rintro ⟨i, c, c', heq, hc, hc', hn, hnot⟩
  refine ⟨i, lt_of_getElem? hc, ?_⟩
  cases hc'
  rw [if_neg heq, hc, Option.getD_some, mem_filter, Bool.and_eq_true, decide_eq_true_eq,
    decide_eq_true_eq]
  -- the common part lies in the chosen arm too
  exact ⟨hn, fun hshared => hnot ((BranchArms.mem_shared hne).mp hshared _ (getElem_mem hlt)),
    hnot⟩

variable (htopo : IsTopoOrder g seeds order)

include htopo

/-- **What a route skips**: the nodes an arm not taken is computed from and the
arm taken is not. -/
theorem mem_nonChosenArmNodes {picked : PickedRoute} : n ∈ nonChosenArmNodes g order picked ↔
      ∃ b ∈ order, (g.branchAt b).isSome ∧ 2 ≤ (g.inputs b).length ∧ ∃ i exit chosen,
        i ≠ chosenArm g picked b ∧ (g.inputs b)[i]? = some exit ∧
        (g.inputs b)[chosenArm g picked b]? = some chosen ∧
        ReflTransGen (Precedes g.inputs) n exit ∧ ¬ ReflTransGen (Precedes g.inputs) n chosen := by
  have hcone : ∀ {b e : NodeId} {i : Nat}, b ∈ order → (g.inputs b)[i]? = some e →
      (n ∈ backwardCone g order e ↔ ReflTransGen (Precedes g.inputs) n e) := fun hb he =>
    mem_backwardCone htopo (htopo.input_mem hb (mem_of_getElem? he)) n
  have hskipped : ∀ b, 2 ≤ (g.inputs b).length →
      (n ∈ (⟨b, (g.inputs b).map (backwardCone g order)⟩ : BranchArms).skipped
          ((picked b).getD 0) ↔
        ∃ i c c', i ≠ chosenArm g picked b ∧
          ((g.inputs b).map (backwardCone g order))[i]? = some c ∧
          ((g.inputs b).map (backwardCone g order))[chosenArm g picked b]? = some c' ∧
          n ∈ c ∧ n ∉ c') := by
    intro b htwo
    refine BranchArms.mem_skipped ?_ (by simp [chosenArm])
    exact ne_nil_of_length_pos (by rw [length_map]; omega)
  unfold nonChosenArmNodes branchArms
  simp only [mem_flatMap, mem_filterMap, Option.ite_none_right_eq_some,
    Option.some.injEq]
  constructor
  · rintro ⟨_, ⟨b, hb, ⟨hbranch, htwo⟩, rfl⟩, hn⟩
    obtain ⟨i, c, c', hne, hc, hc', hin, hnot⟩ := (hskipped b htwo).mp hn
    rw [getElem?_map, Option.map_eq_some_iff] at hc hc'
    obtain ⟨exit, hexit, rfl⟩ := hc
    obtain ⟨chosen, hchosen, rfl⟩ := hc'
    exact ⟨b, hb, hbranch, htwo, i, exit, chosen, hne, hexit, hchosen, (hcone hb hexit).mp hin,
      fun h => hnot ((hcone hb hchosen).mpr h)⟩
  · rintro ⟨b, hb, hbranch, htwo, i, exit, chosen, hne, hexit, hchosen, hin, hnot⟩
    refine ⟨_, ⟨b, hb, ⟨hbranch, htwo⟩, rfl⟩, (hskipped b htwo).mpr
      ⟨i, _, _, hne, ?_, ?_, (hcone hb hexit).mpr hin, fun h => hnot ((hcone hb hchosen).mp h)⟩⟩
    · rw [getElem?_map, hexit]
      rfl
    · rw [getElem?_map, hchosen]
      rfl

/-- A link of a run reads nothing but the link before. -/
theorem Continues.inputs_eq {points entries : List NodeId} {a b : NodeId}
    (h : Continues g order points entries a b) (hb : b ∈ order) : g.inputs b = [a] := by
  rw [← h.reads, filter_eq_self.mpr]
  intro i hi
  exact decide_eq_true (htopo.input_mem hb hi)

variable (hwell : WellBranched g branch diverge)

include hwell

variable (hmem : branch ∈ order)

include hmem

/-- The first node of an arm past the diverge point is an arm entry. -/
theorem mem_computeArmEntries (hexit : (g.inputs branch)[i]? = some exit)
    (hn : Interior g diverge exit n) (hread : diverge ∈ g.inputs n) :
    n ∈ computeArmEntries g order := by
  have hin : ∀ e ∈ g.inputs branch, e ∈ order := fun e he => htopo.input_mem hmem he
  have hne : (g.inputs branch).map (backwardCone g order) ≠ [] := by
    intro hnil
    have htwo := hwell.two_arms
    rw [map_eq_nil_iff.mp hnil] at htwo
    cases htwo
  refine mem_flatMap.mpr ⟨_, mem_branchArms hwell.isBranch hwell.two_arms hmem, ?_⟩
  -- some other arm does not reach back to `n`
  have hother : ∃ j, j ≠ i ∧ j < (g.inputs branch).length := by
    have htwo := hwell.two_arms
    by_cases h0 : i = 0
    · exact ⟨1, by omega, by omega⟩
    · exact ⟨0, by omega, by omega⟩
  obtain ⟨j, hji, hj⟩ := hother
  have hj' := getElem?_eq_getElem hj
  have hnot : n ∉ backwardCone g order (g.inputs branch)[j] := by
    intro hcone
    have hpath := (mem_backwardCone htopo (hin _ (getElem_mem hj)) n).mp hcone
    exact hwell.disjoint j i _ exit hji hj' hexit n ⟨hn.1, hpath⟩ hn
  refine mem_flatMap.mpr ⟨backwardCone g order exit,
    mem_map_of_mem (mem_of_getElem? hexit), mem_filter.mpr ⟨?_, ?_⟩⟩
  · exact (mem_backwardCone htopo (hin exit (mem_of_getElem? hexit)) n).mpr hn.2
  · rw [Bool.and_eq_true, decide_eq_true_eq, any_eq_true]
    refine ⟨fun hshared => ?_, diverge, hread, decide_eq_true ?_⟩
    · exact hnot ((BranchArms.mem_shared hne).mp hshared _
        (mem_map_of_mem (getElem_mem hj)))
    · refine (BranchArms.mem_shared hne).mpr fun c hc => ?_
      obtain ⟨e, he, rfl⟩ := mem_map.mp hc
      exact (mem_backwardCone htopo (hin e he) diverge).mpr (hwell.diverges e he).to_reflTransGen

/-- A run with a node inside an arm begins inside that arm. -/
theorem entry_interior (hexit : (g.inputs branch)[i]? = some exit) {r : Run}
    (hr : r ∈ runsOf g order) (hnr : n ∈ r.members) (hn : Interior g diverge exit n) :
    Interior g diverge exit r.entry := by
  have hord : ∀ {m}, ReflTransGen (Precedes g.inputs) m exit → m ∈ order := by
    intro m hpath
    refine (htopo.mem m).mpr (((htopo.mem exit).mp ?_).ancestor hpath)
    exact htopo.input_mem hmem (mem_of_getElem? hexit)
  refine head_of_isChain ?_ r.nonempty (runsOf_straight g order hr) hnr hn
  intro a b hab hb
  have hinputs := hab.inputs_eq htopo (hord hb.2)
  have hedge : a ∈ g.inputs b := by rw [hinputs]; exact mem_singleton_self a
  obtain ⟨c, hdc, hcb⟩ := TransGen.tail'_iff.mp hb.1
  have hca : c ∈ g.inputs b := hcb
  rw [hinputs, mem_singleton] at hca
  subst hca
  rcases reflTransGen_iff_eq_or_transGen.mp hdc with rfl | hpath
  · -- straight from the diverge point: `b` would have begun its run
    exact absurd (mem_computeArmEntries htopo hwell hmem hexit hb hedge) hab.not_arm
  · exact ⟨hpath, .head hedge hb.2⟩

/-- **No interior node of an arm not taken is kept.** -/
theorem interior_not_kept {picked : PickedRoute} (hi : i ≠ chosenArm g picked branch)
    (hexit : (g.inputs branch)[i]? = some exit) (hn : Interior g diverge exit n) :
    n ∉ keptNodes g order picked := by
  intro hkept
  obtain ⟨r, hr, hnr, hentry⟩ := mem_keptNodes.mp hkept
  have hint := entry_interior htopo hwell hmem hexit hr hnr hn
  have hchosen := getElem?_eq_getElem (chosenArm_lt picked hwell.two_arms)
  refine hentry ((mem_nonChosenArmNodes htopo).mpr ⟨branch, hmem, hwell.isBranch, hwell.two_arms, i,
    exit, _, hi, hexit, hchosen, hint.2, fun hpath => ?_⟩)
  exact hwell.disjoint i _ exit _ hi hexit hchosen _ hint ⟨hint.1, hpath⟩

end Arms

/-! ## Executable routes -/

/-- `y` merges a branch whose arm 0 ends in `x`; the arm the route takes ends in `e`. -/
def MergeRead (g : Graph) (picked : PickedRoute) (y x e : NodeId) : Prop :=
  ∃ b, g.branchAt b = some y ∧ (g.inputs b)[0]? = some x ∧
    (g.inputs b)[chosenArm g picked b]? = some e

/-- A list the executor can run for a route: every node once, the roots among
them, each after what it reads, and nothing from inside an arm not taken. -/
structure Executable (g : Graph) (branches : List (NodeId × NodeId)) (roots : List NodeId)
    (picked : PickedRoute) (lowered : List NodeId) : Prop where
  nodup : lowered.Nodup
  roots_emitted : ∀ r ∈ roots, r ∈ lowered
  inputs_ready : ∀ y ∈ lowered, ∀ x ∈ g.inputs y, Before lowered x y ∨
    ∃ e, MergeRead g picked y x e ∧ Before lowered e y
  others_skipped : ∀ b ∈ branches, ∀ i exit, i ≠ chosenArm g picked b.1 →
    (g.inputs b.1)[i]? = some exit → ∀ n, Interior g b.2 exit n → n ∉ lowered

/-- Roots that are no branch nodes and lie inside no arm, exits included. -/
def RootsOutside (g : Graph) (branches : List (NodeId × NodeId)) (roots : List NodeId) : Prop :=
  ∀ r ∈ roots, g.branchAt r = none ∧
    ∀ b ∈ branches, ∀ exit ∈ g.inputs b.1, ¬ Interior g b.2 exit r

/-- What a node reads among the nodes kept. -/
def keptInputs (g : Graph) (order : List NodeId) (picked : PickedRoute) (id : NodeId) :
    List NodeId :=
  (g.inputs id).filter fun i => decide (i ∈ keptNodes g order picked)

/-- What the graph has to provide for the kept nodes to be executable. -/
structure RouteClosed (g : Graph) (branches : List (NodeId × NodeId)) (roots order : List NodeId)
    (picked : PickedRoute) : Prop where
  roots_kept : ∀ r ∈ roots, r ∈ keptNodes g order picked
  reads_kept : ∀ y ∈ keptNodes g order picked, ∀ x ∈ g.inputs y, x ∈ keptNodes g order picked ∨
    ∃ e ∈ keptNodes g order picked, MergeRead g picked y x e ∧
      (TransGen (Precedes (keptInputs g order picked)) e y ∨
        SingleDevice g (keptNodes g order picked) ∧ Before order e y)
  others_left_out : ∀ b ∈ branches, b.1 ∉ order → ∀ i exit, i ≠ chosenArm g picked b.1 →
    (g.inputs b.1)[i]? = some exit → ∀ n, Interior g b.2 exit n → n ∉ keptNodes g order picked

section Routes

variable {g : Graph} {branches : List (NodeId × NodeId)} {roots seeds order : List NodeId}
  {picked : PickedRoute}

/-- Lowering rearranges the kept nodes. -/
theorem lowerRuns_kept_perm (picked : PickedRoute) (htopo : IsTopoOrder g seeds order)
    (hsched : Schedules g.inputs order) :
    (lowerRuns g (keptRuns g order picked)).Perm (keptNodes g order picked) :=
  lowerRuns_perm (runList_of_sublist htopo hsched (keptRuns_sublist g order picked))

/-- A closed route is executable, whatever the devices. -/
theorem RouteClosed.executable (h : RouteClosed g branches roots order picked)
    (htopo : IsTopoOrder g seeds order) (hsched : Schedules g.inputs order)
    (hwell : ∀ b ∈ branches, WellBranched g b.1 b.2) :
    Executable g branches roots picked (lowerRuns g (keptRuns g order picked)) := by
  have hsub := keptRuns_sublist g order picked
  have hruns := runList_of_sublist htopo hsched hsub
  have hperm := lowerRuns_kept_perm picked htopo hsched
  have hnd := hperm.nodup_iff.mpr hruns.nodup
  have hlow : Schedules (keptInputs g order picked) (lowerRuns g (keptRuns g order picked)) :=
    lowerRuns_schedules hruns
  constructor
  case nodup => exact hnd
  case roots_emitted => exact fun r hr => hperm.mem_iff.mpr (h.roots_kept r hr)
  case inputs_ready =>
    intro y hy x hx
    rcases h.reads_kept y (hperm.mem_iff.mp hy) x hx with hkept | ⟨e, he, hmerge, hfirst⟩
    · exact .inl (hlow.before hy (mem_filter.mpr ⟨hx, decide_eq_true hkept⟩))
    · refine .inr ⟨e, hmerge, ?_⟩
      rcases hfirst with hpath | ⟨hdev, hbefore⟩
      · exact hlow.before_of_transGen hnd hy hpath
      · rw [lowerRuns_singleDevice hsub hdev]
        exact hbefore.of_sublist_of_mem htopo.nodup (flatten_sublist_order hsub) he
          (hperm.mem_iff.mp hy)
  case others_skipped =>
    intro b hb i exit hi hexit n hn hlowered
    have hkept := hperm.mem_iff.mp hlowered
    by_cases hmem : b.1 ∈ order
    · exact interior_not_kept htopo (hwell b hb) hmem hi hexit hn hkept
    · exact h.others_left_out b hb hmem i exit hi hexit n hn hkept

/-- On one device an executable route is closed. -/
theorem Executable.routeClosed
    (hdev : SingleDevice g (keptNodes g order picked))
    (h : Executable g branches roots picked (lowerRuns g (keptRuns g order picked))) :
    RouteClosed g branches roots order picked := by
  have hsub := keptRuns_sublist g order picked
  have hflat : lowerRuns g (keptRuns g order picked) = keptNodes g order picked :=
    lowerRuns_singleDevice hsub hdev
  rw [hflat] at h
  constructor
  case roots_kept => exact h.roots_emitted
  case reads_kept =>
    intro y hy x hx
    rcases h.inputs_ready y hy x hx with hbefore | ⟨e, hmerge, hbefore⟩
    · exact .inl hbefore.mem_left
    · exact .inr ⟨e, hbefore.mem_left, hmerge,
        .inr ⟨hdev, hbefore.of_sublist (flatten_sublist_order hsub)⟩⟩
  case others_left_out => exact fun b hb _ => h.others_skipped b hb

/-- Members of runs are the nodes of the walk, branches apart. -/
theorem mem_run_iff {n : NodeId} :
    (∃ r ∈ runsOf g order, n ∈ r.members) ↔ n ∈ order ∧ g.branchAt n = none := by
  have hflat : n ∈ (membersOf (runsOf g order)).flatten ↔ n ∈ order ∧ g.branchAt n = none := by
    rw [flatten_runsOf, mem_filter, Option.isNone_iff_eq_none]
  rw [← hflat]
  simp [membersOf]

/-- A node of the walk the route does not skip. -/
def Unskipped (g : Graph) (order : List NodeId) (picked : PickedRoute) (n : NodeId) : Prop :=
  n ∈ order ∧ g.branchAt n = none ∧ n ∉ nonChosenArmNodes g order picked

/-- The same asked of the nodes of the walk, without the runs: what is not
skipped reads what is not skipped, merge nodes apart. -/
structure UnskippedClosed (g : Graph) (branches : List (NodeId × NodeId))
    (roots order : List NodeId) (picked : PickedRoute) : Prop where
  roots_unskipped : ∀ r ∈ roots, Unskipped g order picked r
  reads_unskipped : ∀ y, Unskipped g order picked y → ∀ x ∈ g.inputs y, Unskipped g order picked x ∨
    ∃ e, Unskipped g order picked e ∧ MergeRead g picked y x e ∧
      (TransGen (fun a b => a ∈ g.inputs b ∧ Unskipped g order picked a) e y ∨
        (∀ a b, Unskipped g order picked a → Unskipped g order picked b →
          g.targetBackends a = g.targetBackends b) ∧ Before order e y)
  others_outside : ∀ b ∈ branches, b.1 ∉ order → ∀ i exit, i ≠ chosenArm g picked b.1 →
    (g.inputs b.1)[i]? = some exit → ∀ n, Interior g b.2 exit n → n ∉ order

namespace UnskippedClosed

/-- Then no run crosses out of a skipped part, so what is not skipped is kept. -/
theorem kept (h : UnskippedClosed g branches roots order picked)
    (htopo : IsTopoOrder g seeds order)
    (hwalk : ∀ b, participates g order b = true → b ∈ order) {n : NodeId}
    (hn : Unskipped g order picked n) : n ∈ keptNodes g order picked := by
  obtain ⟨r, hr, hnr⟩ := mem_run_iff.mpr ⟨hn.1, hn.2.1⟩
  have hentry : Unskipped g order picked r.entry := by
    refine head_of_isChain ?_ r.nonempty (runsOf_straight g order hr) hnr hn
    intro a b hab hb
    have hin : a ∈ g.inputs b := by
      rw [hab.inputs_eq htopo hb.1]
      exact mem_singleton_self a
    rcases h.reads_unskipped b hb a hin with ha | ⟨e, -, ⟨c, hc, -⟩, -⟩
    · exact ha
    · -- a merge node begins its run
      have hcord : c ∈ order := hwalk c (by simp [participates, hc, hb.1])
      exact absurd (mem_filterMap.mpr ⟨c, hcord, hc⟩) hab.not_reconverge
  exact mem_keptNodes.mpr ⟨r, hr, hnr, hentry.2.2⟩

/-- A kept node is on the device of an unskipped one, the first of its run. -/
theorem singleDevice (hdev : ∀ a b, Unskipped g order picked a → Unskipped g order picked b →
    g.targetBackends a = g.targetBackends b) : SingleDevice g (keptNodes g order picked) := by
  have hentry : ∀ a ∈ keptNodes g order picked, ∃ m, Unskipped g order picked m ∧
      g.targetBackends a = g.targetBackends m := by
    intro a ha
    obtain ⟨r, hr, har, hskip⟩ := mem_keptNodes.mp ha
    have hmem : r.entry ∈ r.members := head_mem r.nonempty
    obtain ⟨hord, hbranch⟩ := mem_run_iff.mp ⟨r, hr, hmem⟩
    refine ⟨r.entry, ⟨hord, hbranch, hskip⟩, ?_⟩
    rw [runsOf_device g order hr har, runsOf_device g order hr hmem]
  intro a ha b hb
  obtain ⟨m, hm, hma⟩ := hentry a ha
  obtain ⟨m', hm', hmb⟩ := hentry b hb
  rw [hma, hmb]
  exact hdev m m' hm hm'

/-- **A route closed on the nodes of the walk is closed on the nodes kept.** -/
theorem routeClosed (h : UnskippedClosed g branches roots order picked)
    (htopo : IsTopoOrder g seeds order)
    (hwalk : ∀ b, participates g order b = true → b ∈ order) :
    RouteClosed g branches roots order picked := by
  constructor
  case roots_kept => exact fun r hr => h.kept htopo hwalk (h.roots_unskipped r hr)
  case reads_kept =>
    intro y hy x hx
    obtain ⟨r, hr, hyr, hentry⟩ := mem_keptNodes.mp hy
    obtain ⟨hyo, hyb⟩ := mem_run_iff.mp ⟨r, hr, hyr⟩
    by_cases hskip : y ∈ nonChosenArmNodes g order picked
    · -- a skipped node in a kept run reads the node before it in the run
      have hne : y ≠ r.entry := fun heq => hentry (heq ▸ hskip)
      obtain ⟨a, har, hay⟩ := exists_link_of_isChain r.nonempty (runsOf_straight g order hr) hyr hne
      rw [hay.inputs_eq htopo hyo, mem_singleton] at hx
      subst hx
      exact .inl (mem_keptNodes.mpr ⟨r, hr, har, hentry⟩)
    rcases h.reads_unskipped y ⟨hyo, hyb, hskip⟩ x hx with hx | ⟨e, he, hmerge, hfirst⟩
    · exact .inl (h.kept htopo hwalk hx)
    · refine .inr ⟨e, h.kept htopo hwalk he, hmerge, ?_⟩
      rcases hfirst with hpath | ⟨hdev, hbefore⟩
      · refine .inl (TransGen.mono ?_ _ _ hpath)
        exact fun a b hab => mem_filter.mpr
          ⟨hab.1, decide_eq_true (h.kept htopo hwalk hab.2)⟩
      · exact .inr ⟨singleDevice hdev, hbefore⟩
  case others_left_out =>
    intro b hb hnot i exit hi hexit n hn hkept
    obtain ⟨r, hr, hnr, -⟩ := mem_keptNodes.mp hkept
    exact h.others_outside b hb hnot i exit hi hexit n hn (mem_run_iff.mp ⟨r, hr, hnr⟩).1

end UnskippedClosed

end Routes

/-- **When a picked route is executable.** For an arena built by appending
nodes and finalizing branches, any route and any roots in the arena, the
lowering returns a list without repeats in which no interior node of an arm not
taken appears, for any branch of the walk. The list is executable when what the
route does not skip is closed; on one device it is executable exactly when what
the runs keep is closed. -/
theorem picked_route_executable (g : Graph) (branches : List (NodeId × NodeId))
    (hbuilt : Built g branches) (roots : List NodeId) (hroots : ∀ r ∈ roots, r < g.len)
    (picked : PickedRoute) :
    ∃ order lowered, routeOrder g roots = some order ∧
      lowerPickedRoute g roots picked = some lowered ∧ lowered.Nodup ∧
      (∀ b ∈ branches, b.1 ∈ order → ∀ i exit, i ≠ chosenArm g picked b.1 →
        (g.inputs b.1)[i]? = some exit → ∀ n, Interior g b.2 exit n → n ∉ lowered) ∧
      (UnskippedClosed g branches roots order picked →
        Executable g branches roots picked lowered) ∧
      (SingleDevice g (keptNodes g order picked) →
        (Executable g branches roots picked lowered ↔
          RouteClosed g branches roots order picked)) := by
  have hspec := hbuilt.spec
  obtain ⟨seeds, order, -, hroute, horder, -, hwalk⟩ :=
    routeOrder_returns hspec.ordered.lt_len hroots
  have htopo := topoOrderMulti_spec horder
  have hsched := topoOrderMulti_schedules (hspec.ordered.acyclic.acyclicFrom seeds) horder
  have hperm := lowerRuns_kept_perm picked htopo hsched
  have hruns := runList_of_sublist htopo hsched (keptRuns_sublist g order picked)
  have hsuff := fun h : RouteClosed g branches roots order picked =>
    h.executable htopo hsched hspec.wellBranched
  refine ⟨order, _, hroute, lowerPickedRoute_eq hroute picked, hperm.nodup_iff.mpr hruns.nodup,
    ?_, fun h => hsuff (h.routeClosed htopo hwalk),
    fun hdev => ⟨Executable.routeClosed hdev, hsuff⟩⟩
  intro b hb hmem i exit hi hexit n hn hlowered
  exact interior_not_kept htopo (hspec.wellBranched b hb) hmem hi hexit hn
    (hperm.mem_iff.mp hlowered)

/-! ## Small graphs -/

/-- Roots newer than every arm's exit are outside the arms. -/
theorem rootsOutside_of_lt {branches : List (NodeId × NodeId)} {roots : List NodeId}
    (hbuilt : Built g branches)
    (h : ∀ r ∈ roots, g.branchAt r = none ∧ ∀ b ∈ branches, ∀ exit ∈ g.inputs b.1, exit < r) :
    RootsOutside g branches roots := by
  intro r hr
  refine ⟨(h r hr).1, fun b hb exit hexit hint => ?_⟩
  have hle := hbuilt.spec.ordered.le_of_path hint.2
  exact Nat.not_lt.mpr hle ((h r hr).2 b hb exit hexit)

/-- Two arms, `relu d` and `silu d`, merged by `neg`. -/
def twoArmNodes : Graph where
  nodes := [plainNode .const [], plainNode .relu [0], plainNode .silu [0], plainNode .neg [1]]

def twoArms : Graph := twoArmNodes.push (plainNode (.branch 3) [1, 2])

/-- A branch over two arms, the first of which ends in a plain node. -/
theorem built_twoArms {branches : List (NodeId × NodeId)} {diverge arm₀ arm₁ reconvergeAt : NodeId}
    {op : Op} {inputs : List NodeId} (h : Built g branches)
    (hok : ((((openBranch diverge).addArm arm₀).addArm arm₁).finalizeBranches g reconvergeAt).map
      (·.2) = .ok (some g.len)) (hwant : g.nodes[arm₀]? = some (plainNode op inputs)) :
    Built (g.push (plainNode (.branch reconvergeAt) [arm₀, arm₁]))
      (branches ++ [(g.len, diverge)]) :=
  h.branch hok rfl hwant

theorem twoArms_built : Built twoArms [(4, 0)] :=
  built_twoArms (.of_branchless (by decide +kernel)) (by decide +kernel) rfl

/-- Taking the second arm: the merge node comes after that arm's exit. -/
theorem second_arm_taken : lowerPickedRoute twoArms [3] (fun _ => some 1) = some [0, 2, 3] ∧
    Executable twoArms [(4, 0)] [3] (fun _ => some 1) [0, 2, 3] := by
  have hlow : lowerPickedRoute twoArms [3] (fun _ => some 1) = some [0, 2, 3] := by decide +kernel
  obtain ⟨order, lowered, hroute, hlow', -, -, hsuff, -⟩ :=
    picked_route_executable twoArms [(4, 0)] twoArms_built [3] (by decide +kernel)
      (fun _ => some 1)
  obtain rfl : [0, 2, 3] = lowered := Option.mem_unique hlow hlow'
  have horder : routeOrder twoArms [3] = some [0, 2, 1, 4, 3] := by decide +kernel
  obtain rfl : [0, 2, 1, 4, 3] = order := Option.mem_unique horder hroute
  refine ⟨hlow, hsuff ?_⟩
  constructor
  case roots_unskipped => unfold Unskipped; decide +kernel
  case reads_unskipped =>
    have hreads : ∀ y ∈ [0, 2, 1, 4, 3], twoArms.branchAt y = none →
        y ∉ nonChosenArmNodes twoArms [0, 2, 1, 4, 3] (fun _ => some 1) → ∀ x ∈ twoArms.inputs y,
          Unskipped twoArms [0, 2, 1, 4, 3] (fun _ => some 1) x ∨ y = 3 ∧ x = 1 := by
      unfold Unskipped
      decide +kernel
    intro y hy x hx
    refine (hreads y hy.1 hy.2.1 hy.2.2 x hx).imp_right ?_
    rintro ⟨rfl, rfl⟩
    -- the merge node's read of the first arm is answered by the second
    exact ⟨2, by unfold Unskipped; decide +kernel,
      ⟨4, by decide +kernel, by decide +kernel, by decide +kernel⟩,
      .inr ⟨fun _ _ _ _ => rfl, by decide⟩⟩
  case others_outside =>
    intro b hb hnot
    rw [mem_singleton.mp hb] at hnot
    exact absurd (by decide) hnot

/-- One branch; the constant `w` of its second arm is read after the merge too. -/
def privateConstantNodes : Graph where
  nodes := [plainNode .const [], plainNode .relu [0], plainNode .const [], plainNode .relu [1],
    plainNode .add [1, 2], plainNode .relu [3], plainNode .add [5, 2]]

def privateConstant : Graph := privateConstantNodes.push (plainNode (.branch 5) [3, 4])

/-- Two branches, the second leaving from where the first merges. -/
def chainedNodes : Graph where
  nodes := [plainNode .const [], plainNode .relu [0], plainNode .silu [0], plainNode .neg [1],
    plainNode .relu [3], plainNode .silu [3], plainNode .neg [4]]

def chained : Graph :=
  (chainedNodes.push (plainNode (.branch 3) [1, 2])).push (plainNode (.branch 6) [4, 5])

theorem privateConstant_built : Built privateConstant [(7, 1)] :=
  built_twoArms (.of_branchless (by decide +kernel)) (by decide +kernel) rfl

theorem chained_built : Built chained [(7, 0), (8, 3)] := by
  have hfirst : Built (chainedNodes.push (plainNode (.branch 3) [1, 2])) [(7, 0)] :=
    built_twoArms (.of_branchless (by decide +kernel)) (by decide +kernel) rfl
  exact built_twoArms hfirst (by decide +kernel) rfl

/-- With the default route the constant is dropped with the second arm and the
last node misses it; and in the chain, taking the first branch's second arm,
the first merge runs before that arm. -/
theorem picked_route_misses_inputs :
    (Built privateConstant [(7, 1)] ∧ RootsOutside privateConstant [(7, 1)] [6] ∧
      lowerPickedRoute privateConstant [6] (fun _ => none) = some [0, 1, 3, 5, 6] ∧
      ¬ Executable privateConstant [(7, 1)] [6] (fun _ => none) [0, 1, 3, 5, 6]) ∧
    (Built chained [(7, 0), (8, 3)] ∧ RootsOutside chained [(7, 0), (8, 3)] [6] ∧
      lowerPickedRoute chained [6] (fun b => if b = 7 then some 1 else none) =
        some [0, 3, 4, 2, 6] ∧
      ¬ Executable chained [(7, 0), (8, 3)] [6] (fun b => if b = 7 then some 1 else none)
        [0, 3, 4, 2, 6]) := by
  refine ⟨⟨privateConstant_built, ?_, by decide +kernel, fun h => ?_⟩,
    ⟨chained_built, ?_, by decide +kernel, fun h => ?_⟩⟩
  · exact rootsOutside_of_lt privateConstant_built (by decide +kernel)
  · -- node 6 reads the constant and is no merge node
    rcases h.inputs_ready 6 (by decide) 2 (by decide +kernel) with hbefore | ⟨e, ⟨b, hb, -⟩, -⟩
    · exact absurd hbefore (by decide)
    · have hnone : ∀ b < privateConstant.len, privateConstant.branchAt b ≠ some 6 := by
        decide +kernel
      exact hnone b (Graph.lt_len_of_branchAt hb) hb
  · exact rootsOutside_of_lt chained_built (by decide +kernel)
  -- node 3 merges the first branch only, whose second arm ends in node 2
  rcases h.inputs_ready 3 (by decide) 1 (by decide +kernel) with
    hbefore | ⟨e, ⟨b, hb, -, hchosen⟩, hbefore⟩
  · exact absurd hbefore (by decide)
  · have honly : ∀ b < chained.len, chained.branchAt b = some 3 →
        (chained.inputs b)[chosenArm chained (fun b => if b = 7 then some 1 else none) b]? =
          some 2 := by decide +kernel
    have hexit := honly b (Graph.lt_len_of_branchAt hb) hb
    obtain rfl : e = 2 := Option.mem_unique hchosen hexit
    exact absurd hbefore (by decide)

end Fuel.IR
