import Fuel.IR.Rewiring

/-!
# When safety copies break every cycle

On a graph without aliasing ops the pass redirects a reader of a destroyed
tensor exactly when the op that destroys it is forced to run first. What
remains of the ordering edges is read off the old graph: the first op to
destroy a tensor keeps the tensor and the pins that close no cycle, and all
later ones, with every reader that must run after the first, share the first
op's copy. They still wait for each other's readers there, through `latePins`,
and a cycle through those waits is one the pass leaves behind.
-/

namespace Fuel.IR

open Fuel.DepGraph Relation List

/-! ## The combined graph without aliasing ops -/

section Combined

variable {g : Graph} {roots order : List NodeId} (htopo : IsTopoOrder g roots order)

include htopo

/-- Without aliases a node waits for its inputs and for the other readers of what it destroys. -/
theorem mem_precedence (hsched : Schedules g.inputs order) (hfree : g.AliasFree) {a b : NodeId} :
    a ∈ precedence g order b ↔ a ∈ g.inputs b ∨
      ∃ x, g.destroyed b = some x ∧ a ∈ order ∧ x ∈ g.inputs a ∧ a ≠ b := by
  have hroot : ∀ id, (aliasGroups g order).root id = id := fun id =>
    root_of_aliasInput_none (aliasGroups_inv htopo.nodup hsched) (hfree.aliasInput id)
  rw [precedence, mem_append, mem_pins htopo hsched]
  refine or_congr_right ?_
  constructor
  · rintro ⟨x, i, hx, hao, hi, hne, heq, -⟩
    rw [hroot, hroot] at heq
    exact ⟨x, hx, hao, heq ▸ hi, hne⟩
  · rintro ⟨x, hx, hao, hi, hne⟩
    refine ⟨x, x, hx, hao, hi, hne, rfl, ?_⟩
    rw [hroot, hroot]
    rintro rfl
    exact hsched.no_cycle htopo.nodup hao (.single hi)

theorem mem_combinedSucc {a b : NodeId} :
    b ∈ combinedSucc g order a ↔ b ∈ order ∧ a ∈ precedence g order b := by
  rw [combinedSucc, mem_dependents]
  exact and_congr_right fun hb => mem_planPreds htopo hb

variable {d : NodeId}

/-- The second search follows the combined graph. -/
theorem mem_forcedAfter {m : NodeId} (hm : m ∈ order) :
    m ∈ reach (combinedSucc g order) order d ↔ TransGen (Precedes (precedence g order)) d m := by
  rw [mem_reach fun a b hb => ((mem_combinedSucc htopo).mp hb).1]
  constructor
  · intro hpath
    refine TransGen.mono ?_ _ _ hpath
    exact fun a b hab => ((mem_combinedSucc htopo).mp hab).2
  · intro hpath
    induction hpath with
    | single h₁ => exact .single ((mem_combinedSucc htopo).mpr ⟨hm, h₁⟩)
    | tail _ h₁ ih =>
      exact (ih (precedence_mem htopo hm h₁)).tail ((mem_combinedSucc htopo).mpr ⟨hm, h₁⟩)

/-- **The readers that get the copy** are those the destructive op is forced to run before. -/
theorem mem_conflictingReaders (hsched : Schedules g.inputs order) (hfree : g.AliasFree)
    {t m : NodeId} (hd : d ∈ order) (ht : g.destroyed d = some t) :
    m ∈ conflictingReaders g order d t ↔
      m ∈ order ∧ m ≠ d ∧ t ∈ g.inputs m ∧ TransGen (Precedes (precedence g order)) d m := by
  unfold conflictingReaders
  simp only [mem_filter, Bool.and_eq_true, decide_eq_true_eq, Bool.not_eq_true',
    Bool.and_eq_false_iff, decide_eq_false_iff_not, not_not]
  constructor
  · rintro ⟨hm, ⟨hne, hread⟩, hnot⟩
    refine ⟨hm, hne, hread, ?_⟩
    rcases hnot with hnot | hafter
    · -- every reader is forced before the op, by its own pin
      refine absurd ?_ hnot
      have hpin := (mem_precedence htopo hsched hfree).mpr (.inr ⟨t, ht, hm, hread, hne⟩)
      have hsupp : ∀ a, ∀ b ∈ combinedPred g order a, b ∈ order := fun a b hb =>
        of_decide_eq_true (mem_filter.mp hb).2
      rw [mem_reach hsupp]
      exact .single ((mem_planPreds htopo hd).mpr hpin)
    · exact (mem_forcedAfter htopo hm).mp hafter
  · rintro ⟨hm, hne, hread, hpath⟩
    exact ⟨hm, ⟨hne, hread⟩, .inr ((mem_forcedAfter htopo hm).mpr hpath)⟩

/-- An op with such readers has a conflict: the early test never hides one. -/
theorem exists_conflictOf {t : NodeId} (hd : d ∈ order) (ht : g.destroyed d = some t)
    (hne : conflictingReaders g order d t ≠ []) :
    ∃ c, conflictOf g order d = some c ∧ c.destructive = d ∧ c.target = t ∧
      c.readers = conflictingReaders g order d t := by
  have htord := htopo.input_mem hd (Graph.destroyed_mem_inputs ht)
  have hnode := getElem?_eq_getElem (htopo.lt_len t htord)
  have hother : (combinedSucc g order t).any (fun r => decide (r ≠ d)) = true := by
    obtain ⟨m, hm⟩ := exists_mem_of_ne_nil _ hne
    have hmem := mem_filter.mp hm
    simp only [Bool.and_eq_true, decide_eq_true_eq] at hmem
    obtain ⟨hmord, ⟨hmd, hread⟩, -⟩ := hmem
    rw [any_eq_true]
    exact ⟨m, (mem_combinedSucc htopo).mpr ⟨hmord, mem_append_left _ hread⟩, by simpa using hmd⟩
  unfold conflictOf
  rw [ht]
  simp only [Option.bind_eq_bind, Option.bind_some, hother, not_true_eq_false, and_false, if_false,
    hne, hnode]
  exact ⟨_, rfl, rfl, rfl, rfl⟩

end Combined

/-! ## The waits the pass leaves -/

/-- The first reachable op that destroys `t`. -/
def firstDestroyer (g : Graph) (order : List NodeId) (t : NodeId) : Option NodeId :=
  order.find? fun d => decide (g.destroyed d = some t)

/-- What an op waits for when it destroys a tensor that an earlier op destroys
too: the tensor's other readers, the earliest destroyer apart. -/
def latePins (g : Graph) (order : List NodeId) (id : NodeId) : List NodeId :=
  match g.destroyed id with
  | none => []
  | some t =>
    if firstDestroyer g order t = some id then []
    else order.filter fun r =>
      decide (t ∈ g.inputs r) && decide (r ≠ id) && decide (firstDestroyer g order t ≠ some r)

/-- Inputs and late pins. -/
def latePrecedence (g : Graph) (order : List NodeId) (id : NodeId) : List NodeId :=
  g.inputs id ++ latePins g order id

variable {g : Graph} {order roots : List NodeId} {t : NodeId}

theorem mem_latePins {a b : NodeId} :
    a ∈ latePins g order b ↔ ∃ t, g.destroyed b = some t ∧ firstDestroyer g order t ≠ some b ∧
      a ∈ order ∧ t ∈ g.inputs a ∧ a ≠ b ∧ firstDestroyer g order t ≠ some a := by
  unfold latePins
  cases ht : g.destroyed b with
  | none => simp
  | some t =>
    by_cases hfirst : firstDestroyer g order t = some b
    · simp [hfirst]
    · simp [hfirst, and_assoc]

theorem firstDestroyer_spec {d : NodeId} (h : firstDestroyer g order t = some d) :
    d ∈ order ∧ g.destroyed d = some t := by
  have hp := find?_some (p := fun d => decide (g.destroyed d = some t)) h
  exact ⟨mem_of_find?_eq_some h, of_decide_eq_true hp⟩

theorem exists_firstDestroyer {d : NodeId} (hd : d ∈ order) (ht : g.destroyed d = some t) :
    ∃ d₀, firstDestroyer g order t = some d₀ := by
  rw [← Option.isSome_iff_exists, firstDestroyer, find?_isSome]
  exact ⟨d, hd, by simpa using ht⟩

/-- The first op to destroy a tensor makes the copy its conflicting readers get. -/
theorem rewire_firstDestroyer (htopo : IsTopoOrder g roots order) {d₀ : NodeId}
    (hfirst : firstDestroyer g order t = some d₀) (hne : conflictingReaders g order d₀ t ≠ []) :
    ∃ j c, (conflicts g order)[j]? = some c ∧ c.destructive = d₀ ∧ c.target = t ∧
      ∀ m ∈ conflictingReaders g order d₀ t,
        rewire g.len (conflicts g order) m t = g.len + j := by
  obtain ⟨hd₀, ht⟩ := firstDestroyer_spec hfirst
  obtain ⟨c, hc, hcd, hct, hcr⟩ := exists_conflictOf htopo hd₀ ht hne
  obtain ⟨-, p, q, hsplit, hbefore⟩ := find?_eq_some_iff_append.mp hfirst
  have hcs : conflicts g order = p.filterMap (conflictOf g order) ++
      c :: q.filterMap (conflictOf g order) := by
    have happ : ∀ l, l = p ++ d₀ :: q → l.filterMap (conflictOf g order) =
        p.filterMap (conflictOf g order) ++ c :: q.filterMap (conflictOf g order) := by
      rintro l rfl
      rw [filterMap_append, filterMap_cons_some hc]
    exact happ order hsplit
  have hget : (conflicts g order)[(p.filterMap (conflictOf g order)).length]? = some c := by
    rw [hcs]
    simp
  refine ⟨_, c, hget, hcd, hct, fun m hm => ?_⟩
  rw [← hct]
  refine rewire_eq_of_first hget (hcr ▸ hm) fun k hk c' hc' htarget => ?_
  -- an earlier conflict belongs to an op before `d₀`, which destroys something else
  rw [hcs, getElem?_append_left hk] at hc'
  obtain ⟨x, hx, hxc⟩ := mem_filterMap.mp (mem_of_getElem? hc')
  have hxt := (conflictOf_spec hxc).2.1
  have hno := hbefore x hx
  rw [hxt, htarget, hct] at hno
  simp at hno

/-! ## One call of the pass -/

/-- One call of the pass, with the topological orders before and after. -/
structure SafetyPass (g : Graph) (roots order : List NodeId) (g' : Graph) (order' : List NodeId) :
    Prop extends RewiredFrom g roots order (conflicts g order) g' where
  free : g.AliasFree
  topo' : IsTopoOrder g' roots order'
  schedules' : Schedules g'.inputs order'

/-- A pin that closes no cycle. -/
def KeptPin (g : Graph) (order : List NodeId) (a b : NodeId) : Prop :=
  Precedes (precedence g order) a b ∧ ¬ TransGen (Precedes (precedence g order)) b a

namespace SafetyPass

variable {g g' : Graph} {roots order order' : List NodeId} {a b t : NodeId}
  (h : SafetyPass g roots order g' order')

include h

theorem pinned (ht : g.destroyed b = some t) (ha : a ∈ order) (hread : t ∈ g.inputs a) (hne : a ≠ b) :
    Precedes (precedence g order) a b :=
  (mem_precedence h.topo h.schedules h.free).mpr (.inr ⟨t, ht, ha, hread, hne⟩)

theorem mem_readers {d m : NodeId} (hd : d ∈ order) (ht : g.destroyed d = some t) :
    m ∈ conflictingReaders g order d t ↔ m ∈ order ∧ m ≠ d ∧ t ∈ g.inputs m ∧
      TransGen (Precedes (precedence g order)) d m :=
  mem_conflictingReaders h.topo h.schedules h.free hd ht

/-- A conflict belongs to a reachable op, whose readers it lists. -/
theorem conflict_spec {c : Conflict} (hc : c ∈ conflicts g order) : c.destructive ∈ order ∧
      g.destroyed c.destructive = some c.target ∧
      ∀ m, m ∈ c.readers ↔ m ∈ order ∧ m ≠ c.destructive ∧ c.target ∈ g.inputs m ∧
        TransGen (Precedes (precedence g order)) c.destructive m := by
  obtain ⟨id, hid, hcid⟩ := mem_filterMap.mp hc
  obtain ⟨rfl, ht, -, hreaders, -⟩ := conflictOf_spec hcid
  refine ⟨hid, ht, fun m => ?_⟩
  rw [hreaders]
  exact h.mem_readers hid ht

/-- Two nodes that share a copy share the first destroyer's, and neither of
them is that op. -/
theorem shared_copy {j : Nat} {c : Conflict} (ht : g.destroyed b = some t) (hne : a ≠ b)
    (hc : (conflicts g order)[j]? = some c) (hct : c.target = t) (ha : a ∈ c.readers)
    (hb : b ∈ c.readers) (haj : rewire g.len (conflicts g order) a t = g.len + j)
    (hbj : rewire g.len (conflicts g order) b t = g.len + j) : a ∈ latePins g order b := by
  obtain ⟨hd, hdt, hmem⟩ := h.conflict_spec (mem_of_getElem? hc)
  rw [hct] at hdt
  obtain ⟨hao, had, haread, hda⟩ := (hmem a).mp ha
  obtain ⟨hbo, hbd, hbread, hdb⟩ := (hmem b).mp hb
  rw [hct] at haread hbread
  -- whoever is redirected by the first destroyer gets its copy, so `c` is its conflict
  have hfirst : ∀ d₀ m, firstDestroyer g order t = some d₀ →
      rewire g.len (conflicts g order) m t = g.len + j → m ∈ order → m ≠ d₀ → t ∈ g.inputs m →
      TransGen (Precedes (precedence g order)) d₀ m → c.destructive = d₀ := by
    intro d₀ m hd₀ hmj hmo hmne hmread hpath
    obtain ⟨hd₀o, hd₀t⟩ := firstDestroyer_spec hd₀
    have hmr := (h.mem_readers hd₀o hd₀t).mpr ⟨hmo, hmne, hmread, hpath⟩
    obtain ⟨k, c₀, hc₀, hc₀d, -, hall⟩ :=
      rewire_firstDestroyer h.topo hd₀ (ne_nil_of_mem hmr)
    obtain rfl : k = j := Nat.add_left_cancel ((hall m hmr).symm.trans hmj)
    obtain rfl := Option.mem_unique hc hc₀
    exact hc₀d
  refine mem_latePins.mpr ⟨t, ht, ?_, hao, haread, hne, ?_⟩
  · -- were `b` the first destroyer, `a` would have been redirected by `b`
    intro hbfirst
    have hpath := TransGen.head (h.pinned hdt hbo hbread hbd) hda
    exact hbd (hfirst b a hbfirst haj hao hne haread hpath).symm
  · intro hafirst
    have hpath := TransGen.single (h.pinned ht hao haread hne)
    exact had (hfirst a b hafirst hbj hbo (Ne.symm hne) hbread hpath).symm

/-- A pin of the new graph: through a copy it is a data edge, between nodes
that share a copy a late pin, and on the tensor itself a pin that closes no cycle. -/
theorem pin_origin {x' : NodeId} (hb : b ∈ order) (hx' : g'.destroyed b = some x')
    (ha : Known g order (conflicts g order) a) (hread : x' ∈ g'.inputs a) (hne : a ≠ b) :
    origin g (conflicts g order) a ∈ latePrecedence g order b ∨
      KeptPin g order (origin g (conflicts g order) a) b := by
  rw [h.destroyed_old hb, Option.map_eq_some_iff] at hx'
  obtain ⟨x, hx, rfl⟩ := hx'
  have hxb := Graph.destroyed_mem_inputs hx
  have hxlt := h.topo.lt_len x (h.topo.input_mem hb hxb)
  cases ha with
  | copy hc =>
    rw [h.inputs_copy hc, mem_singleton] at hread
    have hmem := h.target_mem _ (mem_of_getElem? hc)
    have horigin : origin g (conflicts g order) (rewire g.len (conflicts g order) b x) = x :=
      origin_rewire hxlt
    rw [hread, origin_old (h.topo.lt_len _ hmem)] at horigin
    rw [origin_copy hc, horigin]
    exact .inl (mem_append_left _ hxb)
  | old ha =>
    rw [origin_old (h.topo.lt_len a ha)]
    obtain ⟨i, hi, heq, horigin, -⟩ := h.mem_inputs_old ha hread
    rw [origin_rewire hxlt] at horigin
    subst horigin
    rcases rewire_cases g.len (conflicts g order) b x with ⟨hbx, hbnot⟩ | ⟨j, c, hc, hct, hbr, hbj, -⟩
    · -- neither is redirected, so no path leads back from `b` to `a`
      right
      refine ⟨h.pinned hx ha hi hne, fun hback => ?_⟩
      have har := (h.mem_readers hb hx).mpr ⟨ha, hne, hi, hback⟩
      obtain ⟨c, hc, -, hct, hcr⟩ := exists_conflictOf h.topo hb hx (ne_nil_of_mem har)
      have hcmem : c ∈ conflicts g order := mem_filterMap.mpr ⟨b, hb, hc⟩
      rcases rewire_cases g.len (conflicts g order) a x with ⟨-, hanot⟩ | ⟨j, c', -, -, -, haj, -⟩
      · exact hanot c hcmem hct (hcr ▸ har)
      · rw [hbx, haj] at heq
        exact Nat.not_lt.mpr (Nat.le_add_right g.len j) (heq ▸ hxlt)
    · rcases rewire_cases g.len (conflicts g order) a x with
        ⟨hax, -⟩ | ⟨k, c', hc', hct', har, hak, -⟩
      · rw [hbj, hax] at heq
        exact absurd (heq ▸ hxlt) (Nat.not_lt.mpr (Nat.le_add_right g.len j))
      · rw [hbj, hak] at heq
        obtain rfl : j = k := Nat.add_left_cancel heq
        obtain rfl := Option.mem_unique hc hc'
        exact .inl (mem_append_right _ (h.shared_copy hx hne hc hct har hbr hak hbj))

/-- The new combined graph, with copies read as the nodes they copy. -/
theorem edge_origin (hb : Known g order (conflicts g order) b) (hab : a ∈ precedence g' order' b) :
    Known g order (conflicts g order) a ∧
      ((origin g (conflicts g order) a ∈ latePrecedence g order (origin g (conflicts g order) b) ∨
          KeptPin g order (origin g (conflicts g order) a) (origin g (conflicts g order) b)) ∨
        origin g (conflicts g order) a = origin g (conflicts g order) b ∧ a ∈ order ∧ b ∉ order)
    := by
  rcases (mem_precedence h.topo' h.schedules' (h.aliasFree h.free)).mp hab with
    hdata | ⟨x', hx', hao', hread, hne⟩
  · obtain ⟨ha, hedge⟩ := h.edge_cases hb hdata
    exact ⟨ha, hedge.imp_left fun hin => .inl (mem_append_left _ hin)⟩
  have ha := h.known_of_needed ((h.topo'.mem a).mp hao')
  refine ⟨ha, .inl ?_⟩
  cases hb with
  | old hb =>
    rw [origin_old (h.topo.lt_len b hb)]
    exact h.pin_origin hb hx' ha hread hne
  | copy hc =>
    rw [h.destroyed_copy hc] at hx'
    cases hx'

/-- Late pins are pins. -/
theorem late_subset (hab : Precedes (latePrecedence g order) a b) :
    Precedes (precedence g order) a b := by
  rcases mem_append.mp hab with hin | hpin
  · exact mem_append_left _ hin
  · obtain ⟨t, ht, -, ha, hread, hne, -⟩ := mem_latePins.mp hpin
    exact h.pinned ht ha hread hne

/-- A cycle left by the pass is a cycle of data edges and late pins. -/
theorem late_cycle (ha : a ∈ order') (hcyc : TransGen (Precedes (precedence g' order')) a a) :
    ∃ n ∈ order, TransGen (Precedes (latePrecedence g order)) n n := by
  have hknown := h.known_of_needed ((h.topo'.mem a).mp ha)
  have hold := RewiredFrom.cycle_origin (R := fun a b =>
    Precedes (latePrecedence g order) a b ∨ KeptPin g order a b)
    (fun _ _ hb hab => h.edge_origin hb hab) hknown hcyc
  refine ⟨_, h.origin_mem hknown, transGen_of_no_return ?_ hold .refl⟩
  -- a kept pin has no way back even in the old combined graph
  intro u v huv hback
  have hmono : ReflTransGen (Precedes (precedence g order)) v u := by
    refine ReflTransGen.mono ?_ _ _ hback
    rintro x y (hxy | hxy)
    · exact h.late_subset hxy
    · exact hxy.1
  rcases Relation.reflTransGen_iff_eq_or_transGen.mp hmono with rfl | hpath
  · exact huv.2 (.single huv.1)
  · exact huv.2 hpath

/-- On a cycle, a late pin is a pin of the new graph. -/
theorem pin_of_late (hb : b ∈ order) (hab : a ∈ latePins g order b)
    (hback : TransGen (Precedes (precedence g order)) b a) :
    Precedes (precedence g' order') a b := by
  obtain ⟨t, ht, hbfirst, ha, hread, hne, hafirst⟩ := mem_latePins.mp hab
  obtain ⟨d₀, hd₀⟩ := exists_firstDestroyer hb ht
  obtain ⟨hd₀o, hd₀t⟩ := firstDestroyer_spec hd₀
  have hbne : b ≠ d₀ := by rintro rfl; exact hbfirst hd₀
  have hane : a ≠ d₀ := by rintro rfl; exact hafirst hd₀
  have hbread := Graph.destroyed_mem_inputs ht
  -- both run after the first destroyer, so both read its copy
  have hstep := h.pinned ht hd₀o (Graph.destroyed_mem_inputs hd₀t) (Ne.symm hbne)
  have hbr := (h.mem_readers hd₀o hd₀t).mpr ⟨hb, hbne, hbread, .single hstep⟩
  have har := (h.mem_readers hd₀o hd₀t).mpr ⟨ha, hane, hread, .head hstep hback⟩
  obtain ⟨j, c, hc, -, -, hall⟩ := rewire_firstDestroyer h.topo hd₀ (ne_nil_of_mem hbr)
  refine (mem_precedence h.topo' h.schedules' (h.aliasFree h.free)).mpr
    (.inr ⟨g.len + j, ?_, (h.topo'.mem a).mpr (h.needed_old ha), ?_, hne⟩)
  · rw [h.destroyed_old hb, ht, Option.map_some, hall b hbr]
  · rw [h.inputs_old ha, ← hall a har]
    exact mem_map_of_mem hread

/-- On a cycle, every data edge and late pin is a path of the new combined graph. -/
theorem path_of_late (hb : b ∈ order) (hab : Precedes (latePrecedence g order) a b)
    (hback : TransGen (Precedes (latePrecedence g order)) b a) :
    TransGen (Precedes (precedence g' order')) a b := by
  rcases mem_append.mp hab with hin | hpin
  · refine TransGen.mono ?_ _ _ (h.path_of_edge hb hin)
    exact fun _ _ hedge => mem_append_left _ hedge
  · refine .single (h.pin_of_late hb hpin (TransGen.mono ?_ _ _ hback))
    exact fun _ _ => h.late_subset

/-- A cycle of data edges and late pins is left by the pass. -/
theorem cycle_of_late {n : NodeId} (hn : n ∈ order)
    (hcyc : TransGen (Precedes (latePrecedence g order)) n n) :
    n ∈ order' ∧ TransGen (Precedes (precedence g' order')) n n := by
  -- along the cycle, with the way back from the node reached
  have hlift : ∀ {x y}, TransGen (Precedes (latePrecedence g order)) x y → y ∈ order →
      TransGen (Precedes (latePrecedence g order)) y x →
      TransGen (Precedes (precedence g' order')) x y := by
    intro x y hxy
    induction hxy with
    | single hxy => exact fun hy hback => h.path_of_late hy hxy hback
    | tail hxy hyz ih =>
      intro hz hback
      have hy := precedence_mem h.topo hz (h.late_subset hyz)
      exact (ih hy (.head hyz hback)).trans (h.path_of_late hz hyz (hback.trans hxy))
  exact ⟨(h.topo'.mem n).mpr (h.needed_old hn), hlift hcyc hn hcyc⟩

/-- **The pass leaves no cycle exactly when data edges and late pins have none.** -/
theorem acyclic_iff : (∀ id ∈ order', ¬ TransGen (Precedes (precedence g' order')) id id) ↔
      ∀ id ∈ order, ¬ TransGen (Precedes (latePrecedence g order)) id id := by
  constructor
  · intro hno id hid hcyc
    obtain ⟨hid', hcyc'⟩ := h.cycle_of_late hid hcyc
    exact hno id hid' hcyc'
  · intro hno id hid hcyc
    obtain ⟨n, hn, hcyc'⟩ := h.late_cycle hid hcyc
    exact hno n hn hcyc'

end SafetyPass

/-- A graph whose combined graph has no cycle has no conflicts. -/
theorem conflicts_eq_nil (htopo : IsTopoOrder g roots order) (hsched : Schedules g.inputs order)
    (hfree : g.AliasFree) (hno : ∀ id ∈ order, ¬ TransGen (Precedes (precedence g order)) id id) :
    conflicts g order = [] := by
  rw [conflicts, filterMap_eq_nil_iff]
  intro d hd
  cases hc : conflictOf g order d with
  | none => rfl
  | some c =>
    exfalso
    obtain ⟨-, ht, -, hreaders, hne⟩ := conflictOf_spec hc
    obtain ⟨m, hm⟩ := exists_mem_of_ne_nil _ hne
    rw [hreaders, mem_conflictingReaders htopo hsched hfree hd ht] at hm
    obtain ⟨hmo, hmd, hread, hpath⟩ := hm
    have hpin : Precedes (precedence g order) m d :=
      (mem_precedence htopo hsched hfree).mpr (.inr ⟨c.target, ht, hmo, hread, hmd⟩)
    exact hno d hd (hpath.tail hpin)

/-- A call on an acyclic graph whose reachable ids are in the arena returns. -/
theorem insertSafetyCopies_returns (hacyc : g.Acyclic) (hfree : g.AliasFree)
    (hbounds : ∀ id, Needed g.inputs roots id → id < g.len) :
    ∃ order g' n order', topoOrderMulti g roots = some order ∧
      insertSafetyCopies g roots = some (g', n) ∧ topoOrderMulti g' roots = some order' ∧
      SafetyPass g roots order g' order' := by
  obtain ⟨order, horder⟩ := topoOrderMulti_isSome hbounds
  have htopo := topoOrderMulti_spec horder
  have hcall : insertSafetyCopies g roots =
      some ((conflicts g order).foldl Conflict.resolve g, (conflicts g order).length) := by
    rw [insertSafetyCopies, horder]
    rfl
  have hfrom : RewiredFrom g roots order (conflicts g order)
      ((conflicts g order).foldl Conflict.resolve g) := by
    constructor
    case topo => exact htopo
    case schedules => exact topoOrderMulti_schedules (hacyc.acyclicFrom roots) horder
    case rewired => exact (insertSafetyCopies_rewired horder hcall).1
    case target_mem =>
      intro c hc
      obtain ⟨id, hid, hcid⟩ := mem_filterMap.mp hc
      exact htopo.input_mem hid (Graph.destroyed_mem_inputs (conflictOf_spec hcid).2.1)
  obtain ⟨order', horder'⟩ := hfrom.topo_isSome
  refine ⟨order, _, _, order', horder, hcall, horder', hfrom, hfree, topoOrderMulti_spec horder', ?_⟩
  exact topoOrderMulti_schedules hfrom.acyclicFrom horder'

/-- **What one call of the pass achieves.** On an acyclic graph without
aliasing ops the call returns and keeps the value of every root. The combined
graph it leaves is acyclic, can be planned and has nothing left to copy exactly
when the data edges and the late pins of the old graph have no cycle. -/
theorem safety_copies_resolve_iff (g : Graph) (roots : List NodeId) (hacyc : g.Acyclic)
    (hfree : g.AliasFree) (hbounds : ∀ id, Needed g.inputs roots id → id < g.len) :
    ∃ order g' n order', topoOrderMulti g roots = some order ∧
      insertSafetyCopies g roots = some (g', n) ∧ topoOrderMulti g' roots = some order' ∧
      (∀ (V : Type) (value : NodeId → List V → V),
        (∀ id loc, g'.op? id = some (.copy loc) → ∀ v, value id [v] = v) →
        ∀ r ∈ roots, ∀ v, Denotes g' value r v ↔ Denotes g value r v) ∧
      (((∀ id ∈ order', ¬ TransGen (Precedes (precedence g' order')) id id) ∧
          (executionPlan g' roots).isSome ∧ insertSafetyCopies g' roots = some (g', 0)) ↔
        ∀ id ∈ order, ¬ TransGen (Precedes (latePrecedence g order)) id id) := by
  obtain ⟨order, g', n, order', horder, hcall, horder', h⟩ :=
    insertSafetyCopies_returns hacyc hfree hbounds
  refine ⟨order, g', n, order', horder, hcall, horder', ?_, ?_⟩
  · intro V value hcopy r hr v
    exact h.denotes_iff hfree hcopy (h.topo.root_mem hr) v
  · rw [← h.acyclic_iff]
    refine ⟨fun hall => hall.1, fun hno => ⟨hno, ?_, ?_⟩⟩
    · exact (executionPlan_isSome_iff h.acyclicFrom horder').mpr hno
    · have hnil := conflicts_eq_nil h.topo' h.schedules' (h.aliasFree hfree) hno
      rw [insertSafetyCopies, horder', Option.map_some, hnil]
      rfl

/-- `x + relu_inplace x`: the addition reads `x` after it is gone. -/
def readAfterInPlace : Graph where
  nodes := [plainNode .const [], plainNode .reluInplace [0], plainNode .add [0, 1]]

/-- One copy lets the addition read the old bytes. -/
theorem read_after_in_place_resolved : ∃ g', insertSafetyCopies readAfterInPlace [2] = some (g', 1) ∧
    (executionPlan g' [2]).isSome ∧ insertSafetyCopies g' [2] = some (g', 0) := by
  have hbounds : ∀ id, Needed readAfterInPlace.inputs [2] id → id < readAfterInPlace.len := by
    intro id hid
    refine hid.closed (P := fun id => id < readAfterInPlace.len) (by decide) ?_
    intro b hb
    exact (by decide +kernel : ∀ b < readAfterInPlace.len, ∀ a ∈ readAfterInPlace.inputs b,
      a < readAfterInPlace.len) b hb
  obtain ⟨order, g', n, order', horder, hcall, -, -, hiff⟩ :=
    safety_copies_resolve_iff readAfterInPlace [2]
      (Graph.acyclic_of_inputs_lt (by decide +kernel))
      (Graph.aliasFree_of_lt (by decide +kernel)) hbounds
  obtain rfl : [0, 1, 2] = order :=
    Option.some.inj ((by decide +kernel : topoOrderMulti readAfterInPlace [2] =
      some [0, 1, 2]).symm.trans horder)
  have hcount : (insertSafetyCopies readAfterInPlace [2]).map (·.2) = some 1 := by decide +kernel
  rw [hcall] at hcount
  obtain rfl : n = 1 := Option.some.inj hcount
  have hlate : Schedules (latePrecedence readAfterInPlace [0, 1, 2]) [0, 1, 2] :=
    Schedules.of_before (by decide) (by decide +kernel)
  obtain ⟨-, hplan, hagain⟩ := hiff.mpr fun id hid => hlate.no_cycle (by decide) hid
  exact ⟨g', hcall, hplan, hagain⟩

/-- `x + (relu_inplace x + silu_inplace x)`: two ops destroy `x`. -/
def twoDestroyers : Graph where
  nodes := [plainNode .const [], plainNode .reluInplace [0], plainNode .siluInplace [0],
    plainNode .add [1, 2], plainNode .add [0, 3]]

/-- The graph the pass makes of it. -/
def twoDestroyersCopied : Graph :=
  (conflicts twoDestroyers [0, 2, 1, 3, 4]).foldl Conflict.resolve twoDestroyers

/-- The outer addition is redirected to the copy that the other op destroys, and
must run both before and after it: no plan is left, and a second call copies again. -/
theorem two_destroyers_leave_a_cycle :
    twoDestroyers.Acyclic ∧ twoDestroyers.AliasFree ∧
      insertSafetyCopies twoDestroyers [4] = some (twoDestroyersCopied, 2) ∧
      topoOrderMulti twoDestroyersCopied [4] = some [0, 6, 2, 5, 1, 3, 4] ∧
      TransGen (Precedes (precedence twoDestroyersCopied [0, 6, 2, 5, 1, 3, 4])) 4 4 ∧
      executionPlan twoDestroyersCopied [4] = none ∧
      (insertSafetyCopies twoDestroyersCopied [4]).map (·.2) = some 1 := by
  refine ⟨Graph.acyclic_of_inputs_lt (by decide +kernel),
    Graph.aliasFree_of_lt (by decide +kernel), ?_, by decide +kernel, ?_, by decide +kernel,
    by decide +kernel⟩
  · have horder : topoOrderMulti twoDestroyers [4] = some [0, 2, 1, 3, 4] := by decide +kernel
    have hlen : (conflicts twoDestroyers [0, 2, 1, 3, 4]).length = 2 := by decide +kernel
    rw [insertSafetyCopies, horder, Option.map_some, hlen]
    rfl
  · -- 4 is pinned before 1, which feeds 3, which feeds 4
    have h41 : 4 ∈ precedence twoDestroyersCopied [0, 6, 2, 5, 1, 3, 4] 1 := by decide +kernel
    have h13 : 1 ∈ precedence twoDestroyersCopied [0, 6, 2, 5, 1, 3, 4] 3 := by decide +kernel
    have h34 : 3 ∈ precedence twoDestroyersCopied [0, 6, 2, 5, 1, 3, 4] 4 := by decide +kernel
    exact .head h41 (.head h13 (.single h34))

end Fuel.IR
