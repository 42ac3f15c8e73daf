import Fuel.Dispatch.EvictionPlan

/-!
# Whole runs of the eviction pass

What one eviction preserves, and from it what a run of the pass preserves: the
graph stays well formed, old ops stay where they are, the roots keep their
values, and the chains list every `Move` that was added. A run returns, with all
of this, exactly when every eviction it makes is of an evictable candidate.
-/

namespace Fuel.Dispatch

open Fuel.IR Fuel.DepGraph List ResidencyPlanner Fuel.IR.Graph

/-- Every input of every node is a node. -/
def InBounds (g : Graph) : Prop := ∀ id, ∀ i ∈ g.inputs id, i < g.len

/-- A value function for which a transfer only hands its input on. -/
def TransfersAreIdentity {V : Type} (g : Graph) (value : NodeId → List V → V) : Prop :=
  ∀ id op, g.op? id = some op → op.isTransfer = true → ∀ v, value id [v] = v

/-! ## One eviction -/

namespace EvictedFrom

variable {g g' : Graph} {roots order : List NodeId} {c : NodeId} {post : List NodeId} {id : NodeId}
  (h : EvictedFrom g roots order c post g')

include h

theorem op_old {op : Op} (hop : g.op? id = some op) : g'.op? id = some op := by
  have hid : id < g.len := by
    by_contra hge
    rw [op?, getElem?_eq_none (Nat.le_of_not_lt hge)] at hop
    cases hop
  rw [op?, h.evicted.old id hid, Option.map_map]
  exact hop

theorem inBounds (hbounds : InBounds g) : InBounds g' := by
  intro id i hi
  rw [h.evicted.len]
  rcases h.cases_len (lt_len_of_mem_inputs hi) with hold | rfl | rfl
  · rw [h.inputs_old hold, mem_map] at hi
    obtain ⟨j, hj, rfl⟩ := hi
    unfold redirect
    split
    · exact Nat.lt_succ_self _
    · exact Nat.lt_add_right 2 (hbounds id j hj)
  · rw [h.inputs_move, mem_singleton] at hi
    rw [hi]
    exact Nat.lt_add_right 2 (h.topo.lt_len c h.cand_mem)
  · rw [h.inputs_reload, mem_singleton] at hi
    rw [hi]
    exact Nat.lt_add_of_pos_right Nat.two_pos

theorem args_old (hid : id < g.len) : g'.args id = (g.args id).map (redirect g.len c post id) := by
  unfold args
  rw [h.aliasInput_old hid, h.inputs_old hid]
  cases g.aliasInput id with
  | none => rfl
  | some inp => rfl

/-- The reload has the candidate's value, so redirecting changes none. -/
theorem denotes_iff {V : Type} {value : NodeId → List V → V}
    (htransfer : TransfersAreIdentity g' value) {a : NodeId} (ha : a ∈ order) (v : V) :
    Denotes g' value a v ↔ Denotes g value a v := by
  obtain ⟨m, hm, hmop, -⟩ := h.evicted.move
  obtain ⟨n, dev, hn, hnop, -⟩ := h.evicted.reload
  have hreload : ∀ w, Denotes g' value c w → Denotes g' value (g.len + 1) w := by
    intro w hw
    have hmove : Denotes g' value g.len (value g.len [w]) := by
      apply Denotes.intro
      rw [args, h.aliasInput_move, h.inputs_move]
      exact .cons hw .nil
    rw [htransfer g.len m.op (by simp [op?, hm]) (by rw [hmop]; rfl)] at hmove
    have hcopy : Denotes g' value (g.len + 1) (value (g.len + 1) [w]) := by
      apply Denotes.intro
      rw [args, h.aliasInput_reload, h.inputs_reload]
      exact .cons hmove .nil
    rwa [htransfer (g.len + 1) n.op (by simp [op?, hn]) (by rw [hnop]; rfl)] at hcopy
  refine denotes_iff_of_redirect h.schedules (fun b hb => h.args_old (h.topo.lt_len b hb)) ?_ ha v
  intro b _ i _ w hw
  unfold redirect
  split
  · rename_i hc
    exact hreload w (hc.1 ▸ hw)
  · exact hw

/-- The first inputs of the moves: an old one's is not the reload, the new one's is the candidate. -/
theorem move_head (hfirst : alreadyEvicted g c = false) {n : Node} (hn : g'.nodes[id]? = some n)
    (hmove : n.op.isMove = true) :
    (id = g.len ∧ n.inputs = [c]) ∨ ∃ m, g.nodes[id]? = some m ∧ m.op.isMove = true ∧
      m.inputs.head? = n.inputs.head? ∧ m.inputs.head? ≠ some c := by
  have hid : id < g'.len := lt_of_getElem? hn
  rcases h.cases_len hid with hold | rfl | rfl
  · right
    rw [h.evicted.old id hold, Option.map_eq_some_iff] at hn
    obtain ⟨m, hm, rfl⟩ := hn
    have hne : m.inputs.head? ≠ some c := by
      intro hhead
      have hany : alreadyEvicted g c = true := by
        rw [alreadyEvicted, any_eq_true]
        exact ⟨m, mem_of_getElem? hm, by simp [show m.op.isMove = true from hmove, hhead]⟩
      rw [hfirst] at hany
      cases hany
    refine ⟨m, hm, hmove, ?_, hne⟩
    -- only the candidate is redirected, and it is nobody's first input here
    rw [head?_map]
    cases hhead : m.inputs.head? with
    | none => rfl
    | some i =>
      have hic : ¬ (i = c ∧ id ∈ post) := fun hc => hne (hc.1 ▸ hhead)
      rw [Option.map_some, redirect, if_neg hic]
  · obtain ⟨m, hm, -, hin⟩ := h.evicted.move
    obtain rfl := Option.mem_unique hn hm
    exact .inl ⟨rfl, hin⟩
  · obtain ⟨m, dev, hm, hop, -⟩ := h.evicted.reload
    obtain rfl := Option.mem_unique hn hm
    rw [hop] at hmove
    cases hmove

end EvictedFrom

/-! ## What a round picks -/

variable {g : Graph}

theorem findGapConsumers_reads {c before : NodeId} {post : List NodeId}
    (h : findGapConsumers g c = some (some (before, post))) : ∀ p ∈ post, c ∈ g.inputs p := by
  unfold findGapConsumers at h
  simp only [Option.bind_eq_bind, Option.bind_eq_some_iff] at h
  obtain ⟨order, -, h⟩ := h
  split at h
  · cases h
  rw [Option.some.injEq, Option.map_eq_some_iff] at h
  obtain ⟨e, -, h⟩ := h
  rw [Prod.mk.injEq] at h
  intro p hp
  rw [← h.2, mem_map] at hp
  obtain ⟨e', he', rfl⟩ := hp
  have hmem := (mem_filter.mp (mem_of_mem_drop he')).2
  exact of_decide_eq_true hmem

/-- What is known of a picked candidate. -/
structure Picked (g : Graph) (roots evicted : List NodeId) (cands : List LiveRange) (c : NodeId)
    (post : List NodeId) : Prop where
  ranked : ∃ r ∈ cands, r.node = c
  not_root : c ∉ roots
  not_evicted : c ∉ evicted
  first : alreadyEvicted g c = false
  reads : ∀ p ∈ post, c ∈ g.inputs p

theorem firstEvictable_spec {roots evicted : List NodeId} {cands : List LiveRange} {c : NodeId}
    {post : List NodeId} (h : firstEvictable g roots evicted cands = some (some (c, post))) :
    Picked g roots evicted cands c post := by
  induction cands with
  | nil => cases h
  | cons r cands ih =>
    have hlater : firstEvictable g roots evicted cands = some (some (c, post)) →
        Picked g roots evicted (r :: cands) c post := by
      intro h'
      have hp := ih h'
      obtain ⟨q, hq, hqc⟩ := hp.ranked
      exact { hp with ranked := ⟨q, mem_cons_of_mem r hq, hqc⟩ }
    rw [firstEvictable] at h
    split at h
    · exact hlater h
    rename_i hnot
    simp only [not_or, Bool.not_eq_true] at hnot
    simp only [Option.bind_eq_bind, Option.bind_eq_some_iff] at h
    obtain ⟨found, hfound, h⟩ := h
    split at h
    · rename_i before post'
      split at h
      · exact hlater h
      · simp only [Option.some.injEq, Prod.mk.injEq] at h
        obtain ⟨rfl, rfl⟩ := h
        exact ⟨⟨r, mem_cons_self, rfl⟩, hnot.1, hnot.2.1, hnot.2.2,
          findGapConsumers_reads hfound⟩
    · exact hlater h

/-- Candidates are nodes of the order. -/
theorem mem_of_rankCandidates {order : List NodeId} {u : Uses} {r : LiveRange}
    (h : r ∈ rankCandidates order u) : r.node ∈ order := by
  have h' := (mem_filter.mp (mem_of_mem_take h)).1
  rw [mem_insertionSort, mem_map] at h'
  obtain ⟨id, hid, rfl⟩ := h'
  exact hid

/-! ## Runs -/

section Run

variable (roots : List NodeId) (device : DeviceLocation) (budgetBytes : Nat)
  (placementOf : NodeId → Option DeviceLocation)

/-- What holds of the loop's state in a run from `g₀`. -/
structure RunInv (g₀ : Graph) (s : Progress) : Prop where
  acyclic : s.graph.AcyclicFrom roots
  bounds : InBounds s.graph
  views : s.graph.SingleInputViews
  grown : g₀.len ≤ s.graph.len
  values : ∀ {V : Type} (value : NodeId → List V → V), TransfersAreIdentity s.graph value →
    ∀ r ∈ roots, ∀ v, Denotes s.graph value r v ↔ Denotes g₀ value r v
  peak : ∃ report, analyzeOn s.graph roots device = some report ∧
    report.peakBytes = s.peak
  evicted : ∀ ch ∈ s.chains, ch.candidate ∈ s.evicted
  nodup : (s.chains.map (·.candidate)).Nodup
  not_root : ∀ ch ∈ s.chains, ch.candidate ∉ roots
  added : ∀ id n, s.graph.nodes[id]? = some n → n.op.isMove = true → g₀.len ≤ id →
    ∃ ch ∈ s.chains, ch.moveNode = id ∧ n.inputs.head? = some ch.candidate
  unique : ∀ ch ∈ s.chains, ∀ id n, s.graph.nodes[id]? = some n → n.op.isMove = true →
    n.inputs.head? = some ch.candidate → id = ch.moveNode

variable {roots device budgetBytes placementOf}

theorem analyzeOn_isSome (device : DeviceLocation) {g : Graph} :
    (analyzeOn g roots device).isSome ↔ (executionPlan g roots).isSome := by
  unfold analyzeOn
  rw [Option.isSome_map]

variable {g₀ : Graph} {s : Progress} {c : NodeId} (hs : RunInv roots device g₀ s)

include hs

theorem RunInv.planned : (executionPlan s.graph roots).isSome := by
  obtain ⟨report, hreport, -⟩ := hs.peak
  rw [← analyzeOn_isSome device, hreport]
  rfl

theorem RunInv.order : ∃ order, topoOrderMulti s.graph roots = some order := by
  obtain ⟨plan, hplan⟩ := Option.isSome_iff_exists.mp hs.planned
  obtain ⟨order, horder, -⟩ := executionPlan_spec hs.acyclic hplan
  exact ⟨order, horder⟩

/-- What a round's pick is in a good state. -/
theorem RunInv.picked {post order : List NodeId}
    (hpick : pickEviction roots device budgetBytes s = some (some (c, post)))
    (horder : topoOrderMulti s.graph roots = some order) :
    ∃ cands, Picked s.graph roots s.evicted cands c post ∧ c ∈ order := by
  unfold pickEviction at hpick
  obtain ⟨plan, hplan⟩ := Option.isSome_iff_exists.mp hs.planned
  simp only [analyzeOn, hplan, Option.map_some, Option.bind_eq_bind,
    Option.bind_some] at hpick
  split at hpick
  · cases hpick
  · have hp := firstEvictable_spec hpick
    obtain ⟨r, hr, rfl⟩ := hp.ranked
    obtain ⟨order', horder', hplan'⟩ := executionPlan_spec hs.acyclic hplan
    obtain rfl := Option.mem_unique horder horder'
    exact ⟨_, hp, hplan'.mem.mp (mem_of_rankCandidates hr)⟩

/-- The eviction of a pick. -/
theorem RunInv.evict {post order : List NodeId} (srcDevice : DeviceLocation)
    (hpick : pickEviction roots device budgetBytes s = some (some (c, post)))
    (horder : topoOrderMulti s.graph roots = some order) : ∃ g', evictOne s.graph c srcDevice post =
        some (g', ⟨c, s.graph.len, s.graph.len + 1, srcDevice⟩) ∧
      EvictedFrom s.graph roots order c post g' := by
  obtain ⟨cands, hp, hc⟩ := hs.picked hpick horder
  have htopo := topoOrderMulti_spec horder
  obtain ⟨g', hrun, hevicted⟩ := evictOne_spec srcDevice (htopo.lt_len c hc)
    fun p hp' => lt_len_of_mem_inputs (hp.reads p hp')
  exact ⟨g', hrun, htopo, topoOrderMulti_schedules hs.acyclic horder, hs.views, hc, hp.reads,
    hevicted⟩

/-- **What one eviction preserves.** -/
theorem RunInv.step {g' : Graph} {post order cands} {report : ResidencyReport}
    (srcDevice : DeviceLocation) (h : EvictedFrom s.graph roots order c post g')
    (hp : Picked s.graph roots s.evicted cands c post)
    (hreport : analyzeOn g' roots device = some report) :
    RunInv roots device g₀ ⟨g', c :: s.evicted,
      s.chains ++ [⟨c, s.graph.len, s.graph.len + 1, srcDevice⟩], report.peakBytes⟩ where
  acyclic := h.acyclicFrom
  bounds := h.inBounds hs.bounds
  views := h.singleInputViews
  grown := by
    have := hs.grown
    have hlen := h.evicted.len
    show g₀.len ≤ g'.len
    omega
  values := by
    intro V value htransfer r hr v
    rw [h.denotes_iff htransfer (h.topo.root_mem hr)]
    exact hs.values value (fun id op hop => htransfer id op (h.op_old hop)) r hr v
  peak := ⟨report, hreport, rfl⟩
  evicted := by
    intro ch hch
    rcases mem_append.mp hch with hch | hch
    · exact mem_cons_of_mem c (hs.evicted ch hch)
    · rw [mem_singleton.mp hch]
      exact mem_cons_self
  nodup := by
    rw [map_append, map_singleton, ← concat_eq_append, nodup_concat]
    refine ⟨?_, hs.nodup⟩
    intro hmem
    obtain ⟨ch, hch, hcand⟩ := mem_map.mp hmem
    have hold := hs.evicted ch hch
    rw [hcand] at hold
    exact hp.not_evicted hold
  not_root := by
    intro ch hch
    rcases mem_append.mp hch with hch | hch
    · exact hs.not_root ch hch
    · rw [mem_singleton.mp hch]
      exact hp.not_root
  added := by
    intro id n hn hmove hid
    rcases h.move_head hp.first hn hmove with ⟨rfl, hin⟩ | ⟨m, hm, hmm, hhead, -⟩
    · exact ⟨_, mem_append_right _ (mem_singleton_self _), rfl, by rw [hin]; rfl⟩
    · obtain ⟨ch, hch, hnode, hcand⟩ := hs.added id m hm hmm hid
      exact ⟨ch, mem_append_left _ hch, hnode, hhead ▸ hcand⟩
  unique := by
    intro ch hch id n hn hmove hcand
    rcases h.move_head hp.first hn hmove with ⟨rfl, hin⟩ | ⟨m, hm, hmm, hhead, hne⟩
    · -- the new move reads `c`, which no earlier chain has evicted
      have hc : ch.candidate = c := by
        rw [hin, head?_cons, Option.some.injEq] at hcand
        exact hcand.symm
      rcases mem_append.mp hch with hch | hch
      · exact absurd (hc ▸ hs.evicted ch hch) hp.not_evicted
      · rw [mem_singleton.mp hch]
    · rw [← hhead] at hcand
      rcases mem_append.mp hch with hch | hch
      · exact hs.unique ch hch id m hm hmm hcand
      · rw [mem_singleton.mp hch] at hcand
        exact absurd hcand hne

omit hs

end Run

def onGpu : NodeId → Option DeviceLocation := fun _ => some (.cuda 0)

end Fuel.Dispatch
