import Fuel.Dispatch.Residency
import Fuel.IR.SafetyCopies

/-!
# The eviction pass

While the peak on a device is over its budget, `insertResidencyEvictionsIn` takes
the best-ranked candidate with a realizable gap, appends a `Move` of the
candidate to the host and a `Copy` back, and redirects the consumers after the
gap to the copy.

This file has the pass and the effect of one eviction on the arena: `Evicted`
says which node reads what afterwards.
-/

namespace Fuel.Dispatch

open Fuel.IR Fuel.DepGraph

/-! ## The pass -/

/-- One evict and reload chain. -/
structure EvictReload where
  candidate : NodeId
  moveNode : NodeId
  reload : NodeId
  srcDevice : DeviceLocation
  deriving DecidableEq, Repr

/-- What a run of the pass did. -/
structure EvictionOutcome where
  device : DeviceLocation
  budgetBytes : Nat
  peakBefore : Nat
  peakAfter : Nat
  chains : List EvictReload

def EvictionOutcome.fits (o : EvictionOutcome) : Bool := decide (o.peakAfter ≤ o.budgetBytes)

/-- The candidate already feeds a `Move`. -/
def alreadyEvicted (g : Graph) (candidate : NodeId) : Bool :=
  g.nodes.any fun n => n.op.isMove && decide (n.inputs.head? = some candidate)

/-- The first of the largest gaps, with its index. -/
def largestGap (gaps : List Nat) : Nat × Nat :=
  gaps.zipIdx.foldl (fun best e => if e.1 > best.1 then e else best) (0, 0)

/-- The consumer before the candidate's longest gap and those after it, over the
walk of all nodes; `none` inside when the gap is too short to be of use. -/
def findGapConsumers (g : Graph) (candidate : NodeId) : Option (Option (NodeId × List NodeId)) := do
  let order ← topoOrderMulti g (List.range g.len)
  let positions := order.zipIdx.filter fun e => decide (candidate ∈ g.inputs e.1)
  let best := largestGap (List.zipWith (fun a b => b.2 - a.2) positions positions.tail)
  if positions.length < 2 ∨ best.1 < 2 then some none
  else some ((positions[best.2]?).map fun e => (e.1, (positions.drop (best.2 + 1)).map (·.1)))

/-- The highest-ranked candidate that is no root, was not evicted, and has
consumers after a gap. -/
def firstEvictable (g : Graph) (roots evicted : List NodeId) :
    List LiveRange → Option (Option (NodeId × List NodeId))
  | [] => some none
  | c :: candidates =>
    if c.node ∈ roots ∨ c.node ∈ evicted ∨ alreadyEvicted g c.node = true then
      firstEvictable g roots evicted candidates
    else do
      match ← findGapConsumers g c.node with
      | some (_, post) =>
        if post.isEmpty then firstEvictable g roots evicted candidates else some (some (c.node, post))
      | none => firstEvictable g roots evicted candidates

/-- Appends the chain and redirects the consumers after the gap. -/
def insertEvictReloadIn (g : Graph) (candidate : NodeId) (srcDevice : DeviceLocation)
    (postGapConsumers : List NodeId) : Option (Graph × NodeId × NodeId) := do
  let n ← g.nodes[candidate]?
  let moveId := g.len
  let g₁ := g.push ⟨.move .cpu, [candidate], n.shape, n.dtype⟩
  let reloadId := g₁.len
  let g₂ := g₁.push ⟨.copy srcDevice, [moveId], n.shape, n.dtype⟩
  some (postGapConsumers.foldl (fun g consumer => g.rewriteInput consumer candidate reloadId) g₂,
    moveId, reloadId)

/-- `evict_one`: the chain, with the backend and the placement of both nodes stamped. -/
def evictOne (g : Graph) (candidate : NodeId) (srcDevice : DeviceLocation)
    (postGapConsumers : List NodeId) : Option (Graph × EvictReload) := do
  let (g, moveId, reloadId) ← insertEvictReloadIn g candidate srcDevice postGapConsumers
  let g := g.setTargetBackend moveId srcDevice.backend
  let g := g.setTargetBackend reloadId DeviceLocation.cpu.backend
  let g := g.setPlacement moveId .cpu
  let g := g.setPlacement reloadId srcDevice
  some (g, ⟨candidate, moveId, reloadId, srcDevice⟩)

/-- The loop's state: the graph, the chains so far and the last analysed peak. -/
structure Progress where
  graph : Graph
  evicted : List NodeId := []
  chains : List EvictReload := []
  peak : Nat

section Rounds

variable (roots : List NodeId) (device : DeviceLocation) (budgetBytes : Nat)
  (placementOf : NodeId → Option DeviceLocation)

/-- The eviction a round makes, if the peak is over the budget and there is one to make. -/
def pickEviction (s : Progress) : Option (Option (NodeId × List NodeId)) := do
  let report ← ResidencyPlanner.analyzeOn s.graph roots device
  if report.fitsIn budgetBytes then some none
  else firstEvictable s.graph roots s.evicted report.evictionCandidates

end Rounds

/-- What node `id` reads in place of its input `i` once `candidate` is evicted. -/
def redirect (len candidate : NodeId) (post : List NodeId) (id i : NodeId) : NodeId :=
  if i = candidate ∧ id ∈ post then len + 1 else i

/-- `g'` is `g` with `c` moved out and reloaded, and the consumers `post` redirected. -/
structure Evicted (g : Graph) (c : NodeId) (post : List NodeId) (g' : Graph) : Prop where
  len : g'.len = g.len + 2
  old : ∀ id < g.len, g'.nodes[id]? = (g.nodes[id]?).map fun n =>
    { n with inputs := n.inputs.map (redirect g.len c post id) }
  move : ∃ n, g'.nodes[g.len]? = some n ∧ n.op = .move .cpu ∧ n.inputs = [c]
  reload : ∃ n dev, g'.nodes[g.len + 1]? = some n ∧ n.op = .copy dev ∧ n.inputs = [g.len]

/-- Evicting a node of the arena. -/
theorem evictOne_spec {g : Graph} {c : NodeId} {post : List NodeId} (srcDevice : DeviceLocation)
    (hc : c < g.len) (hpost : ∀ p ∈ post, p < g.len) :
    ∃ g', evictOne g c srcDevice post = some (g', ⟨c, g.len, g.len + 1, srcDevice⟩) ∧
      Evicted g c post g' := by
  obtain ⟨n, hn⟩ : ∃ n, g.nodes[c]? = some n := ⟨_, List.getElem?_eq_getElem hc⟩
  let g₁ := g.push ⟨.move .cpu, [c], n.shape, n.dtype⟩
  let g₂ := g₁.push ⟨.copy srcDevice, [g.len], n.shape, n.dtype⟩
  have hlen₁ : g₁.len = g.len + 1 := g.len_push _
  have hlen₂ : g₂.len = g.len + 2 := by rw [g₁.len_push, hlen₁]
  obtain ⟨g', hrun, hnodes⟩ : ∃ g', evictOne g c srcDevice post =
      some (g', ⟨c, g.len, g.len + 1, srcDevice⟩) ∧
      g'.nodes = (post.foldl (fun h p => h.rewriteInput p c (g.len + 1)) g₂).nodes := by
    rw [← hlen₁]
    apply Exists.intro
    apply And.intro
    · simp only [evictOne, insertEvictReloadIn, hn, Option.bind_eq_bind, Option.bind_some]
      rfl
    · rfl
  have hnode : ∀ id, g'.nodes[id]? = (g₂.nodes[id]?).map fun m =>
      if id ∈ post then { m with inputs := m.inputs.map fun i => if i = c then g.len + 1 else i }
      else m := fun id => by
    rw [hnodes]
    exact node_foldl_rewriteInput g₂ post c (g.len + 1) id
  have hnew : ∀ id, g.len ≤ id → id ∉ post := fun id hid hmem =>
    Nat.not_lt.mpr hid (hpost id hmem)
  refine ⟨g', hrun, ?_, ?_, ?_, ?_⟩
  · show g'.nodes.length = _
    rw [hnodes]
    exact (len_foldl_rewriteInput g₂ post c (g.len + 1)).trans hlen₂
  · intro id hid
    have hlt : id < g₁.len := by omega
    rw [hnode, g₁.node_push_of_lt _ hlt, g.node_push_of_lt _ hid]
    congr 1
    funext m
    by_cases hmem : id ∈ post
    · simp [hmem, redirect]
    · have hsame : redirect g.len c post id = fun i => i := by
        funext i
        simp [redirect, hmem]
      simp [hmem, hsame]
  · have hmove := hnode g.len
    have hlt : g.len < g₁.len := by omega
    rw [g₁.node_push_of_lt _ hlt, g.node_push_len, Option.map_some,
      if_neg (hnew _ (Nat.le_refl _))] at hmove
    exact ⟨_, hmove, rfl, rfl⟩
  · have hreload := hnode (g.len + 1)
    rw [← hlen₁, g₁.node_push_len, Option.map_some, if_neg (hnew _ (by omega)), hlen₁] at hreload
    exact ⟨_, srcDevice, hreload, rfl, rfl⟩

end Fuel.Dispatch
