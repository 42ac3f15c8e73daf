import Fuel.IR.Branch
import Fuel.IR.Passes

/-!
# Copies between devices

`insert_cross_device_copies` walks the graph once, appends the copies its edges
need and notes which input of which consumer is to be redirected; then it
redirects. What is redirected are nodes of the old graph, what they are
redirected to are copies, so no redirection undoes or feeds another: the new
inputs are the old ones under one map.

`CopyInv` is what the walk keeps, told which edges it has seen. The cache is the
record of the copies: it names each of them once.
-/

namespace Fuel.IR

open Fuel.DepGraph List Function Fuel.IR.Graph CopyState

/-! ## Redirections -/

/-- The input `p` of `v` after the redirections: the first one that names both decides. -/
def inputAfter (rs : List (NodeId × NodeId × NodeId)) (v p : NodeId) : NodeId :=
  match rs.find? fun r => decide (r.1 = v) && decide (r.2.1 = p) with
  | some r => r.2.2
  | none => p

theorem inputAfter_cases (rs : List (NodeId × NodeId × NodeId)) (v p : NodeId) :
    (v, p, inputAfter rs v p) ∈ rs ∨ inputAfter rs v p = p ∧ ∀ k, (v, p, k) ∉ rs := by
  unfold inputAfter
  cases hfind : rs.find? fun r => decide (r.1 = v) && decide (r.2.1 = p) with
  | some r =>
    have hr := find?_some hfind
    simp only [Bool.and_eq_true, decide_eq_true_eq] at hr
    obtain ⟨rfl, rfl⟩ := hr
    exact .inl (mem_of_find?_eq_some hfind)
  | none =>
    refine .inr ⟨rfl, fun k hk => ?_⟩
    simpa using find?_eq_none.mp hfind _ hk

/-- The graph after the redirections. -/
def Graph.redirected (g : Graph) (rs : List (NodeId × NodeId × NodeId)) : Graph :=
  rs.foldl (fun h r => h.rewriteInput r.1 r.2.1 r.2.2) g

namespace Graph

variable {rs : List (NodeId × NodeId × NodeId)}

/-- Redirected are old nodes, to new ones: each input is redirected once. -/
theorem node_redirected {len : Nat} (g : Graph) (hrs : ∀ r ∈ rs, r.2.1 < len ∧ len ≤ r.2.2)
    (id : NodeId) : (g.redirected rs).nodes[id]? =
      (g.nodes[id]?).map fun n => { n with inputs := n.inputs.map (inputAfter rs id) } := by
  unfold redirected
  induction rs generalizing g with
  | nil =>
    have hid : inputAfter [] id = fun p => p := rfl
    simp [hid]
  | cons r rs ih =>
    rw [foldl_cons, ih _ fun r' hr' => hrs r' (mem_cons_of_mem _ hr'),
      node_rewriteInput, Option.map_map]
    congr 1
    funext n
    obtain ⟨hold, hnew⟩ := hrs r mem_cons_self
    by_cases hr : r.1 = id
    · simp only [Function.comp_apply, hr, if_true, map_map, Node.mk.injEq, true_and, and_true]
      refine map_congr_left fun i _ => ?_
      by_cases hi : i = r.2.1
      · -- the copy is no input that is redirected later
        have hstays : inputAfter rs id r.2.2 = r.2.2 := by
          rcases inputAfter_cases rs id r.2.2 with hmem | ⟨heq, -⟩
          · exact absurd (hrs _ (mem_cons_of_mem _ hmem)).1 (Nat.not_lt.mpr hnew)
          · exact heq
        simp [inputAfter, hr, hi] at hstays ⊢
        exact hstays
      · have hi' : ¬ r.2.1 = i := fun h => hi h.symm
        simp [inputAfter, hi, hi']
    · simp [inputAfter, hr]

theorem tables_redirected (g : Graph) : (g.redirected rs).len = g.len ∧
    (g.redirected rs).placements = g.placements ∧
      (g.redirected rs).targetBackends = g.targetBackends := by
  induction rs generalizing g with
  | nil => exact ⟨rfl, rfl, rfl⟩
  | cons r rs ih =>
    obtain ⟨hlen, hplaced, hbackends⟩ := ih (g.rewriteInput r.1 r.2.1 r.2.2)
    exact ⟨hlen.trans (g.len_rewriteInput ..), hplaced, hbackends⟩

end Graph

/-! ## The walk -/

/-- `copy` was appended to `g` and brings `source` to `target`. -/
structure CopyOf (g g' : Graph) (source : NodeId) (target : DeviceLocation) (copy : NodeId) :
    Prop where
  fresh : g.len ≤ copy
  above : source < copy
  node : ∃ n, g'.nodes[source]? = some n ∧
    g'.nodes[copy]? = some ⟨.copy target, [source], n.shape, n.dtype⟩
  placed : g'.placements copy = some target

namespace CopyOf

variable {g g' : Graph} {p k : NodeId} {loc : DeviceLocation} (h : CopyOf g g' p loc k)

include h

theorem lt : k < g'.len := by
  obtain ⟨_, _, hk⟩ := h.node
  exact lt_of_getElem? hk

theorem op : g'.op? k = some (.copy loc) := by
  obtain ⟨_, _, hk⟩ := h.node
  simp [op?, hk]

theorem inputs : g'.inputs k = [p] := by
  obtain ⟨_, _, hk⟩ := h.node
  exact inputs_eq hk

end CopyOf

/-- The producer and the consumer are placed on devices that share no storage. -/
def Topology.Crosses (t : Topology) (v p : NodeId) : Prop :=
  ∃ src dst, t.placementFor p = some src ∧ t.placementFor v = some dst ∧
    t.sharesStorage src dst = false

namespace CopyState

/-- What the last hop reads: the producer's copy on the host, or the producer. -/
def Staged (s : CopyState) (twoHop : Bool) (p source : NodeId) : Prop :=
  if twoHop then s.copyCache (p, .cpu) = some source else source = p

/-- The copy that takes the producer's place in the consumer's inputs. -/
def Bridge (t : Topology) (s : CopyState) (v p k : NodeId) : Prop :=
  ∃ src dst source, t.placementFor p = some src ∧ t.placementFor v = some dst ∧
    t.sharesStorage src dst = false ∧ s.Staged (t.needsHostStaging src dst) p source ∧
      s.copyCache (source, dst) = some k

/-- Copies already made stay. -/
def Keeps (s s' : CopyState) : Prop :=
  ∀ key k, s.copyCache key = some k → s'.copyCache key = some k

variable {t : Topology} {s s' : CopyState} {v p k source : NodeId} {twoHop : Bool}

theorem Staged.keeps (h : s.Staged twoHop p source) (hs : s.Keeps s') :
    s'.Staged twoHop p source := by
  cases twoHop with
  | true => exact hs _ _ h
  | false => exact h

theorem Bridge.keeps (h : Bridge t s v p k) (hs : s.Keeps s') : Bridge t s' v p k := by
  obtain ⟨src, dst, source, hsrc, hdst, hshare, hstaged, hk⟩ := h
  exact ⟨src, dst, source, hsrc, hdst, hshare, hstaged.keeps hs, hs _ _ hk⟩

/-- An edge between devices that share storage adds nothing. -/
theorem edge_of_not_crosses {dst : DeviceLocation} (hdst : t.placementFor v = some dst)
    (h : ¬ t.Crosses v p) : edge t v dst s p = some s := by
  unfold edge
  split
  · rfl
  · rename_i src hsrc
    rw [if_pos]
    by_contra hshare
    exact h ⟨src, dst, hsrc, hdst, Bool.eq_false_iff.mpr hshare⟩

end CopyState

/-- What holds once the edges `seen` were looked at, in a walk along `order`. -/
structure CopyInv (g : Graph) (t : Topology) (order : List NodeId) (seen : NodeId → NodeId → Prop)
    (s : CopyState) : Prop where
  nodes : g.Extends s.graph
  len : g.len ≤ s.graph.len
  placements : ∀ id < g.len, s.graph.placements id = g.placements id
  backends : s.graph.targetBackends = g.targetBackends
  inserted : s.inserted = List.range' g.len (s.graph.len - g.len)
  cached : ∀ p loc k, s.copyCache (p, loc) = some k →
    CopyOf g s.graph p loc k ∧ (p ∈ order ∨ g.len ≤ p)
  made : ∀ k, g.len ≤ k → k < s.graph.len → ∃ p loc, s.copyCache (p, loc) = some k
  noted : ∀ v p k, (v, p, k) ∈ s.rewires → seen v p ∧ s.Bridge t v p k
  complete : ∀ v p, seen v p → t.Crosses v p → ∃ k, (v, p, k) ∈ s.rewires

namespace CopyInv

variable {g : Graph} {t : Topology} {order : List NodeId} {seen seen' : NodeId → NodeId → Prop}
  {s : CopyState} {v p : NodeId} (h : CopyInv g t order seen s)

include h

/-- Edges that cross nothing may be counted as seen. -/
theorem mono (hsub : ∀ v p, seen v p → seen' v p)
    (hnew : ∀ v p, seen' v p → t.Crosses v p → seen v p) : CopyInv g t order seen' s where
  __ := h
  noted v p k hk := ⟨hsub v p (h.noted v p k hk).1, (h.noted v p k hk).2⟩
  complete v p hv hcross := h.complete v p (hnew v p hv hcross) hcross

theorem copyTo (hp : p < s.graph.len) (hknown : p ∈ order ∨ g.len ≤ p) (loc : DeviceLocation) :
    ∃ s' k, s.copyTo p loc = some (s', k) ∧ CopyInv g t order seen s' ∧ s.Keeps s' ∧
      s'.copyCache (p, loc) = some k := by
  unfold CopyState.copyTo
  cases hcache : s.copyCache (p, loc) with
  | some k => exact ⟨s, k, rfl, h, fun _ _ hk => hk, hcache⟩
  | none =>
    obtain ⟨n, hn⟩ : ∃ n, s.graph.nodes[p]? = some n := ⟨_, getElem?_eq_getElem hp⟩
    simp only [hn, Option.bind_eq_bind, Option.bind_some]
    have hext : s.graph.Extends (s.graph.push ⟨.copy loc, [p], n.shape, n.dtype⟩) := .push _ _
    have hkeeps : ∀ key k, s.copyCache key = some k →
        update s.copyCache (p, loc) (some s.graph.len) key = some k := by
      intro key k hk
      have hne : key ≠ (p, loc) := fun heq => by rw [heq, hcache] at hk; cases hk
      rw [update_of_ne hne, hk]
    refine ⟨_, _, rfl, ?_, hkeeps, update_self ..⟩
    constructor
    case nodes =>
      intro id hid
      exact (hext id (Nat.lt_of_lt_of_le hid h.len)).trans (h.nodes id hid)
    case len =>
      show g.len ≤ (s.graph.push _).len
      rw [len_push]
      exact Nat.le_succ_of_le h.len
    case placements =>
      intro id hid
      exact (update_of_ne (Nat.ne_of_lt (Nat.lt_of_lt_of_le hid h.len)) _ _).trans
        (h.placements id hid)
    case backends => exact h.backends
    case inserted =>
      have hlen := h.len
      show s.inserted ++ [s.graph.len] = List.range' g.len ((s.graph.push _).len - g.len)
      rw [len_push, Nat.sub_add_comm hlen, range'_1_concat, h.inserted,
        Nat.add_sub_cancel' hlen]
    case cached =>
      intro q loc' k hk
      by_cases heq : (q, loc') = (p, loc)
      · obtain ⟨rfl, rfl⟩ := Prod.mk.injEq .. ▸ heq
        obtain rfl : s.graph.len = k := by simpa using hk
        exact ⟨⟨h.len, hp, ⟨n, (hext q hp).trans hn, node_push_len ..⟩,
          update_self ..⟩, hknown⟩
      · obtain ⟨hof, hq⟩ := h.cached q loc' k (by simpa [update_of_ne heq] using hk)
        obtain ⟨m, hm, hcopy⟩ := hof.node
        have hlt := hof.lt
        exact ⟨⟨hof.fresh, hof.above, ⟨m, (hext q (Nat.lt_trans hof.above hlt)).trans hm,
          (hext k hlt).trans hcopy⟩, (update_of_ne (Nat.ne_of_lt hlt) _ _).trans
            hof.placed⟩, hq⟩
    case made =>
      intro k hk hlt
      by_cases heq : k = s.graph.len
      · exact ⟨p, loc, heq ▸ update_self ..⟩
      · have hlt' : k < s.graph.len + 1 := len_push s.graph _ ▸ hlt
        obtain ⟨q, loc', hq⟩ := h.made k hk (by omega)
        exact ⟨q, loc', hkeeps _ _ hq⟩
    case noted =>
      intro v q k hk
      exact ⟨(h.noted v q k hk).1, (h.noted v q k hk).2.keeps hkeeps⟩
    case complete => exact h.complete

/-- One more edge. -/
theorem edge {dst : DeviceLocation} (hlt : p < g.len) (hp : p ∈ order)
    (hdst : t.placementFor v = some dst) : ∃ s', edge t v dst s p = some s' ∧
      CopyInv g t order (fun a b => seen a b ∨ a = v ∧ b = p) s' := by
  by_cases hcross : t.Crosses v p
  · obtain ⟨src, dst', hsrc, hdst', hshare⟩ := hcross
    obtain rfl : dst' = dst := Option.mem_unique hdst' hdst
    have hplt := Nat.lt_of_lt_of_le hlt h.len
    have hstage : ∃ s₁ source, s.stage (t.needsHostStaging src dst') p = some (s₁, source) ∧
        CopyInv g t order seen s₁ ∧ source < s₁.graph.len ∧ (source ∈ order ∨ g.len ≤ source) ∧
          s₁.Staged (t.needsHostStaging src dst') p source := by
      cases t.needsHostStaging src dst' with
      | true =>
        obtain ⟨s₁, k, hrun, h₁, -, hk⟩ := h.copyTo hplt (.inl hp) .cpu
        obtain ⟨hof, -⟩ := h₁.cached _ _ _ hk
        exact ⟨s₁, k, hrun, h₁, hof.lt, .inr hof.fresh, hk⟩
      | false => exact ⟨s, p, rfl, h, hplt, .inl hp, rfl⟩
    obtain ⟨s₁, source, hrun₁, h₁, hsource, hknown, hstaged⟩ := hstage
    obtain ⟨s₂, k, hrun₂, h₂, hkeeps, hk⟩ := h₁.copyTo hsource hknown dst'
    have hbridge : s₂.Bridge t v p k :=
      ⟨src, dst', source, hsrc, hdst', hshare, hstaged.keeps hkeeps, hk⟩
    refine ⟨{ s₂ with rewires := s₂.rewires ++ [(v, p, k)] }, ?_, ?_⟩
    · simp [CopyState.edge, hsrc, hshare, hrun₁, hrun₂]
    refine { h₂ with noted := fun a b k' hmem => ?_, complete := fun a b hab hcross => ?_ }
    · rcases mem_append.mp hmem with hmem | hmem
      · exact ⟨.inl (h₂.noted a b k' hmem).1, (h₂.noted a b k' hmem).2⟩
      · rw [mem_singleton] at hmem
        cases hmem
        exact ⟨.inr ⟨rfl, rfl⟩, hbridge⟩
    · rcases hab with hab | ⟨rfl, rfl⟩
      · obtain ⟨k', hk'⟩ := h₂.complete a b hab hcross
        exact ⟨k', mem_append_left _ hk'⟩
      · exact ⟨k, by simp⟩
  · refine ⟨s, edge_of_not_crosses hdst hcross, h.mono (fun _ _ hab => .inl hab) ?_⟩
    rintro a b (hab | ⟨rfl, rfl⟩) hc
    · exact hab
    · exact absurd hc hcross

end CopyInv

/-- The graph a walk ends with. -/
def CopyState.final (s : CopyState) : Graph := s.graph.redirected s.rewires

theorem CopyState.final_tables (s : CopyState) : s.final.len = s.graph.len ∧
    s.final.placements = s.graph.placements ∧ s.final.targetBackends = s.graph.targetBackends :=
  s.graph.tables_redirected

/-- The edges a walk along `order` looks at. -/
def Graph.ReadIn (g : Graph) (order : List NodeId) (v p : NodeId) : Prop :=
  v ∈ order ∧ g.isTransfer v = false ∧ p ∈ g.inputs v

section Walk

variable {g : Graph} {t : Topology} {roots order : List NodeId} {s : CopyState} {v : NodeId}

/-- One more consumer. -/
theorem CopyInv.visit {done : List NodeId} (htopo : IsTopoOrder g roots order)
    (h : CopyInv g t order (g.ReadIn done) s) (hv : v ∈ order) :
    ∃ s', visit t s v = some s' ∧ CopyInv g t order (g.ReadIn (done ++ [v])) s' := by
  have hgrow : ∀ a b, g.ReadIn done a b → g.ReadIn (done ++ [v]) a b :=
    fun a b hab => ⟨mem_append_left _ hab.1, hab.2⟩
  unfold CopyState.visit
  cases hdst : t.placementFor v with
  | none =>
    refine ⟨s, rfl, h.mono hgrow fun a b hab hcross => ?_⟩
    obtain ⟨-, dst, -, hdst', -⟩ := hcross
    rcases mem_append.mp hab.1 with ha | ha
    · exact ⟨ha, hab.2⟩
    · rw [mem_singleton.mp ha, hdst] at hdst'
      cases hdst'
  | some dst =>
    have hlt := htopo.lt_len v hv
    obtain ⟨n, hn⟩ : ∃ n, g.nodes[v]? = some n := ⟨_, getElem?_eq_getElem hlt⟩
    have htransfer : g.isTransfer v = n.op.isTransfer := by simp [isTransfer, op?, hn]
    simp only [h.nodes v hlt, hn, Option.bind_eq_bind, Option.bind_some]
    split
    · rename_i hop
      refine ⟨s, rfl, h.mono hgrow fun a b hab _ => ?_⟩
      rcases mem_append.mp hab.1 with ha | ha
      · exact ⟨ha, hab.2⟩
      · have hfalse := hab.2.1
        rw [mem_singleton.mp ha, htransfer, hop] at hfalse
        cases hfalse
    rename_i hop
    have hloop := foldlM_invariant (f := CopyState.edge t v dst) (s := s)
      (I := fun ps s => CopyInv g t order (fun a b => g.ReadIn done a b ∨ a = v ∧ b ∈ ps) s)
      n.inputs (h.mono (fun _ _ hab => .inl hab) fun _ _ hab _ => by simpa using hab) ?_
    · obtain ⟨s', hrun, hs'⟩ := hloop
      refine ⟨s', hrun, hs'.mono ?_ ?_⟩
      · rintro a b (hab | ⟨rfl, hb⟩)
        · exact hgrow a b hab
        · exact ⟨by simp, htransfer.trans (Bool.eq_false_iff.mpr hop),
            by rwa [inputs_eq hn]⟩
      · rintro a b ⟨ha, hab⟩ _
        rcases mem_append.mp ha with ha | ha
        · exact .inl ⟨ha, hab⟩
        · obtain rfl := mem_singleton.mp ha
          exact .inr ⟨rfl, by rw [← inputs_eq hn]; exact hab.2⟩
    · intro ps p rest u hsplit hu
      have hp : p ∈ order := htopo.input_mem hv (by rw [inputs_eq hn, hsplit]; simp)
      obtain ⟨u', hrun, hu'⟩ := hu.edge (htopo.lt_len p hp) hp hdst
      refine ⟨u', hrun, hu'.mono ?_ ?_⟩
      · rintro a b ((hab | ⟨rfl, hb⟩) | ⟨rfl, rfl⟩)
        · exact .inl hab
        · exact .inr ⟨rfl, mem_append_left _ hb⟩
        · exact .inr ⟨rfl, by simp⟩
      · rintro a b (hab | ⟨rfl, hb⟩) _
        · exact .inl (.inl hab)
        · rcases mem_append.mp hb with hb | hb
          · exact .inl (.inr ⟨rfl, hb⟩)
          · exact .inr ⟨rfl, mem_singleton.mp hb⟩

/-- **The pass returns** the graph its redirections give. -/
theorem insertCrossDeviceCopies_spec (t : Topology) (horder : topoOrderMulti g roots = some order) :
    ∃ s, insertCrossDeviceCopies g roots t = some (s.final, s.inserted) ∧
      CopyInv g t order (g.ReadIn order) s := by
  have htopo := topoOrderMulti_spec horder
  have hinit : CopyInv g t order (g.ReadIn []) { graph := g } := by
    constructor
    case nodes => exact fun _ _ => rfl
    case len => exact Nat.le_refl _
    case placements => exact fun _ _ => rfl
    case backends => rfl
    case inserted => simp
    case cached => exact fun _ _ _ hk => nomatch hk
    case made => exact fun k hk hlt => absurd hlt (Nat.not_lt.mpr hk)
    case noted => exact fun _ _ _ hk => nomatch hk
    case complete => exact fun _ _ hv => nomatch hv.1
  obtain ⟨s, hs, hinv⟩ := foldlM_invariant (f := visit t)
    (I := fun done s => CopyInv g t order (g.ReadIn done) s) order hinit
    fun done v rest u hsplit hu => hu.visit htopo (by rw [hsplit]; simp)
  exact ⟨s, by simp [insertCrossDeviceCopies, horder, hs, final, redirected], hinv⟩

end Walk

/-! ## The graph after the pass -/

/-- The node an input stands for once each of `copies`, the last one first, is replaced by
its input. -/
def Graph.bypass (g : Graph) (copies : List NodeId) (i : NodeId) : NodeId :=
  copies.foldr (fun k i => if i = k then (g.inputs k).headD k else i) i

/-- The nodes before the copies, with every copy replaced by its input. -/
def Graph.withoutCopies (g : Graph) (copies : List NodeId) : List Node :=
  (g.nodes.take (g.len - copies.length)).map fun n =>
    { n with inputs := n.inputs.map (g.bypass copies) }

namespace Graph

variable {g : Graph} {copies : List NodeId} {i k : NodeId}

theorem bypass_of_not_mem (h : i ∉ copies) : g.bypass copies i = i := by
  induction copies with
  | nil => rfl
  | cons k copies ih =>
    obtain ⟨hne, hrest⟩ := not_or.mp (mt mem_cons.mpr h)
    have hrest := ih hrest
    simp only [bypass, foldr_cons] at hrest ⊢
    rw [hrest, if_neg hne]

/-- A copy stands for what its input stands for. -/
theorem bypass_copy (hsorted : copies.Pairwise (· < ·)) (hk : k ∈ copies) (hin : g.inputs k = [i])
    (hlt : i < k) : g.bypass copies k = g.bypass copies i := by
  obtain ⟨before, after, rfl⟩ := append_of_mem hk
  have hafter := (pairwise_cons.mp (pairwise_append.mp hsorted).2.1).1
  have hk' : g.bypass after k = k := bypass_of_not_mem fun h => Nat.lt_irrefl _ (hafter k h)
  have hi' : g.bypass after i = i :=
    bypass_of_not_mem fun h => Nat.lt_irrefl _ (Nat.lt_trans hlt (hafter i h))
  simp only [bypass, foldr_append, foldr_cons] at hk' hi' ⊢
  rw [hk', hi', if_pos rfl, if_neg (Nat.ne_of_lt hlt), hin, headD_cons]

end Graph

namespace CopyInv

variable {g : Graph} {t : Topology} {roots order : List NodeId} {s : CopyState} {v p k : NodeId}
  {loc : DeviceLocation} (htopo : IsTopoOrder g roots order)
  (h : CopyInv g t order (g.ReadIn order) s)

include htopo h

/-- A redirection goes from a node of the walk to a copy. -/
theorem rewire_bounds (hr : (v, p, k) ∈ s.rewires) : v ∈ order ∧ p ∈ order ∧ g.len ≤ k := by
  obtain ⟨⟨hv, -, hp⟩, _, _, _, _, _, _, _, hk⟩ := h.noted v p k hr
  exact ⟨hv, htopo.input_mem hv hp, (h.cached _ _ _ hk).1.fresh⟩

theorem node_final (id : NodeId) : s.final.nodes[id]? =
    (s.graph.nodes[id]?).map fun n => { n with inputs := n.inputs.map (inputAfter s.rewires id) } :=
  s.graph.node_redirected (fun _ hr => ⟨htopo.lt_len _ (h.rewire_bounds htopo hr).2.1,
    (h.rewire_bounds htopo hr).2.2⟩) id

theorem node_old (hv : v < g.len) : s.final.nodes[v]? =
    (g.nodes[v]?).map fun n => { n with inputs := n.inputs.map (inputAfter s.rewires v) } :=
  h.nodes v hv ▸ h.node_final htopo v

/-- Copies read what they copy. -/
theorem copyOf_cached (hcache : s.copyCache (p, loc) = some k) : CopyOf g s.final p loc k := by
  obtain ⟨hof, -⟩ := h.cached p loc k hcache
  obtain ⟨n, hn, hk⟩ := hof.node
  have hkeep : inputAfter s.rewires k p = p := by
    rcases inputAfter_cases s.rewires k p with hmem | ⟨heq, -⟩
    · exact absurd (htopo.lt_len k (h.rewire_bounds htopo hmem).1) (Nat.not_lt.mpr hof.fresh)
    · exact heq
  refine ⟨hof.fresh, hof.above, ⟨{ n with inputs := n.inputs.map (inputAfter s.rewires p) }, ?_, ?_⟩,
    ?_⟩
  · rw [h.node_final htopo, hn, Option.map_some]
  · simp [h.node_final htopo, hk, hkeep]
  · rw [s.final_tables.2.1]
    exact hof.placed

/-- The copies of the new graph are those of the cache. -/
theorem copyOf_iff : CopyOf g s.final p loc k ↔
    s.copyCache (p, loc) = some k := by
  refine ⟨fun hof => ?_, h.copyOf_cached htopo⟩
  have hlt := hof.lt
  rw [s.final_tables.1] at hlt
  obtain ⟨q, loc', hq⟩ := h.made k hof.fresh hlt
  have hof' := h.copyOf_cached htopo hq
  obtain rfl : p = q := by simpa [hof.inputs] using hof'.inputs
  obtain rfl : loc = loc' := by simpa [hof.op] using hof'.op
  exact hq

theorem mem_inserted : k ∈ s.inserted ↔
    ∃ p loc, CopyOf g s.final p loc k := by
  have hlen := h.len
  rw [h.inserted, mem_range'_1, Nat.add_sub_cancel' hlen]
  constructor
  · rintro ⟨hfresh, hlt⟩
    obtain ⟨p, loc, hp⟩ := h.made k hfresh hlt
    exact ⟨p, loc, h.copyOf_cached htopo hp⟩
  · rintro ⟨p, loc, hof⟩
    exact ⟨hof.fresh, s.final_tables.1 ▸ hof.lt⟩

/-- Nodes the roots still need are nodes of the walk or copies. -/
theorem needed_final (hid : Needed s.final.inputs roots k) :
    k ∈ order ∨ g.len ≤ k ∧ k < s.graph.len := by
  refine hid.closed (P := fun b => b ∈ order ∨ g.len ≤ b ∧ b < s.graph.len)
    (fun r hr => .inl (htopo.root_mem hr)) fun b hb i hi => ?_
  rcases hb with hb | ⟨hfresh, hlt⟩
  · rw [inputs_of_map (h.node_old htopo (htopo.lt_len b hb))] at hi
    obtain ⟨p, hp, rfl⟩ := mem_map.mp hi
    rcases inputAfter_cases s.rewires b p with hmem | ⟨heq, -⟩
    · obtain ⟨-, _, _, _, _, _, _, _, hk⟩ := h.noted _ _ _ hmem
      obtain ⟨hof, -⟩ := h.cached _ _ _ hk
      exact .inr ⟨hof.fresh, hof.lt⟩
    · exact .inl (heq.symm ▸ htopo.input_mem hb hp)
  · obtain ⟨p, loc, hp⟩ := h.made b hfresh hlt
    rw [(h.copyOf_cached htopo hp).inputs, mem_singleton] at hi
    subst hi
    obtain ⟨hof, hknown⟩ := h.cached _ _ _ hp
    exact hknown.imp_right fun hle => ⟨hle, Nat.lt_trans hof.above hlt⟩

theorem bypass_inputAfter (hp : p < g.len) :
    s.final.bypass s.inserted (inputAfter s.rewires v p) = p := by
  have hsorted : s.inserted.Pairwise (· < ·) := by
    rw [h.inserted]
    exact pairwise_lt_range'
  have hcopy : ∀ {source loc k}, s.copyCache (source, loc) = some k →
      s.final.bypass s.inserted k =
        s.final.bypass s.inserted source := by
    intro source loc k hk
    have hof := h.copyOf_cached htopo hk
    exact bypass_copy hsorted ((h.mem_inserted htopo).mpr ⟨_, _, hof⟩) hof.inputs hof.above
  have hold : s.final.bypass s.inserted p = p := by
    refine bypass_of_not_mem fun hmem => ?_
    obtain ⟨_, _, hof⟩ := (h.mem_inserted htopo).mp hmem
    exact Nat.not_lt.mpr hof.fresh hp
  rcases inputAfter_cases s.rewires v p with hmem | ⟨heq, -⟩
  · obtain ⟨-, src, dst, source, -, -, -, hstaged, hk⟩ := h.noted _ _ _ hmem
    rw [hcopy hk]
    cases hhost : t.needsHostStaging src dst with
    | true =>
      rw [hhost] at hstaged
      rw [hcopy hstaged, hold]
    | false =>
      rw [hhost] at hstaged
      rw [show source = p from hstaged, hold]
  · rw [heq, hold]

theorem withoutCopies (hin : ∀ id, ∀ i ∈ g.inputs id, i < g.len) :
    s.final.withoutCopies s.inserted = g.nodes := by
  have hlen : s.final.len - s.inserted.length = g.len := by
    rw [s.final_tables.1, h.inserted, length_range', Nat.sub_sub_self h.len]
  refine ext_getElem? fun id => ?_
  rw [Graph.withoutCopies, hlen, getElem?_map, getElem?_take]
  split
  · rename_i hid
    rw [h.node_old htopo hid]
    cases hn : g.nodes[id]? with
    | none => rfl
    | some n =>
      have hinputs : (n.inputs.map (inputAfter s.rewires id)).map
          (s.final.bypass s.inserted) = n.inputs := by
        rw [map_map]
        refine (map_congr_left fun p hp => ?_).trans (map_id _)
        exact h.bypass_inputAfter htopo (hin id p (by rwa [inputs_eq hn]))
      simp [hinputs]
  · rename_i hid
    exact (getElem?_eq_none (Nat.le_of_not_lt hid)).symm

end CopyInv

/-! ## Every edge is bridged once -/

/-- An edge joins devices that share storage, or comes from a copy on the consumer's. -/
def EdgesBridged (roots : List NodeId) (t : Topology) (g' : Graph) (inserted : List NodeId) : Prop :=
  ∀ v, Needed g'.inputs roots v → g'.isTransfer v = false → ∀ i ∈ g'.inputs v, ∀ src dst,
    g'.placements i = some src → g'.placements v = some dst →
      t.sharesStorage src dst = true ∨ i ∈ inserted ∧ g'.op? i = some (.copy dst) ∧ src = dst

/-- `g'` is `g` with copies `inserted` between the devices of `t`. -/
structure Bridged (g : Graph) (roots : List NodeId) (t : Topology) (g' : Graph)
    (inserted : List NodeId) : Prop where
  edges : EdgesBridged roots t g' inserted
  /-- An edge that needs the host reads a copy of the producer's copy there, by `once` the
  only one. -/
  staged : ∀ (v p : NodeId) (src dst : DeviceLocation), Needed g.inputs roots v →
    g.isTransfer v = false → p ∈ g.inputs v → g.placements p = some src →
    g.placements v = some dst → t.sharesStorage src dst = false →
    t.needsHostStaging src dst = true → ∃ host k, CopyOf g g' p .cpu host ∧
      CopyOf g g' host dst k ∧ ∀ j : Nat, (g.inputs v)[j]? = some p → (g'.inputs v)[j]? = some k
  copies : ∀ k, k ∈ inserted ↔ ∃ p loc, CopyOf g g' p loc k
  once : ∀ p loc k k', CopyOf g g' p loc k → CopyOf g g' p loc k' → k = k'
  original : g'.withoutCopies inserted = g.nodes ∧
    (∀ id < g.len, g'.placements id = g.placements id) ∧ g'.targetBackends = g.targetBackends
  again : insertCrossDeviceCopies g' roots { t with placementFor := g'.placements } =
    some (g', [])

theorem CopyInv.edges {g : Graph} {t : Topology} {roots order : List NodeId} {s : CopyState}
    (htopo : IsTopoOrder g roots order) (h : CopyInv g t order (g.ReadIn order) s)
    (hplacement : t.placementFor = g.placements) : EdgesBridged roots t s.final s.inserted := by
  have hplaced := s.final_tables.2.1
  intro v hv htransfer i hi src dst hsrc hdst
  rcases h.needed_final htopo hv with hv | ⟨hfresh, hlt⟩
  · have hvlt := htopo.lt_len v hv
    rw [inputs_of_map (h.node_old htopo hvlt)] at hi
    obtain ⟨p, hp, rfl⟩ := mem_map.mp hi
    have hplt := htopo.lt_len p (htopo.input_mem hv hp)
    rw [hplaced, h.placements v hvlt, ← hplacement] at hdst
    rw [isTransfer, op_of_map (h.node_old htopo hvlt)] at htransfer
    rcases inputAfter_cases s.rewires v p with hmem | ⟨heq, hnone⟩
    · obtain ⟨-, -, dst', source, -, hdst', -, -, hk⟩ := h.noted _ _ _ hmem
      obtain rfl : dst' = dst := Option.mem_unique hdst' hdst
      have hof := h.copyOf_cached htopo hk
      exact .inr ⟨(h.mem_inserted htopo).mpr ⟨_, _, hof⟩, hof.op,
        Option.mem_unique hsrc hof.placed⟩
    · rw [heq, hplaced, h.placements p hplt, ← hplacement] at hsrc
      left
      by_contra hshare
      obtain ⟨k, hk⟩ := h.complete v p ⟨hv, htransfer, hp⟩
        ⟨src, dst, hsrc, hdst, Bool.eq_false_iff.mpr hshare⟩
      exact hnone k hk
  · obtain ⟨p, loc, hp⟩ := h.made v hfresh hlt
    rw [isTransfer, (h.copyOf_cached htopo hp).op] at htransfer
    cases htransfer

/-- A graph without crossing edges is left as it is. -/
theorem insertCrossDeviceCopies_quiet {g : Graph} {t : Topology} {roots order : List NodeId}
    (horder : topoOrderMulti g roots = some order)
    (hquiet : ∀ v p, g.ReadIn order v p → ¬ t.Crosses v p) :
    insertCrossDeviceCopies g roots t = some (g, []) := by
  have hsame : ∀ {β : Type} {f : CopyState → β → Option CopyState} {s : CopyState} (l : List β),
      (∀ b ∈ l, f s b = some s) → l.foldlM f s = some s := by
    intro β f s l hl
    obtain ⟨s', hrun, rfl⟩ := foldlM_invariant (f := f) (I := fun _ s' => s' = s) l rfl
      fun done b rest u hsplit hu => ⟨s, hu ▸ hl b (by rw [hsplit]; simp), rfl⟩
    exact hrun
  have hrun : order.foldlM (visit t) { graph := g } = some { graph := g } := by
    refine hsame order fun v hv => ?_
    have hlt := (topoOrderMulti_spec horder).lt_len v hv
    obtain ⟨n, hn⟩ : ∃ n, g.nodes[v]? = some n := ⟨_, getElem?_eq_getElem hlt⟩
    unfold visit
    split
    · rfl
    · rename_i dst hdst
      simp only [hn, Option.bind_eq_bind, Option.bind_some]
      split
      · rfl
      · rename_i hop
        refine hsame n.inputs fun p hp => edge_of_not_crosses hdst (hquiet v p ?_)
        exact ⟨hv, by simpa [isTransfer, op?, hn] using hop, by rwa [inputs_eq hn]⟩
  simp [insertCrossDeviceCopies, horder, hrun]

/-- **Every edge is bridged once.** -/
theorem insert_cross_device_copies_bridges {g : Graph} {roots : List NodeId} {t : Topology}
    (hin : ∀ id, ∀ i ∈ g.inputs id, i < g.len) (hroots : ∀ r ∈ roots, r < g.len)
    (hplacement : t.placementFor = g.placements) (hrefl : ∀ d, t.sharesStorage d d = true) :
    ∃ g' inserted, insertCrossDeviceCopies g roots t = some (g', inserted) ∧
      Bridged g roots t g' inserted := by
  have hneeded : ∀ id, Needed g.inputs roots id → id < g.len :=
    fun id hid => hid.closed hroots fun b _ i hi => hin b i hi
  obtain ⟨order, horder⟩ := topoOrderMulti_isSome hneeded
  have htopo := topoOrderMulti_spec horder
  obtain ⟨s, hrun, h⟩ := insertCrossDeviceCopies_spec t horder
  obtain ⟨hlen, hplaced, hbackends⟩ := s.final_tables
  refine ⟨_, _, hrun, ?_⟩
  have hedges := h.edges htopo hplacement
  constructor
  case edges => exact hedges
  case staged =>
    intro v p src dst hv htransfer hp hsrc hdst hshare hhost
    rw [← hplacement] at hsrc hdst
    have hvo := (htopo.mem v).mpr hv
    obtain ⟨k, hk⟩ := h.complete v p ⟨hvo, htransfer, hp⟩ ⟨src, dst, hsrc, hdst, hshare⟩
    rcases inputAfter_cases s.rewires v p with hmem | ⟨-, hnone⟩
    · obtain ⟨-, src', dst', host, hsrc', hdst', -, hstaged, hk⟩ := h.noted _ _ _ hmem
      obtain rfl : src' = src := Option.mem_unique hsrc' hsrc
      obtain rfl : dst' = dst := Option.mem_unique hdst' hdst
      rw [hhost] at hstaged
      refine ⟨host, _, h.copyOf_cached htopo hstaged, h.copyOf_cached htopo hk, fun j hj => ?_⟩
      rw [inputs_of_map (h.node_old htopo (htopo.lt_len v hvo)), getElem?_map, hj,
        Option.map_some]
    · exact absurd hk (hnone k)
  case copies => exact fun k => h.mem_inserted htopo
  case once =>
    intro p loc k k' hk hk'
    rw [h.copyOf_iff htopo] at hk hk'
    exact Option.mem_unique hk hk'
  case original =>
    exact ⟨h.withoutCopies htopo hin, fun id hid => hplaced ▸ h.placements id hid,
      hbackends.trans h.backends⟩
  case again =>
    have hlt : ∀ id, Needed s.final.inputs roots id →
        id < s.final.len := by
      intro id hid
      rw [hlen]
      rcases h.needed_final htopo hid with hmem | ⟨-, hlt⟩
      · exact Nat.lt_of_lt_of_le (htopo.lt_len id hmem) h.len
      · exact hlt
    obtain ⟨order', horder'⟩ := topoOrderMulti_isSome hlt
    refine insertCrossDeviceCopies_quiet horder' ?_
    rintro v p ⟨hv, htransfer, hp⟩ ⟨src, dst, hsrc, hdst, hshare⟩
    rcases hedges v (((topoOrderMulti_spec horder').mem v).mp hv) htransfer p hp src dst hsrc hdst
      with hs | ⟨-, -, rfl⟩
    · rw [hs] at hshare
      cases hshare
    · rw [hrefl] at hshare
      cases hshare

/-- A tensor on one vendor's device that two nodes on another's read, one of them twice. -/
def twoVendors : Graph where
  nodes := [plainNode .const [], plainNode .relu [0], plainNode .add [0, 0]]
  placements := fun id => if id = 0 then some (.cuda 0) else some (.vulkan 0)

/-- Devices share storage with themselves only; between two that are not the host, copies
go through it. -/
def vendorTopology : Topology where
  placementFor := twoVendors.placements
  sharesStorage a b := decide (a = b)
  needsHostStaging a b := decide (a ≠ .cpu) && decide (b ≠ .cpu)

/-- Both consumers read one copy of one host copy. -/
theorem twoVendors_share_the_host_copy : ∃ g',
    insertCrossDeviceCopies twoVendors [1, 2] vendorTopology = some (g', [3, 4]) ∧
      g'.inputs 2 = [4, 4] ∧ g'.inputs 1 = [4] ∧ g'.inputs 4 = [3] ∧
      Bridged twoVendors [1, 2] vendorTopology g' [3, 4] := by
  have hnodes : ∀ id < twoVendors.len, ∀ i ∈ twoVendors.inputs id, i < twoVendors.len := by
    decide +kernel
  obtain ⟨g', inserted, hrun, hb⟩ := insert_cross_device_copies_bridges (t := vendorTopology)
    (fun id i hi => hnodes id (lt_len_of_mem_inputs hi) i hi)
    (show ∀ r ∈ [1, 2], r < twoVendors.len by decide +kernel) rfl (by simp [vendorTopology])
  have hresult : (insertCrossDeviceCopies twoVendors [1, 2] vendorTopology).map
      (fun r => (r.2, r.1.inputs 2, r.1.inputs 1, r.1.inputs 4)) =
        some ([3, 4], [4, 4], [4], [3]) := by decide +kernel
  rw [hrun, Option.map_some, Option.some.injEq] at hresult
  simp only [Prod.mk.injEq] at hresult
  obtain ⟨rfl, h₂, h₁, h₄⟩ := hresult
  exact ⟨g', hrun, h₂, h₁, h₄, hb⟩

end Fuel.IR
