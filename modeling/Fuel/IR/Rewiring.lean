import Fuel.IR.SafetyCopies

/-!
# Graphs with redirected inputs

What a rewired graph has in common with the graph it came from: an edge of the
new graph is an edge of the old one once every copy is read as the node it
copies, nodes the roots need stay needed, acyclicity is kept, and so is the
purely functional value of every old node.
-/

namespace Fuel.IR

open Fuel.DepGraph Relation List

/-- No op of the graph may share storage with its first input. -/
def Graph.AliasFree (g : Graph) : Prop :=
  ∀ id op, g.op? id = some op → op.extendsAlias = false

variable {g : Graph}

theorem Graph.aliasFree_of_lt (h : ∀ id < g.len, ∀ op ∈ g.op? id, op.extendsAlias = false) :
    g.AliasFree := by
  intro id op hop
  refine h id ?_ op hop
  by_contra hge
  rw [op?, getElem?_eq_none (Nat.le_of_not_lt hge)] at hop
  cases hop

theorem Graph.AliasFree.aliasInput (h : g.AliasFree) (id : NodeId) : g.aliasInput id = none := by
  unfold Graph.aliasInput
  cases hn : g.nodes[id]? with
  | none => rfl
  | some n =>
    have hop : n.op.extendsAlias = false := h id n.op (by simp [Graph.op?, hn])
    simp [hop]

theorem Graph.AliasFree.args (h : g.AliasFree) (id : NodeId) : g.args id = g.inputs id := by
  simp [Graph.args, h.aliasInput id]

/-! ## Where an input goes -/

section Rewire

variable {len : Nat} {cs : List Conflict}

/-- An input stays, or goes to the copy of the first conflict on it that lists the reader. -/
theorem rewire_cases (len : Nat) (cs : List Conflict) (m i : NodeId) :
    (rewire len cs m i = i ∧ ∀ c ∈ cs, c.target = i → m ∉ c.readers) ∨
      ∃ j c, cs[j]? = some c ∧ c.target = i ∧ m ∈ c.readers ∧ rewire len cs m i = len + j ∧
        ∀ k < j, ∀ c', cs[k]? = some c' → c'.target = i → m ∉ c'.readers := by
  unfold rewire
  cases hfind : cs.findIdx? fun c => decide (c.target = i) && decide (m ∈ c.readers) with
  | none =>
    left
    refine ⟨rfl, fun c hc htarget hm => ?_⟩
    have := findIdx?_eq_none_iff.mp hfind c hc
    simp [htarget, hm] at this
  | some j =>
    right
    obtain ⟨hj, hp, hmin⟩ := findIdx?_eq_some_iff_getElem.mp hfind
    simp only [Bool.and_eq_true, decide_eq_true_eq] at hp
    refine ⟨j, cs[j], getElem?_eq_getElem hj, hp.1, hp.2, rfl, fun k hk c' hc' htarget hm => ?_⟩
    obtain ⟨hklen, rfl⟩ := List.getElem?_eq_some_iff.mp hc'
    exact hmin k hk (by simp [htarget, hm])

theorem rewire_eq_of_first {j : Nat} {c : Conflict} {m : NodeId} (hc : cs[j]? = some c)
    (hm : m ∈ c.readers) (hfirst : ∀ k < j, ∀ c', cs[k]? = some c' → c'.target ≠ c.target) :
    rewire len cs m c.target = len + j := by
  rcases rewire_cases len cs m c.target with ⟨-, hnot⟩ | ⟨k, c', hc', htarget, -, heq, hmin⟩
  · exact absurd hm (hnot c (mem_of_getElem? hc) rfl)
  · rcases Nat.lt_trichotomy k j with hkj | rfl | hjk
    · exact absurd htarget (hfirst k hkj c' hc')
    · exact heq
    · exact absurd hm (hmin j hjk c hc rfl)

end Rewire

/-- The node a copy stands for; an old node stands for itself. -/
def origin (g : Graph) (cs : List Conflict) (id : NodeId) : NodeId :=
  if id < g.len then id else ((cs[id - g.len]?).map (·.target)).getD id

section Origin

variable {g : Graph} {cs : List Conflict}

theorem origin_old {id : NodeId} (h : id < g.len) : origin g cs id = id := by
  simp [origin, h]

theorem origin_copy {j : Nat} {c : Conflict} (h : cs[j]? = some c) :
    origin g cs (g.len + j) = c.target := by
  simp [origin, h]

theorem origin_rewire {m i : NodeId} (hi : i < g.len) :
    origin g cs (rewire g.len cs m i) = i := by
  rcases rewire_cases g.len cs m i with ⟨h, -⟩ | ⟨j, c, hc, htarget, -, h, -⟩
  · rw [h, origin_old hi]
  · rw [h, origin_copy hc, htarget]

end Origin

/-- The nodes of the new graph that count: those of the old order, and the copies. -/
inductive Known (g : Graph) (order : List NodeId) (cs : List Conflict) : NodeId → Prop
  | old {id : NodeId} (h : id ∈ order) : Known g order cs id
  | copy {j : Nat} {c : Conflict} (h : cs[j]? = some c) : Known g order cs (g.len + j)

/-- A rewired graph, with the topological order of the graph it came from. -/
structure RewiredFrom (g : Graph) (roots order : List NodeId) (cs : List Conflict) (g' : Graph) :
    Prop where
  topo : IsTopoOrder g roots order
  schedules : Schedules g.inputs order
  rewired : Rewired g cs g'
  target_mem : ∀ c ∈ cs, c.target ∈ order

namespace RewiredFrom

variable {g g' : Graph} {roots order : List NodeId} {cs : List Conflict} {id a b : NodeId} {j : Nat}
  (h : RewiredFrom g roots order cs g')

include h

theorem inputs_old (hid : id ∈ order) : g'.inputs id = (g.inputs id).map (rewire g.len cs id) :=
  Graph.inputs_of_map (h.rewired.old id (h.topo.lt_len id hid))

theorem inputs_copy {c : Conflict} (hc : cs[j]? = some c) : g'.inputs (g.len + j) = [c.target] := by
  obtain ⟨loc, hnode⟩ := h.rewired.copy j c hc
  exact Graph.inputs_eq hnode

theorem destroyed_old (hid : id ∈ order) :
    g'.destroyed id = (g.destroyed id).map (rewire g.len cs id) :=
  Graph.destroyed_of_map (h.rewired.old id (h.topo.lt_len id hid))

theorem destroyed_copy {c : Conflict} (hc : cs[j]? = some c) : g'.destroyed (g.len + j) = none := by
  obtain ⟨loc, hnode⟩ := h.rewired.copy j c hc
  simp [Graph.destroyed, hnode, Op.destructiveInput]

theorem aliasFree (hfree : g.AliasFree) : g'.AliasFree := by
  intro id op hop
  by_cases hid : id < g.len
  · refine hfree id op ?_
    rwa [Graph.op_of_map (h.rewired.old id hid)] at hop
  -- past the old arena there are only copies
  obtain ⟨n, hn, rfl⟩ := Option.map_eq_some_iff.mp hop
  have hlt : id < g.len + cs.length := h.rewired.len ▸ (lt_of_getElem? hn)
  obtain ⟨j, rfl⟩ := Nat.exists_eq_add_of_le (Nat.le_of_not_lt hid)
  have hj : j < cs.length := Nat.lt_of_add_lt_add_left hlt
  obtain ⟨loc, hnode⟩ := h.rewired.copy j cs[j] (getElem?_eq_getElem hj)
  obtain rfl := Option.mem_unique hn hnode
  rfl

/-! ### Edges and paths -/

theorem origin_mem (hid : Known g order cs id) : origin g cs id ∈ order := by
  cases hid with
  | old hid => rwa [origin_old (h.topo.lt_len id hid)]
  | copy hc => rw [origin_copy hc]; exact h.target_mem _ (mem_of_getElem? hc)

/-- An old node of the order is not a copy. -/
theorem not_copy : g.len + j ∉ order :=
  fun hmem => Nat.not_lt.mpr (Nat.le_add_right g.len j) (h.topo.lt_len _ hmem)

/-- What an old node reads in the new graph: an input of its own, or a copy of one. -/
theorem mem_inputs_old (hb : b ∈ order) (ha : a ∈ g'.inputs b) :
    ∃ i ∈ g.inputs b, a = rewire g.len cs b i ∧ origin g cs a = i ∧
      Known g order cs a := by
  rw [h.inputs_old hb, mem_map] at ha
  obtain ⟨i, hi, rfl⟩ := ha
  have hiord := h.topo.input_mem hb hi
  refine ⟨i, hi, rfl, origin_rewire (h.topo.lt_len i hiord), ?_⟩
  rcases rewire_cases g.len cs b i with ⟨heq, -⟩ | ⟨j, c, hc, -, -, heq, -⟩
  · rw [heq]; exact .old hiord
  · rw [heq]; exact .copy hc

/-- The new data edges are old ones, or lead from a node to its copy. -/
theorem edge_cases (hb : Known g order cs b) (ha : a ∈ g'.inputs b) : Known g order cs a ∧
      (origin g cs a ∈ g.inputs (origin g cs b) ∨
        origin g cs a = origin g cs b ∧ a ∈ order ∧ b ∉ order) := by
  cases hb with
  | old hb =>
    obtain ⟨i, hi, -, rfl, hknown⟩ := h.mem_inputs_old hb ha
    rw [origin_old (h.topo.lt_len b hb)]
    exact ⟨hknown, .inl hi⟩
  | copy hc =>
    rw [h.inputs_copy hc, mem_singleton] at ha
    subst ha
    have hmem := h.target_mem _ (mem_of_getElem? hc)
    rw [origin_copy hc, origin_old (h.topo.lt_len _ hmem)]
    exact ⟨.old hmem, .inr ⟨rfl, hmem, h.not_copy⟩⟩

theorem known_of_needed (ha : Needed g'.inputs roots a) : Known g order cs a :=
  ha.closed (fun _ hr => .old (h.topo.root_mem hr)) fun _ hb _ hab => (h.edge_cases hb hab).1

theorem known_lt_len (ha : Known g order cs a) : a < g'.len := by
  rw [h.rewired.len]
  cases ha with
  | old ha => exact Nat.lt_of_lt_of_le (h.topo.lt_len a ha) (Nat.le_add_right _ _)
  | copy hc => exact Nat.add_lt_add_left (lt_of_getElem? hc) _

/-- An old data edge is a new one, or a path through a copy. -/
theorem path_of_edge (hb : b ∈ order) (hab : a ∈ g.inputs b) :
    TransGen (Precedes g'.inputs) a b := by
  have hedge : Precedes g'.inputs (rewire g.len cs b a) b := by
    unfold Precedes
    rw [h.inputs_old hb]
    exact mem_map_of_mem hab
  rcases rewire_cases g.len cs b a with ⟨heq, -⟩ | ⟨j, c, hc, htarget, -, heq, -⟩
  · rw [heq] at hedge
    exact .single hedge
  · rw [heq] at hedge
    have hcopy : Precedes g'.inputs a (g.len + j) := by
      unfold Precedes
      rw [h.inputs_copy hc, htarget]
      exact mem_singleton_self a
    exact .head hcopy (.single hedge)

/-- Old nodes the roots need are still needed. -/
theorem needed_old (ha : a ∈ order) : Needed g'.inputs roots a :=
  h.topo.needed_of_paths (fun _ hb _ hab => h.path_of_edge hb hab) ha

omit h in
/-- Paths of the new graph, with copies read as the nodes they copy, are paths
of the old one; only the step from a node to its copy disappears. `R'` and `R`
are the new and the old edges. -/
theorem transGen_origin {R R' : NodeId → NodeId → Prop}
    (hstep : ∀ a b, Known g order cs b → R' a b → Known g order cs a ∧
      (R (origin g cs a) (origin g cs b) ∨
        origin g cs a = origin g cs b ∧ a ∈ order ∧ b ∉ order)) (hb : Known g order cs b)
    (hab : TransGen R' a b) : Known g order cs a ∧ (TransGen R (origin g cs a) (origin g cs b) ∨
      origin g cs a = origin g cs b ∧ a ∈ order ∧ b ∉ order) := by
  induction hab using TransGen.head_induction_on with
  | single h₁ =>
    obtain ⟨ha, hedge⟩ := hstep _ _ hb h₁
    exact ⟨ha, hedge.imp_left .single⟩
  | head h₁ _ ih =>
    obtain ⟨hc, hrest⟩ := ih
    obtain ⟨ha, hedge⟩ := hstep _ _ hc h₁
    refine ⟨ha, ?_⟩
    rcases hedge with hedge | ⟨heq, hao, hco⟩
    · rcases hrest with hrest | ⟨heq, -, -⟩
      · exact .inl (.head hedge hrest)
      · exact .inl (.single (heq ▸ hedge))
    · rcases hrest with hrest | ⟨-, hco', -⟩
      · exact .inl (heq ▸ hrest)
      · -- two steps from a node to its copy never follow each other
        exact absurd hco' hco

omit h in
/-- A closed walk of the new graph is a closed walk of the old one. -/
theorem cycle_origin {R R' : NodeId → NodeId → Prop}
    (hstep : ∀ a b, Known g order cs b → R' a b → Known g order cs a ∧
      (R (origin g cs a) (origin g cs b) ∨
        origin g cs a = origin g cs b ∧ a ∈ order ∧ b ∉ order)) (ha : Known g order cs a)
    (hcyc : TransGen R' a a) : TransGen R (origin g cs a) (origin g cs a) := by
  rcases (transGen_origin hstep ha hcyc).2 with hR | ⟨-, hmem, hnot⟩
  · exact hR
  · exact absurd hmem hnot

/-- The new graph is acyclic below the roots. -/
theorem acyclicFrom : g'.AcyclicFrom roots := by
  intro a ha hcyc
  have hknown := h.known_of_needed ha
  exact h.schedules.no_cycle h.topo.nodup (h.origin_mem hknown)
    (cycle_origin (fun _ _ hb hab => h.edge_cases hb hab) hknown hcyc)

theorem topo_isSome : ∃ order', topoOrderMulti g' roots = some order' :=
  topoOrderMulti_isSome fun _ hid => h.known_lt_len (h.known_of_needed hid)

/-! ### Values -/

section Values

variable {V : Type} {value : NodeId → List V → V}

/-- A copy has the value of the node it copies. -/
theorem denotes_rewire (hfree : g.AliasFree)
    (hcopy : ∀ id loc, g'.op? id = some (.copy loc) → ∀ v, value id [v] = v) {m i : NodeId} {v : V}
    (hv : Denotes g' value i v) : Denotes g' value (rewire g.len cs m i) v := by
  rcases rewire_cases g.len cs m i with ⟨heq, -⟩ | ⟨j, c, hc, rfl, -, heq, -⟩
  · rwa [heq]
  · rw [heq]
    obtain ⟨loc, hnode⟩ := h.rewired.copy j c hc
    have hargs : g'.args (g.len + j) = [c.target] := by
      rw [(h.aliasFree hfree).args, h.inputs_copy hc]
    have hden : Denotes g' value (g.len + j) (value (g.len + j) [v]) :=
      Denotes.intro (by rw [hargs]; exact .cons hv .nil)
    rwa [hcopy (g.len + j) loc (by simp [Graph.op?, hnode])] at hden

/-- **Redirecting inputs to copies changes no value.** -/
theorem denotes_iff (hfree : g.AliasFree)
    (hcopy : ∀ id loc, g'.op? id = some (.copy loc) → ∀ v, value id [v] = v)
    {a : NodeId} (ha : a ∈ order) (v : V) : Denotes g' value a v ↔ Denotes g value a v := by
  refine denotes_iff_of_redirect (f := rewire g.len cs) h.schedules ?_ ?_ ha v
  · intro b hb
    rw [(h.aliasFree hfree).args, hfree.args, h.inputs_old hb]
  · intro b _ i _ w hw
    exact h.denotes_rewire hfree hcopy hw

end Values

end RewiredFrom

end Fuel.IR
