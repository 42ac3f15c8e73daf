import Fuel.IR.Plan
import Fuel.IR.Semantics

/-!
# In-place execution along a plan

A storage is named by the node that allocated it. A node is bound to a storage
and to a way of reading its value out of the storage's contents, so two nodes
bound to one storage alias: writing through one changes what the other reads.

Views and bundle projections share their input's storage, reshapes do so or not
as the run decides, in-place ops write through the storage they destroy,
`Release` and `Move` free it, and every other op allocates.

The invariant `Sound` speaks of the nodes whose alias group no executed op has
destroyed: each still reads its purely functional value, and two of them on one
storage are in one group. A plan keeps it step by step (`exec_sound`).
-/

namespace Fuel.IR

open Fuel.DepGraph Relation List Function

variable {V C : Type}

/-! ## The machine -/

/-- What the ops compute, and how values sit in storage: `load` reads a
storage the node allocated, `reload` one it wrote through. -/
structure Interp (V C : Type) where
  value : NodeId → List V → V
  store : NodeId → V → C
  load : NodeId → C → V
  load_store : ∀ id v, load id (store id v) = v
  overwrite : NodeId → C → V → C
  reload : NodeId → C → V
  reload_overwrite : ∀ id c v, reload id (overwrite id c v) = v
  /-- Whether a reshape shares its input's storage in this run. -/
  shares : NodeId → Bool

/-- Where a node's value is and how it is read there. -/
structure Binding (V C : Type) where
  loc : NodeId
  read : C → V

/-- Storage contents, `none` for one never allocated or freed, and node bindings. -/
structure Memory (V C : Type) where
  cells : NodeId → Option C
  bindings : NodeId → Option (Binding V C)

namespace Memory

def empty : Memory V C := ⟨fun _ => none, fun _ => none⟩

/-- The value a node reads now. -/
def read (m : Memory V C) (id : NodeId) : Option V :=
  (m.bindings id).bind fun b => (m.cells b.loc).map b.read

def setCell (m : Memory V C) (loc : NodeId) (c : Option C) : Memory V C :=
  { m with cells := Function.update m.cells loc c }

def bind (m : Memory V C) (id : NodeId) (b : Option (Binding V C)) : Memory V C :=
  { m with bindings := Function.update m.bindings id b }

/-- A fresh storage for `id`. -/
def allocate (I : Interp V C) (m : Memory V C) (id : NodeId) (out : Option V) : Memory V C :=
  (m.setCell id (out.map (I.store id))).bind id (some ⟨id, I.load id⟩)

/-- `id` writes its value through storage `loc` and returns it. -/
def writeThrough (I : Interp V C) (m : Memory V C) (id loc : NodeId) (out : Option V) :
    Memory V C :=
  (m.setCell loc ((m.cells loc).bind fun c => out.map (I.overwrite id c))).bind id
    (some ⟨loc, I.reload id⟩)

/-- `id` reinterprets the storage of `inp`. -/
def share (I : Interp V C) (m : Memory V C) (id inp : NodeId) : Memory V C :=
  m.bind id ((m.bindings inp).map fun b => ⟨b.loc, fun c => I.value id [b.read c]⟩)

end Memory

/-- The input whose storage a node shares in this run. -/
def Graph.sharedInput (g : Graph) (shares : NodeId → Bool) (id : NodeId) : Option NodeId :=
  (g.aliasInput id).filter fun _ =>
    !((g.op? id).map Op.mayMaterialize).getD false || shares id

def Graph.frees (g : Graph) (id : NodeId) : Bool := ((g.op? id).map Op.frees).getD false

/-- One node of the walk. -/
def exec (g : Graph) (I : Interp V C) (m : Memory V C) (id : NodeId) : Memory V C :=
  match g.sharedInput I.shares id with
  | some inp => m.share I id inp
  | none =>
    let out := ((g.args id).mapM m.read).map (I.value id)
    match (g.destroyed id).bind m.bindings with
    | none => m.allocate I id out
    | some b =>
      if g.frees id then (m.setCell b.loc none).allocate I id out
      else m.writeThrough I id b.loc out

/-- Walking a plan from empty memory. -/
def execute (g : Graph) (I : Interp V C) (plan : List NodeId) : Memory V C :=
  plan.foldl (exec g I) Memory.empty

namespace Memory

variable (m : Memory V C)

include m

theorem setCell_self (loc : NodeId) (c : Option C) : (m.setCell loc c).cells loc = c :=
  update_self ..

theorem setCell_of_ne {loc l : NodeId} (c : Option C) (h : l ≠ loc) :
    (m.setCell loc c).cells l = m.cells l :=
  update_of_ne h ..

theorem bind_self (id : NodeId) (b : Option (Binding V C)) : (m.bind id b).bindings id = b :=
  update_self ..

theorem bind_of_ne {id i : NodeId} (b : Option (Binding V C)) (h : i ≠ id) :
    (m.bind id b).bindings i = m.bindings i :=
  update_of_ne h ..

end Memory

/-! ## The invariant -/

/-- The node is bound to a storage from which it reads `v`. -/
def Memory.Reads (m : Memory V C) (b : Binding V C) (v : V) : Prop :=
  ∃ c, m.cells b.loc = some c ∧ b.read c = v

theorem Memory.Reads.read {m : Memory V C} {id : NodeId} {b : Binding V C} {v : V}
    (hb : m.bindings id = some b) (h : m.Reads b v) : m.read id = some v := by
  obtain ⟨c, hc, hv⟩ := h
  simp [Memory.read, hb, hc, hv]

/-- After the nodes `done`, every node that is `live` reads its value, and live
nodes on one storage have one group id. -/
structure Sound (g : Graph) (value : NodeId → List V → V) (root : NodeId → NodeId)
    (live : NodeId → Prop) (done : List NodeId) (m : Memory V C) : Prop where
  reads : ∀ i ∈ done, live i → ∃ b v, m.bindings i = some b ∧ m.Reads b v ∧ Denotes g value i v
  owner : ∀ i ∈ done, ∀ j ∈ done, live i → live j → ∀ bi bj, m.bindings i = some bi →
    m.bindings j = some bj → bi.loc = bj.loc → root i = root j
  bound : ∀ i b, m.bindings i = some b → b.loc ∈ done

namespace Sound

variable {g : Graph} {value : NodeId → List V → V} {root : NodeId → NodeId}
  {live live' : NodeId → Prop} {done : List NodeId} {m : Memory V C} {id : NodeId}

theorem empty : Sound g value root live [] (Memory.empty : Memory V C) := by
  constructor
  · intro i hi; cases hi
  · intro i hi; cases hi
  · intro i b hb; cases hb

variable (h : Sound g value root live done m) {I : Interp V C}

include h

theorem weaken (hle : ∀ i, live' i → live i) : Sound g value root live' done m := by
  constructor
  · intro i hi hl
    exact h.reads i hi (hle i hl)
  · intro i hi j hj hli hlj
    exact h.owner i hi j hj (hle i hli) (hle j hlj)
  · exact h.bound

/-- Contents may change at a storage that no live node uses any more. -/
theorem setCell {loc : NodeId} (c : Option C)
    (hunused : ∀ i ∈ done, live i → ∀ b, m.bindings i = some b → b.loc ≠ loc) :
    Sound g value root live done (m.setCell loc c) := by
  constructor
  · intro i hi hl
    obtain ⟨b, v, hb, ⟨c', hc', hv⟩, hden⟩ := h.reads i hi hl
    exact ⟨b, v, hb, ⟨c', by rw [m.setCell_of_ne c (hunused i hi hl b hb), hc'], hv⟩, hden⟩
  · exact h.owner
  · exact h.bound

/-- The next node gets its binding. -/
theorem bind (hnew : id ∉ done) {ob : Option (Binding V C)}
    (hreads : live id → ∃ b v, ob = some b ∧ m.Reads b v ∧ Denotes g value id v)
    (howner : ∀ b, ob = some b → live id → ∀ j ∈ done, live j → ∀ bj, m.bindings j = some bj →
      bj.loc = b.loc → root j = root id) (hbound : ∀ b, ob = some b → b.loc ∈ done ++ [id]) :
    Sound g value root live (done ++ [id]) (m.bind id ob) := by
  have hold : ∀ i ∈ done, (m.bind id ob).bindings i = m.bindings i :=
    fun i hi => m.bind_of_ne ob fun he => hnew (he ▸ hi)
  have hself : (m.bind id ob).bindings id = ob := m.bind_self id ob
  constructor
  case reads =>
    intro i hi hl
    rcases mem_append.mp hi with hi | hi
    · rw [hold i hi]
      exact h.reads i hi hl
    · obtain rfl : i = id := mem_singleton.mp hi
      rw [hself]
      exact hreads hl
  case owner =>
    intro i hi j hj hli hlj bi bj hbi hbj hloc
    by_cases hi' : i = id <;> by_cases hj' : j = id
    · rw [hi', hj']
    · have hjd : j ∈ done := (mem_append.mp hj).resolve_right (by simpa using hj')
      rw [hi'] at hbi hli ⊢
      rw [hself] at hbi
      rw [hold j hjd] at hbj
      exact (howner bi hbi hli j hjd hlj bj hbj hloc.symm).symm
    · have hid : i ∈ done := (mem_append.mp hi).resolve_right (by simpa using hi')
      rw [hj'] at hbj hlj ⊢
      rw [hold i hid] at hbi
      rw [hself] at hbj
      exact howner bj hbj hlj i hid hli bi hbi hloc
    · have hid : i ∈ done := (mem_append.mp hi).resolve_right (by simpa using hi')
      have hjd : j ∈ done := (mem_append.mp hj).resolve_right (by simpa using hj')
      rw [hold i hid] at hbi
      rw [hold j hjd] at hbj
      exact h.owner i hid j hjd hli hlj bi bj hbi hbj hloc
  case bound =>
    intro i b hb
    by_cases hi : i = id
    · rw [hi, hself] at hb
      exact hbound b hb
    · rw [m.bind_of_ne ob hi] at hb
      exact mem_append_left _ (h.bound i b hb)

/-- The arguments of a node read to their values when all are live. -/
theorem args_read {as : List NodeId} (hdone : ∀ a ∈ as, a ∈ done) (hlive : ∀ a ∈ as, live a) :
    ∃ vs, as.mapM m.read = some vs ∧ List.Forall₂ (Denotes g value) as vs := by
  induction as with
  | nil => exact ⟨[], rfl, .nil⟩
  | cons a as ih =>
    obtain ⟨b, v, hb, hr, hden⟩ := h.reads a (hdone a mem_cons_self)
      (hlive a mem_cons_self)
    obtain ⟨vs, hvs, hdens⟩ := ih (fun i hi => hdone i (mem_cons_of_mem _ hi))
      (fun i hi => hlive i (mem_cons_of_mem _ hi))
    exact ⟨v :: vs, by simp [hr.read hb, hvs], .cons hden hdens⟩

omit h

/-- Allocation disturbs nothing: the new storage is named by the new node. -/
theorem allocate (h : Sound g I.value root live done m) (hnew : id ∉ done)
    {out : Option V} (hout : live id → ∃ v, out = some v ∧ Denotes g I.value id v) :
    Sound g I.value root live (done ++ [id]) (m.allocate I id out) := by
  have hne : ∀ i ∈ done, live i → ∀ b, m.bindings i = some b → b.loc ≠ id :=
    fun i _ _ b hb he => hnew (he ▸ h.bound i b hb)
  refine (h.setCell _ hne).bind hnew ?_ ?_ ?_
  · intro hl
    obtain ⟨v, rfl, hden⟩ := hout hl
    refine ⟨_, v, rfl, ⟨I.store id v, ?_, I.load_store id v⟩, hden⟩
    rw [Memory.setCell_self]
    rfl
  · rintro b hb - j hj hlj bj hbj hloc
    cases hb
    exact absurd hloc (hne j hj hlj bj hbj)
  · intro b hb
    cases hb
    simp

/-- Sharing puts the new node on its input's storage, in its input's group. -/
theorem share (h : Sound g I.value root live done m) (hnew : id ∉ done)
    {inp : NodeId} (halias : g.aliasInput id = some inp) (hdone : inp ∈ done)
    (hlive : live id → live inp) (hroot : root id = root inp) :
    Sound g I.value root live (done ++ [id]) (m.share I id inp) := by
  refine h.bind hnew ?_ ?_ ?_
  · intro hl
    obtain ⟨b, v, hb, ⟨c, hc, hv⟩, hden⟩ := h.reads inp hdone (hlive hl)
    have hargs : g.args id = [inp] := by simp [Graph.args, halias]
    have hread : I.value id [b.read c] = I.value id [v] := by rw [hv]
    exact ⟨⟨b.loc, fun c => I.value id [b.read c]⟩, I.value id [v], by rw [hb]; rfl,
      ⟨c, hc, hread⟩, Denotes.intro (by rw [hargs]; exact .cons hden .nil)⟩
  · intro b hb hl j hj hlj bj hbj hloc
    obtain ⟨b', hb', rfl⟩ := Option.map_eq_some_iff.mp hb
    exact (h.owner j hj inp hdone hlj (hlive hl) bj b' hbj hb' hloc).trans hroot.symm
  · intro b hb
    obtain ⟨b', hb', rfl⟩ := Option.map_eq_some_iff.mp hb
    exact mem_append_left _ (h.bound inp b' hb')

/-- Writing through a storage that only the destroyed group was using. -/
theorem writeThrough (h : Sound g I.value root live done m) (hnew : id ∉ done)
    {loc : NodeId} (hloc : loc ∈ done)
    (hunused : ∀ i ∈ done, live i → ∀ b, m.bindings i = some b → b.loc ≠ loc)
    {c : C} (hc : m.cells loc = some c) {v : V} (hden : Denotes g I.value id v) :
    Sound g I.value root live (done ++ [id]) (m.writeThrough I id loc (some v)) := by
  refine (h.setCell _ hunused).bind hnew ?_ ?_ ?_
  · intro _
    refine ⟨_, v, rfl, ⟨I.overwrite id c v, ?_, I.reload_overwrite id c v⟩, hden⟩
    rw [Memory.setCell_self, hc]
    rfl
  · rintro b hb - j hj hlj bj hbj hl
    cases hb
    exact absurd hl (hunused j hj hlj bj hbj)
  · intro b hb
    cases hb
    exact mem_append_left _ hloc

end Sound

/-! ## One step of a plan -/

/-- No executed op has destroyed a member of the node's alias group. -/
def Live (g : Graph) (root : NodeId → NodeId) (done : List NodeId) (i : NodeId) : Prop :=
  ∀ d ∈ done, ∀ x, g.destroyed d = some x → root x ≠ root i

theorem Live.snoc {g : Graph} {root : NodeId → NodeId} {done : List NodeId} {id i : NodeId}
    (h : Live g root (done ++ [id]) i) :
    Live g root done i ∧ ∀ x, g.destroyed id = some x → root x ≠ root i :=
  ⟨fun d hd => h d (mem_append_left _ hd), h id (by simp)⟩

section Step

variable {g : Graph} {roots order plan done rest : List NodeId} {id : NodeId}

/-- **A node that is not itself an alias runs while its inputs' groups are
intact**: whatever destroys one of them waits for this node. -/
theorem inputs_live (htopo : IsTopoOrder g roots order) (hsched : Schedules g.inputs order)
    (hplan : IsPlan g order plan) (hsplit : plan = done ++ id :: rest)
    (halias : g.aliasInput id = none) {i : NodeId} (hi : i ∈ g.inputs id) :
    Live g (aliasGroups g order).root done i := by
  intro d hd x hx hroot
  have hid : id ∈ order := hplan.mem.mp (by simp [hsplit])
  have hiord : i ∈ order := htopo.input_mem hid hi
  have hinv := aliasGroups_inv htopo.nodup hsched
  have hnd : (done ++ id :: rest).Nodup := hsplit ▸ hplan.nodup
  have hnew : id ∉ done := fun h => disjoint_of_nodup_append hnd h mem_cons_self
  -- `id` is its own group, and not the group of one of its inputs
  have hself : (aliasGroups g order).root id = id := root_of_aliasInput_none hinv halias
  have hne : (aliasGroups g order).root id ≠ (aliasGroups g order).root x := by
    intro he
    have hpath := (staticAlias_root htopo hsched hiord).2
    rw [← hroot, ← he, hself] at hpath
    exact hsched.no_cycle htopo.nodup hid (TransGen.trans_right hpath (.single hi))
  have hpin : id ∈ pins g order d :=
    (mem_pins htopo hsched).mpr ⟨x, i, hx, hid, hi, fun h => hnew (h ▸ hd), hroot.symm, hne⟩
  obtain ⟨p, q, hdone⟩ := append_of_mem hd
  have hmem := hplan.pins_first p d (q ++ id :: rest) (by rw [hsplit, hdone]; simp) id hpin
  exact hnew (by rw [hdone]; exact mem_append_left _ hmem)

/-- **One node of the walk keeps the invariant.** -/
theorem exec_sound {I : Interp V C} {m : Memory V C} (htopo : IsTopoOrder g roots order)
    (hsched : Schedules g.inputs order) (hplan : IsPlan g order plan)
    (hsplit : plan = done ++ id :: rest)
    (h : Sound g I.value (aliasGroups g order).root (Live g (aliasGroups g order).root done)
      done m) :
    Sound g I.value (aliasGroups g order).root
      (Live g (aliasGroups g order).root (done ++ [id])) (done ++ [id]) (exec g I m id) := by
  have hinv := aliasGroups_inv htopo.nodup hsched
  have hid : id ∈ order := hplan.mem.mp (by simp [hsplit])
  have hnd : (done ++ id :: rest).Nodup := hsplit ▸ hplan.nodup
  have hnew : id ∉ done := fun h => disjoint_of_nodup_append hnd h mem_cons_self
  have hin : ∀ i ∈ g.inputs id, i ∈ done := hplan.inputs_first done id rest hsplit
  have hweak := h.weaken fun i (hi : Live g _ (done ++ [id]) i) => hi.snoc.1
  -- a live node has live arguments: an alias has its argument's group
  have hargs : Live g (aliasGroups g order).root (done ++ [id]) id →
      ∀ a ∈ g.args id, Live g (aliasGroups g order).root done a := by
    intro hl a ha
    cases halias : g.aliasInput id with
    | none => exact inputs_live htopo hsched hplan hsplit halias (Graph.args_subset ha)
    | some inp =>
      rw [Graph.args, halias] at ha
      rw [mem_singleton.mp ha]
      intro d hd x hx
      rw [← root_of_aliasInput_some hinv hid halias]
      exact hl.snoc.1 d hd x hx
  unfold exec
  cases hshare : g.sharedInput I.shares id with
  | some inp =>
    have halias : g.aliasInput id = some inp := (Option.filter_eq_some_iff.mp hshare).1
    have hroot := root_of_aliasInput_some hinv hid halias
    refine hweak.share hnew halias (hin inp (Graph.aliasInput_mem_inputs halias)) ?_ hroot
    intro hl d hd x hx
    rw [← hroot]
    exact hl d hd x hx
  | none =>
    have hout : Live g (aliasGroups g order).root (done ++ [id]) id →
        ∃ v, ((g.args id).mapM m.read).map (I.value id) = some v ∧ Denotes g I.value id v := by
      intro hl
      obtain ⟨vs, hvs, hden⟩ := h.args_read (fun a ha => hin a (Graph.args_subset ha)) (hargs hl)
      exact ⟨I.value id vs, by rw [hvs]; rfl, Denotes.intro hden⟩
    cases hx : g.destroyed id with
    | none => exact hweak.allocate hnew hout
    | some x =>
      have hxin := Graph.destroyed_mem_inputs hx
      have halias : g.aliasInput id = none := by
        cases halias : g.aliasInput id with
        | none => rfl
        | some inp =>
          rw [Graph.destroyed_of_aliasInput halias] at hx
          cases hx
      have hlive := fun {i} (hi : i ∈ g.inputs id) =>
        inputs_live htopo hsched hplan hsplit halias hi
      obtain ⟨b, v, hb, ⟨c, hc, -⟩, -⟩ := h.reads x (hin x hxin) (hlive hxin)
      -- after this node the destroyed group is dead, and its storage had no other group
      have hunused : ∀ i ∈ done, Live g (aliasGroups g order).root (done ++ [id]) i →
          ∀ bi, m.bindings i = some bi → bi.loc ≠ b.loc := by
        intro i hi hl bi hbi hloc
        exact hl.snoc.2 x hx
          (h.owner i hi x (hin x hxin) hl.snoc.1 (hlive hxin) bi b hbi hb hloc).symm
      simp only [Option.bind_some, hb]
      split
      · exact (hweak.setCell none hunused).allocate hnew hout
      · obtain ⟨vs, hvs, hden⟩ := h.args_read (fun a ha => hin a (Graph.args_subset ha))
          (fun a ha => hlive (Graph.args_subset ha))
        rw [hvs]
        exact hweak.writeThrough hnew (h.bound x b hb) hunused hc (Denotes.intro hden)

/-- **A whole plan keeps the invariant.** -/
theorem execute_sound (I : Interp V C) (htopo : IsTopoOrder g roots order)
    (hsched : Schedules g.inputs order) (hplan : IsPlan g order plan) :
    Sound g I.value (aliasGroups g order).root (Live g (aliasGroups g order).root plan) plan
      (execute g I plan) := by
  refine foldl_invariant (I := fun done m => Sound g I.value (aliasGroups g order).root
    (Live g (aliasGroups g order).root done) done m) plan Sound.empty ?_
  intro done id rest m hsplit hm
  exact exec_sound htopo hsched hplan hsplit hm

end Step

end Fuel.IR
