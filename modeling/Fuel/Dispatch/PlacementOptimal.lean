import Fuel.Dispatch.PlacementDp
import Fuel.Lib.Lists

/-!
# The placement table is optimal on trees

The rows that are chained into a row, directly or through others, form its tree.
An assignment gives each row of the tree a device; its price is the sum of the
kernel costs, the transfers of fixed inputs and the transfers along the chained
edges, cut off at the largest word.

The argument has two parts. An arrival holds the lowest price of its tree, and
following its choices back gives an assignment with that price. The loop that
commits a row visits exactly the rows of its tree, each at the device the choices
name.
-/

namespace Fuel.Dispatch

open Fuel.IR List

/-- The arguments of a `push_row` call. -/
structure Push where
  node : NodeId
  deviceCosts : List (DeviceLocation × UInt64)
  fixedInputs : List (DeviceLocation × UInt64)
  chainInputs : List ChainInput
  deriving DecidableEq, Repr

/-- A device for each node. -/
abbrev Assignment := NodeId → DeviceLocation

namespace Push

def devices (p : Push) : List DeviceLocation := p.deviceCosts.map Prod.fst

/-- The transfers of a list of edges, as an exact sum. -/
def transfers (est : TransferEstimator) (src dst : DeviceLocation) (edgeBytes : List UInt64) : Nat :=
  (edgeBytes.map fun b => (est.estimateTransferNs src dst b).toNat).sum

/-- What a row adds to the price of an assignment. -/
def cost (est : TransferEstimator) (α : Assignment) (p : Push) : Nat :=
  ((p.deviceCosts.lookup (α p.node)).getD 0).toNat +
  (p.fixedInputs.map fun f => (est.estimateTransferNs f.1 (α p.node) f.2).toNat).sum +
  (p.chainInputs.map fun ci =>
    transfers est (α ci.producer) (α p.node) ci.edgeBytes).sum

end Push

open Push

/-- The rows of a node's tree, among the rows pushed so far, the newest first. -/
def tree : List Push → NodeId → List Push
  | [], _ => []
  | p :: older, n =>
    if p.node = n then p :: p.chainInputs.flatMap fun ci => tree older ci.producer
    else tree older n

/-- The price of an assignment on a node's tree, before the cut-off. -/
def total (est : TransferEstimator) (pushed : List Push) (n : NodeId) (α : Assignment) : Nat :=
  ((tree pushed n).map (cost est α)).sum

/-- The assignment gives each row of the tree one of its devices. -/
def Listed (pushed : List Push) (n : NodeId) (α : Assignment) : Prop :=
  ∀ p ∈ tree pushed n, α p.node ∈ p.devices

/-! ## The recurrence -/

/-- The part of a row that is fixed when it is pushed. -/
structure Entry where
  node : NodeId
  arrivals : List Arrival
  deriving DecidableEq, Repr

def DpRow.entry (r : DpRow) : Entry := ⟨r.node, r.arrivals⟩

/-- A node's row, among rows with the newest first. -/
def rowOf (rows : List Entry) (n : NodeId) : Option Entry := rows.find? fun r => r.node = n

/-- The choice for one chain input of an arrival on `d`. -/
def choice (est : TransferEstimator) (rows : List Entry) (d : DeviceLocation) (ci : ChainInput) :
    Option (Arrival × UInt64) :=
  (rowOf rows ci.producer).bind fun p =>
    firstMin (fun a => est.charge a.device d a.best ci.edgeBytes) p.arrivals

/-- The arrival on `d`, when every chain input has a choice. -/
structure IsArrival (est : TransferEstimator) (rows : List Entry) (p : Push)
    (dc : DeviceLocation × UInt64) (a : Arrival) : Prop where
  device : a.device = dc.1
  choices : ∃ f : ChainInput → Arrival × UInt64,
    (∀ ci ∈ p.chainInputs, choice est rows dc.1 ci = some (f ci)) ∧
    a.back = p.chainInputs.map (fun ci => (ci.producer, (f ci).1.device)) ∧
    a.best.toNat = capped (dc.2.toNat +
      (p.fixedInputs.map fun i => (est.estimateTransferNs i.1 dc.1 i.2).toNat).sum +
      (p.chainInputs.map fun ci => (f ci).2.toNat).sum)

/-- The rows, newest first, that the pushes make. -/
inductive Table (est : TransferEstimator) : List Push → List Entry → Prop
  | nil : Table est [] []
  | cons {older : List Push} {rows : List Entry} {p : Push} {r : Entry} :
      Table est older rows → p.node ∉ older.map node → p.deviceCosts ≠ [] → p.devices.Nodup →
      (∀ ci ∈ p.chainInputs, ci.producer ∈ older.map node) →
      r.node = p.node → List.Forall₂ (IsArrival est rows p) p.deviceCosts r.arrivals →
      Table est (p :: older) (r :: rows)

/-- The commitments of a backtrack: the row's own, and those of the producers that the
arrival names. -/
def picks : List Entry → NodeId → DeviceLocation → Commits
  | [], _, _ => []
  | r :: older, n, d =>
    if r.node = n then
      (n, d) :: ((r.arrivals.find? fun a => a.device = d).map Arrival.back).toList.flatten.flatMap
        fun e => picks older e.1 e.2
    else picks older n d

variable {est : TransferEstimator} {pushed older : List Push} {rows : List Entry}

theorem toNat_charge (src dst : DeviceLocation) (t : UInt64) (edgeBytes : List UInt64) :
    (est.charge src dst t edgeBytes).toNat =
      capped (t.toNat + transfers est src dst edgeBytes) :=
  toNat_foldl_saturatingAdd _ edgeBytes t

namespace Table

variable (h : Table est pushed rows)

include h

theorem nodes_eq : rows.map Entry.node = pushed.map node := by
  induction h with
  | nil => rfl
  | cons _ _ _ _ _ hnode _ ih => rw [map_cons, map_cons, hnode, ih]

theorem nodup : (pushed.map node).Nodup := by
  induction h with
  | nil => exact nodup_nil
  | cons _ hfresh _ _ _ _ _ ih => exact nodup_cons.mpr ⟨hfresh, ih⟩

/-- Every pushed node has a row, with an arrival for each of its devices. -/
theorem exists_row {n : NodeId} (hn : n ∈ pushed.map node) :
    ∃ r, rowOf rows n = some r ∧ r.node = n ∧ r.arrivals ≠ [] := by
  induction h with
  | nil => simp at hn
  | @cons older rows p r _ _ hne _ _ hnode harr ih =>
    by_cases hp : r.node = n
    · refine ⟨r, by simp [rowOf, hp], hp, ?_⟩
      intro hnil
      rw [hnil] at harr
      exact hne (List.forall₂_nil_right_iff.mp harr)
    · obtain ⟨r', hr', hrest⟩ := ih (by
        rcases mem_cons.mp hn with heq | hmem
        · exact absurd (hnode.trans heq.symm) hp
        · exact hmem)
      exact ⟨r', by simpa [rowOf, hp] using hr', hrest⟩

end Table

/-! ## An arrival holds the lowest price of its tree -/

theorem tree_cons_self (p : Push) (older : List Push) :
    tree (p :: older) p.node = p :: p.chainInputs.flatMap fun ci => tree older ci.producer := by
  rw [tree, if_pos rfl]

variable {p : Push} {n : NodeId}

theorem tree_cons_ne (h : p.node ≠ n) : tree (p :: older) n = tree older n := by
  rw [tree, if_neg h]

theorem total_cons_self (p : Push) (older : List Push) (α : Assignment) :
    total est (p :: older) p.node α =
      p.cost est α + (p.chainInputs.map fun ci => total est older ci.producer α).sum := by
  unfold total
  rw [tree_cons_self, map_cons, sum_cons]
  congr 1
  induction p.chainInputs with
  | nil => rfl
  | cons ci cis ih => simp [ih]

/-- What the arrivals of a row say about the row's tree. -/
structure RowSound (est : TransferEstimator) (pushed : List Push) (rows : List Entry) (n : NodeId)
    (r : Entry) : Prop where
  arrives : ∀ α, Listed pushed n α → ∃ a ∈ r.arrivals, a.device = α n
  bound : ∀ a ∈ r.arrivals, ∀ α, α n = a.device → Listed pushed n α →
    a.best.toNat ≤ total est pushed n α
  nodes : ∀ a ∈ r.arrivals, (picks rows n a.device).map Prod.fst = (tree pushed n).map node
  listed : ∀ a ∈ r.arrivals, ∀ α, (∀ e ∈ picks rows n a.device, α e.1 = e.2) → Listed pushed n α
  exact : ∀ a ∈ r.arrivals, ∀ α, (∀ e ∈ picks rows n a.device, α e.1 = e.2) →
    a.best.toNat = capped (total est pushed n α)

theorem picks_head (h : n ∈ rows.map Entry.node) (d : DeviceLocation) :
    (n, d) ∈ picks rows n d := by
  induction rows with
  | nil => simp at h
  | cons r rows ih =>
    rw [picks]
    split
    · exact mem_cons_self
    · rename_i hne
      refine ih ?_
      rcases mem_cons.mp h with heq | hmem
      · exact absurd heq.symm hne
      · exact hmem

/-- The arrivals' devices are those of the push. -/
theorem devices_eq {costs : List (DeviceLocation × UInt64)} {arrivals : List Arrival}
    (h : List.Forall₂ (IsArrival est rows p) costs arrivals) :
    arrivals.map Arrival.device = costs.map Prod.fst := by
  induction h with
  | nil => rfl
  | cons ha _ ih => rw [map_cons, map_cons, ha.device, ih]

theorem find_arrival {r : Entry} (hnodup : (r.arrivals.map Arrival.device).Nodup) {a : Arrival}
    (ha : a ∈ r.arrivals) : (r.arrivals.find? fun b => b.device = a.device) = some a := by
  cases hf : r.arrivals.find? fun b => b.device = a.device with
  | none =>
    have := find?_eq_none.mp hf a ha
    simp at this
  | some b =>
    have hb := mem_of_find?_eq_some hf
    have hdev : b.device = a.device := by simpa using find?_some hf
    rw [inj_on_of_nodup_map hnodup hb ha hdev]

theorem lookup_cost {costs : List (DeviceLocation × UInt64)} (hnodup : (costs.map Prod.fst).Nodup)
    {dc : DeviceLocation × UInt64} (hdc : dc ∈ costs) : costs.lookup dc.1 = some dc.2 := by
  induction costs with
  | nil => simp at hdc
  | cons e es ih =>
    obtain ⟨d, c⟩ := e
    rw [map_cons, nodup_cons] at hnodup
    rcases mem_cons.mp hdc with rfl | hmem
    · simp
    · have hne : (dc.1 == d) = false := by
        refine beq_eq_false_iff_ne.mpr ?_
        rintro rfl
        exact hnodup.1 (mem_map.mpr ⟨dc, hmem, rfl⟩)
      rw [lookup_cons, hne]
      exact ih hnodup.2 hmem

theorem listed_producer {α : Assignment} (h : Listed (p :: older) p.node α) {ci : ChainInput}
    (hci : ci ∈ p.chainInputs) : Listed older ci.producer α := by
  intro q hq
  refine h q ?_
  rw [tree_cons_self]
  exact mem_cons_of_mem _ (mem_flatMap.mpr ⟨ci, hci, hq⟩)

section Head

variable {p : Push} {r : Entry} {a : Arrival} {dc : DeviceLocation × UInt64}

/-- The producers of a new row are sound. -/
abbrev ProducersSound (est : TransferEstimator) (older : List Push) (rows : List Entry) (p : Push) :
    Prop :=
  ∀ ci ∈ p.chainInputs, ∃ q, rowOf rows ci.producer = some q ∧ RowSound est older rows ci.producer q

variable {α : Assignment}

/-- The cost of a row on the device of an arrival. -/
theorem cost_eq (hnodup : p.devices.Nodup) (hdc : dc ∈ p.deviceCosts) (hα : α p.node = dc.1) :
    p.cost est α = dc.2.toNat +
      (p.fixedInputs.map fun i => (est.estimateTransferNs i.1 dc.1 i.2).toNat).sum +
      (p.chainInputs.map fun ci => transfers est (α ci.producer) dc.1 ci.edgeBytes).sum := by
  unfold cost
  rw [hα, lookup_cost hnodup hdc, Option.getD_some]

/-- A choice is one of the producer's arrivals, priced, and none is cheaper. -/
theorem choice_spec {d : DeviceLocation} {ci : ChainInput} {q : Entry} {b : Arrival} {c : UInt64}
    (hq : rowOf rows ci.producer = some q) (h : choice est rows d ci = some (b, c)) :
    b ∈ q.arrivals ∧ c.toNat = capped (b.best.toNat + transfers est b.device d ci.edgeBytes) ∧
      ∀ b' ∈ q.arrivals,
        c.toNat ≤ capped (b'.best.toNat + transfers est b'.device d ci.edgeBytes) := by
  unfold choice at h
  rw [hq, Option.bind_some] at h
  have hne : q.arrivals ≠ [] := by
    intro hnil
    rw [hnil] at h
    cases h
  obtain ⟨b', hmem, hmin, hall⟩ :=
    firstMin_spec (fun a => est.charge a.device d a.best ci.edgeBytes) hne
  rw [hmin] at h
  cases h
  refine ⟨hmem, toNat_charge _ _ _ _, ?_⟩
  intro b'' hb''
  rw [← toNat_charge]
  exact UInt64.le_iff_toNat_le.mp (hall b'' hb'')

theorem head_bound (hnodup : p.devices.Nodup) (hsound : ProducersSound est older rows p)
    (hdc : dc ∈ p.deviceCosts) (ha : IsArrival est rows p dc a) (hα : α p.node = a.device)
    (hlisted : Listed (p :: older) p.node α) : a.best.toNat ≤ total est (p :: older) p.node α := by
  obtain ⟨f, hf, -, hbest⟩ := ha.choices
  have hsum : (p.chainInputs.map fun ci => (f ci).2.toNat).sum ≤
      (p.chainInputs.map fun ci => transfers est (α ci.producer) dc.1 ci.edgeBytes +
        total est older ci.producer α).sum := by
    refine sum_le_sum fun ci hci => ?_
    obtain ⟨q, hq, hsq⟩ := hsound ci hci
    have hl := listed_producer hlisted hci
    -- the producer's arrival on the device that the assignment gives it
    obtain ⟨b, hb, hdev⟩ := hsq.arrives α hl
    have hle := (choice_spec hq (hf ci hci)).2.2 b hb
    have hbound := hsq.bound b hb α hdev.symm hl
    rw [hdev] at hle
    unfold capped at hle
    omega
  rw [sum_map_add] at hsum
  rw [total_cons_self, cost_eq hnodup hdc (hα.trans ha.device), hbest]
  unfold capped
  omega

/-- What an assignment that follows a row's picks does on the producers. -/
theorem picks_cons_self (hnode : r.node = p.node) (hnodup : (r.arrivals.map Arrival.device).Nodup)
    (ha : a ∈ r.arrivals) : picks (r :: rows) p.node a.device =
      (p.node, a.device) :: a.back.flatMap fun e => picks rows e.1 e.2 := by
  rw [picks, if_pos hnode, find_arrival hnodup ha]
  simp

theorem head_exact (hnodup : p.devices.Nodup) (hsound : ProducersSound est older rows p)
    (hmem : ∀ ci ∈ p.chainInputs, ci.producer ∈ rows.map Entry.node) (hdc : dc ∈ p.deviceCosts)
    (ha : IsArrival est rows p dc a)
    (hα : ∀ e ∈ (p.node, a.device) :: a.back.flatMap (fun e => picks rows e.1 e.2), α e.1 = e.2) :
    a.best.toNat = capped (total est (p :: older) p.node α) := by
  obtain ⟨f, hf, hback, hbest⟩ := ha.choices
  have hself : α p.node = dc.1 := (hα _ mem_cons_self).trans ha.device
  have hchoice : ∀ ci ∈ p.chainInputs, (f ci).2.toNat =
      capped (transfers est (α ci.producer) dc.1 ci.edgeBytes +
        total est older ci.producer α) := by
    intro ci hci
    obtain ⟨q, hq, hsq⟩ := hsound ci hci
    obtain ⟨hb, hprice, -⟩ := choice_spec hq (hf ci hci)
    have hfollow : ∀ e ∈ picks rows ci.producer (f ci).1.device, α e.1 = e.2 := by
      intro e he
      refine hα e (mem_cons_of_mem _ (mem_flatMap.mpr
        ⟨(ci.producer, (f ci).1.device), ?_, he⟩))
      rw [hback]
      exact mem_map.mpr ⟨ci, hci, rfl⟩
    have hdev : α ci.producer = (f ci).1.device := hfollow _ (picks_head (hmem ci hci) _)
    rw [hprice, hsq.exact _ hb α hfollow, capped_capped_add, hdev, Nat.add_comm]
  rw [hbest, total_cons_self, cost_eq hnodup hdc hself, map_congr_left hchoice,
    capped_add_sum, sum_map_add, ← Nat.add_assoc]

theorem head_nodes (hsound : ProducersSound est older rows p) (ha : IsArrival est rows p dc a) :
    (((p.node, a.device) :: a.back.flatMap fun e => picks rows e.1 e.2).map Prod.fst) =
      (tree (p :: older) p.node).map node := by
  obtain ⟨f, hf, hback, -⟩ := ha.choices
  rw [tree_cons_self, map_cons, map_cons, hback, flatMap_map, map_flatMap,
    map_flatMap]
  congr 1
  apply flatMap_congr
  intro ci hci
  obtain ⟨q, hq, hsq⟩ := hsound ci hci
  exact hsq.nodes _ (choice_spec hq (hf ci hci)).1

theorem head_listed (hsound : ProducersSound est older rows p) (hdc : dc ∈ p.deviceCosts)
    (ha : IsArrival est rows p dc a)
    (hα : ∀ e ∈ (p.node, a.device) :: a.back.flatMap (fun e => picks rows e.1 e.2), α e.1 = e.2) :
    Listed (p :: older) p.node α := by
  obtain ⟨f, hf, hback, -⟩ := ha.choices
  intro q hq
  rw [tree_cons_self] at hq
  rcases mem_cons.mp hq with rfl | hq
  · rw [hα _ mem_cons_self, ha.device]
    exact mem_map.mpr ⟨dc, hdc, rfl⟩
  obtain ⟨ci, hci, hq⟩ := mem_flatMap.mp hq
  obtain ⟨row, hrow, hsrow⟩ := hsound ci hci
  refine hsrow.listed _ (choice_spec hrow (hf ci hci)).1 α ?_ q hq
  intro e he
  refine hα e (mem_cons_of_mem _ (mem_flatMap.mpr
    ⟨(ci.producer, (f ci).1.device), ?_, he⟩))
  rw [hback]
  exact mem_map.mpr ⟨ci, hci, rfl⟩

end Head

/-- Every row of a table is sound. -/
theorem Table.sound (h : Table est pushed rows) {r : Entry} (hr : rowOf rows n = some r) :
    RowSound est pushed rows n r := by
  induction h generalizing n r with
  | nil => cases hr
  | @cons older rows p r₀ htable hfresh _ hnodup hmem hnode harr ih =>
    by_cases hn : r₀.node = n
    · -- the newest row, over producers that are older
      obtain rfl : r₀ = r := by simpa [rowOf, hn] using hr
      obtain rfl : p.node = n := hnode ▸ hn
      have hsound : ProducersSound est older rows p := by
        intro ci hci
        obtain ⟨q, hq, -⟩ := htable.exists_row (hmem ci hci)
        exact ⟨q, hq, ih hq⟩
      have hmem' : ∀ ci ∈ p.chainInputs, ci.producer ∈ rows.map Entry.node := by
        intro ci hci
        rw [htable.nodes_eq]
        exact hmem ci hci
      have hdevices := devices_eq harr
      have hnodup' : (r₀.arrivals.map Arrival.device).Nodup := by
        rw [hdevices]
        exact hnodup
      have hcost : ∀ a ∈ r₀.arrivals, ∃ dc ∈ p.deviceCosts, IsArrival est rows p dc a := by
        intro a ha
        exact forall₂_exists harr.flip ha
      refine ⟨?_, ?_, ?_, ?_, ?_⟩
      · intro α hα
        have hself := hα p (by rw [tree_cons_self]; exact mem_cons_self)
        rw [devices, ← hdevices] at hself
        exact mem_map.mp hself
      · intro a ha α hα hlisted
        obtain ⟨dc, hdc, hisa⟩ := hcost a ha
        exact head_bound hnodup hsound hdc hisa hα hlisted
      · intro a ha
        obtain ⟨dc, hdc, hisa⟩ := hcost a ha
        rw [picks_cons_self hnode hnodup' ha]
        exact head_nodes hsound hisa
      · intro a ha α hα
        obtain ⟨dc, hdc, hisa⟩ := hcost a ha
        rw [picks_cons_self hnode hnodup' ha] at hα
        exact head_listed hsound hdc hisa hα
      · intro a ha α hα
        obtain ⟨dc, hdc, hisa⟩ := hcost a ha
        rw [picks_cons_self hnode hnodup' ha] at hα
        exact head_exact hnodup hsound hmem' hdc hisa hα
    · -- an older row keeps its tree and its picks
      have hr' : rowOf rows n = some r := by simpa [rowOf, hn] using hr
      have hpn : p.node ≠ n := hnode ▸ hn
      have hpicks : ∀ d, picks (r₀ :: rows) n d = picks rows n d := fun d => by rw [picks, if_neg hn]
      obtain ⟨h1, h2, h3, h4, h5⟩ := ih hr'
      constructor
      · simpa only [Listed, tree_cons_ne hpn] using h1
      · simpa only [Listed, total, tree_cons_ne hpn] using h2
      · simpa only [hpicks, tree_cons_ne hpn] using h3
      · simpa only [hpicks, Listed, tree_cons_ne hpn] using h4
      · simpa only [hpicks, total, tree_cons_ne hpn] using h5

end Fuel.Dispatch
