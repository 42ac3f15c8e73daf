import Fuel.IR.Graph
import Fuel.Lib.Lists

/-!
# The purely functional reading of a graph

Every node has a value computed from the values of its inputs. A node that may
share storage is a function of the one input whose bytes it reinterprets.

The reading is by unfolding from a node to its leaves, so it needs no order and
no memory: `Denotes` holds of a node and a value when some depth of unfolding
reaches the leaves.
-/

namespace Fuel.IR

open Fuel.DepGraph List

variable {V : Type}

/-- The inputs a node's value is computed from. -/
def Graph.args (g : Graph) (id : NodeId) : List NodeId :=
  match g.aliasInput id with
  | some inp => [inp]
  | none => g.inputs id

/-- The value of a node, unfolding at most `fuel` levels. -/
def denote (g : Graph) (value : NodeId → List V → V) : Nat → NodeId → Option V
  | 0, _ => none
  | fuel + 1, id => ((g.args id).mapM (denote g value fuel)).map (value id)

/-- `v` is the value of node `id` in the purely functional reading. -/
def Denotes (g : Graph) (value : NodeId → List V → V) (id : NodeId) (v : V) : Prop :=
  ∃ fuel, denote g value fuel id = some v

variable {g : Graph} {id : NodeId} {value : NodeId → List V → V} {v : V}

theorem Graph.args_subset {i : NodeId} (h : i ∈ g.args id) : i ∈ g.inputs id := by
  unfold args at h
  split at h
  · rename_i inp halias
    rw [mem_singleton.mp h]
    exact aliasInput_mem_inputs halias
  · exact h

/-- An optional map over a list succeeds element by element. -/
theorem mapM_eq_some_iff {α β : Type} {f : α → Option β} {l : List α} {bs : List β} :
    l.mapM f = some bs ↔ List.Forall₂ (fun a b => f a = some b) l bs := by
  induction l generalizing bs with
  | nil =>
    rw [mapM_nil]
    constructor
    · intro h
      cases h
      exact .nil
    · intro h
      cases h
      rfl
  | cons a l ih =>
    rw [mapM_cons]
    constructor
    · intro h
      simp only [Option.bind_eq_bind, Option.bind_eq_some_iff, Option.pure_def] at h
      obtain ⟨b, hb, bs', hbs, hcons⟩ := h
      cases hcons
      exact .cons hb (ih.mp hbs)
    · intro h
      cases h with
      | cons hb hbs => simp [hb, ih.mpr hbs]

theorem exists_mapM_iff {α β : Type} {f : α → Option β} {l : List α} :
    (∃ bs, l.mapM f = some bs) ↔ ∀ a ∈ l, ∃ b, f a = some b := by
  simp only [mapM_eq_some_iff]
  induction l with
  | nil => simp
  | cons a l ih => simp [List.forall₂_cons_left_iff, ← ih]

theorem denote_succ {fuel : Nat} (h : denote g value fuel id = some v) :
    denote g value (fuel + 1) id = some v := by
  induction fuel generalizing id v with
  | zero => cases h
  | succ fuel ih =>
    rw [denote, Option.map_eq_some_iff] at h ⊢
    obtain ⟨vs, hvs, rfl⟩ := h
    exact ⟨vs, mapM_eq_some_iff.mpr ((mapM_eq_some_iff.mp hvs).imp fun _ _ => ih), rfl⟩

theorem denote_le {fuel fuel' : Nat} (hle : fuel ≤ fuel') (h : denote g value fuel id = some v) :
    denote g value fuel' id = some v := by
  induction hle with
  | refl => exact h
  | step _ ih => exact denote_succ ih

/-- A node has at most one value. -/
theorem Denotes.unique {w : V} (hv : Denotes g value id v) (hw : Denotes g value id w) : v = w := by
  obtain ⟨k, hk⟩ := hv
  obtain ⟨l, hl⟩ := hw
  have hk' := denote_le (Nat.le_max_left k l) hk
  have hl' := denote_le (Nat.le_max_right k l) hl
  exact Option.mem_unique hk' hl'

/-- A node's value is its function applied to its arguments' values. -/
theorem Denotes.intro {vs : List V} (h : List.Forall₂ (Denotes g value) (g.args id) vs) :
    Denotes g value id (value id vs) := by
  -- one depth that reaches the leaves below every argument
  have hfuel : ∀ {as : List NodeId} {ws : List V}, List.Forall₂ (Denotes g value) as ws →
      ∃ fuel, List.Forall₂ (fun a w => denote g value fuel a = some w) as ws := by
    intro as ws has
    induction has with
    | nil => exact ⟨0, .nil⟩
    | cons ha _ ih =>
      obtain ⟨k, hk⟩ := ha
      obtain ⟨l, hl⟩ := ih
      exact ⟨max k l, .cons (denote_le (Nat.le_max_left k l) hk)
        (hl.imp fun _ _ => denote_le (Nat.le_max_right k l))⟩
  obtain ⟨fuel, hargs⟩ := hfuel h
  exact ⟨fuel + 1, by rw [denote, mapM_eq_some_iff.mpr hargs]; rfl⟩

theorem Denotes.elim (h : Denotes g value id v) :
    ∃ vs, List.Forall₂ (Denotes g value) (g.args id) vs ∧ v = value id vs := by
  obtain ⟨fuel, hfuel⟩ := h
  cases fuel with
  | zero => cases hfuel
  | succ fuel =>
    rw [denote, Option.map_eq_some_iff] at hfuel
    obtain ⟨vs, hvs, rfl⟩ := hfuel
    exact ⟨vs, (mapM_eq_some_iff.mp hvs).imp fun _ _ h => ⟨fuel, h⟩, rfl⟩

/-- Every node of a schedule has a value. -/
theorem denotes_of_schedules {order : List NodeId} (h : Schedules g.inputs order)
    (value : NodeId → List V → V) : ∀ id ∈ order, ∃ v, Denotes g value id v := by
  refine h.induction fun id _ ih => ?_
  have hargs : ∀ as : List NodeId, (∀ a ∈ as, ∃ v, Denotes g value a v) →
      ∃ vs, List.Forall₂ (Denotes g value) as vs := by
    intro as has
    induction as with
    | nil => exact ⟨[], .nil⟩
    | cons a as ihas =>
      obtain ⟨v, hv⟩ := has a mem_cons_self
      obtain ⟨vs, hvs⟩ := ihas fun b hb => has b (mem_cons_of_mem _ hb)
      exact ⟨v :: vs, .cons hv hvs⟩
  obtain ⟨vs, hvs⟩ := hargs (g.args id) fun a ha => ih a (Graph.args_subset ha)
  exact ⟨value id vs, Denotes.intro hvs⟩

/-- **Redirecting arguments to nodes of the same value changes no value.** `f b i`
is what node `b` reads in `g'` in place of its argument `i`. -/
theorem denotes_iff_of_redirect {g' : Graph} {order : List NodeId}
    (hsched : Schedules g.inputs order) {f : NodeId → NodeId → NodeId}
    (hargs : ∀ b ∈ order, g'.args b = (g.args b).map (f b))
    (hf : ∀ b ∈ order, ∀ i ∈ g.args b, ∀ v, Denotes g' value i v → Denotes g' value (f b i) v)
    {a : NodeId} (ha : a ∈ order) (v : V) : Denotes g' value a v ↔ Denotes g value a v := by
  have hforward : ∀ a ∈ order, ∀ v, Denotes g value a v → Denotes g' value a v := by
    refine hsched.induction fun b hb ih v hv => ?_
    obtain ⟨vs, hvs, rfl⟩ := hv.elim
    apply Denotes.intro
    rw [hargs b hb, List.forall₂_map_left_iff]
    -- argument by argument: its own value is kept, and redirecting it keeps it
    have hmap : ∀ is : List NodeId, (∀ i ∈ is, i ∈ g.args b) → ∀ ws : List V,
        List.Forall₂ (Denotes g value) is ws →
        List.Forall₂ (fun i w => Denotes g' value (f b i) w) is ws := by
      intro is his ws hws
      induction hws with
      | nil => exact .nil
      | cons hw _ ihws =>
        have hi := his _ mem_cons_self
        exact .cons (hf b hb _ hi _ (ih _ (Graph.args_subset hi) _ hw))
          (ihws fun i hi => his i (mem_cons_of_mem _ hi))
    exact hmap _ (fun _ hi => hi) vs hvs
  constructor
  · intro hv
    obtain ⟨w, hw⟩ := denotes_of_schedules hsched value a ha
    rwa [hv.unique (hforward a ha w hw)]
  · exact hforward a ha v

end Fuel.IR
