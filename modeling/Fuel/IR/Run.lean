import Fuel.IR.Graph
import Fuel.Lib.Kahn
import Fuel.Lib.Blocks
import Fuel.Lib.Search

/-!
# Runs and the dispatch order

The other way the source computes an order for the executor: the reachable
nodes are cut into runs, straight lines of nodes on one device; runs inside an
arm that the route does not take are dropped; what is left is sorted by device
and concatenated.

Hash sets are lists here, used for membership only. Where the source walks a
hash set in no particular order, the result is again a set.
-/

namespace Fuel.IR

open Fuel.DepGraph

/-! ## Roots and branches -/

/-- The walk from `seeds`, without the bounds check. -/
def walkFrom (g : Graph) (seeds : List NodeId) : List NodeId :=
  postOrder g.inputs (walkFuel g.inputs (List.range g.len) seeds) seeds

/-- A branch takes part when its merge node or an arm exit is reachable. -/
def participates (g : Graph) (reachable : List NodeId) (id : NodeId) : Bool :=
  match g.branchAt id with
  | none => false
  | some reconvergeAt =>
    decide (reconvergeAt ∈ reachable) || (g.inputs id).any fun a => decide (a ∈ reachable)

/-- One pass over the arena: seed the branches that take part, if there are new ones. -/
def seedBranches (g : Graph) (seeds : List NodeId) : Option (List NodeId) :=
  let added := (List.range g.len).filter fun id =>
    decide (id ∉ seeds) && participates g (walkFrom g seeds) id
  if added = [] then none else some (seeds ++ added)

/-- `effective_roots`. Each pass that changes anything seeds a new node, so
there are at most as many passes as nodes. The walks it makes meet an id past
the arena only if the walk from the final seeds does. -/
def effectiveRoots (g : Graph) (roots : List NodeId) : Option (List NodeId) :=
  let seeds := iter (seedBranches g) g.len roots
  (topoOrderMulti g seeds).map fun _ => seeds

/-- The walk from the effective roots, which every pass over runs starts with. -/
def routeOrder (g : Graph) (roots : List NodeId) : Option (List NodeId) :=
  (effectiveRoots g roots).bind (topoOrderMulti g)

/-- `backward_cone`. -/
def backwardCone (g : Graph) (reachable : List NodeId) (start : NodeId) : List NodeId :=
  cone g.inputs (fun a => decide (a ∈ reachable)) (List.range g.len) start

/-- What the passes derive from one branch with two or more arms. -/
structure BranchArms where
  branch : NodeId
  cones : List (List NodeId)

namespace BranchArms

/-- The common part of all arms' cones. -/
def shared (b : BranchArms) : List NodeId :=
  match b.cones with
  | [] => []
  | c :: cs => c.filter fun n => cs.all fun c' => decide (n ∈ c')

/-- The nodes of arm `arm` that read the common part without being in it. -/
def armEntries (g : Graph) (b : BranchArms) : List NodeId :=
  b.cones.flatMap fun c => c.filter fun n =>
    decide (n ∉ b.shared) && (g.inputs n).any fun p => decide (p ∈ b.shared)

/-- The nodes skipped when `chosen` is taken; an arm out of range counts as arm 0. -/
def skipped (b : BranchArms) (chosen : Nat) : List NodeId :=
  let chosen := if chosen < b.cones.length then chosen else 0
  let chosenCone := (b.cones[chosen]?).getD []
  (List.range b.cones.length).flatMap fun i =>
    if i = chosen then []
    else ((b.cones[i]?).getD []).filter fun n =>
      decide (n ∉ b.shared) && decide (n ∉ chosenCone)

end BranchArms

/-- The branches in `order` with two or more arms, with their arms' cones. -/
def branchArms (g : Graph) (order : List NodeId) : List BranchArms :=
  order.filterMap fun id =>
    if (g.branchAt id).isSome ∧ 2 ≤ (g.inputs id).length then
      some ⟨id, (g.inputs id).map (backwardCone g order)⟩
    else none

/-- The nodes some branch of the walk merges at. -/
def reconvergePoints (g : Graph) (order : List NodeId) : List NodeId :=
  order.filterMap g.branchAt

/-- `compute_arm_entries`: the nodes an arm of some branch of the walk begins with. -/
def computeArmEntries (g : Graph) (order : List NodeId) : List NodeId :=
  (branchArms g order).flatMap (BranchArms.armEntries g)

/-! ## Runs -/

/-- A straight line of nodes on one device. -/
structure Run where
  members : List NodeId
  nonempty : members ≠ []
  device : Option BackendId

namespace Run

def entry (r : Run) : NodeId := r.members.head r.nonempty

def exit (r : Run) : NodeId := r.members.getLast r.nonempty

end Run

/-- The extraction loop between two nodes: finished runs and the open one. -/
structure Cut where
  runs : List Run
  current : List NodeId
  currentDevice : Option BackendId

namespace Cut

def init : Cut := ⟨[], [], none⟩

/-- The open run, if any, is finished. -/
def finish (c : Cut) : List Run :=
  if h : c.current = [] then c.runs else c.runs ++ [⟨c.current, h, c.currentDevice⟩]

/-- Whether node `id` begins a new run. -/
def startsNew (g : Graph) (order reconvergePoints armEntries : List NodeId) (c : Cut)
    (id : NodeId) : Bool :=
  let preds := (g.inputs id).filter fun p => decide (p ∈ order)
  let device := g.targetBackends id
  let isEntry := preds.isEmpty
  let isReconverge := decide (id ∈ reconvergePoints)
  let isArm := decide (id ∈ armEntries)
  let isFanIn := decide (1 < preds.length)
  let isTransfer := g.isTransfer id
  let isSeam := match preds with
    | [p] => decide (g.targetBackends p ≠ device)
    | _ => false
  let breaksChain := match c.current.getLast? with
    | none => true
    | some last => !decide (preds = [last])
  let deviceMismatch := !c.current.isEmpty && decide (device ≠ c.currentDevice)
  isEntry || isReconverge || isArm || isFanIn || isTransfer || isSeam || breaksChain ||
    deviceMismatch

/-- One node of the extraction; a branch node is in no run. -/
def add (g : Graph) (order reconvergePoints armEntries : List NodeId) (c : Cut)
    (id : NodeId) : Cut :=
  if (g.branchAt id).isSome then c
  else
    let c' := if c.startsNew g order reconvergePoints armEntries id && !c.current.isEmpty then
      { c with runs := c.finish, current := [] } else c
    let c'' := if c'.current.isEmpty then
      { c' with currentDevice := g.targetBackends id } else c'
    { c'' with current := c''.current ++ [id] }

end Cut

/-- The runs of a walk. -/
def runsOf (g : Graph) (order : List NodeId) : List Run :=
  (order.foldl (Cut.add g order (reconvergePoints g order) (computeArmEntries g order))
    Cut.init).finish

/-- `extract_runs_multi`. -/
def extractRunsMulti (g : Graph) (roots : List NodeId) : Option (List Run) :=
  (routeOrder g roots).map (runsOf g)

/-! ## The order of runs -/

/-- A member list for each run. -/
def membersOf (runs : List Run) : List (List NodeId) := runs.map Run.members

/-- Size of a run's compute, none for a transfer. -/
def computeSize (g : Graph) (r : Run) : Nat := if g.isTransfer r.entry then 0 else r.members.length

/-- The largest compute size downstream of each run, itself included. The
source's memoised walk finishes the runs in this post-order over the runs that
read each one. -/
def downWeight (g : Graph) (runs : List Run) : Nat → Nat :=
  let succs := dependents (List.range runs.length) (blockDeps g.inputs (membersOf runs))
  let starts := (List.range runs.length).reverse
  let finished := postOrder succs (walkFuel succs (List.range runs.length) starts) starts
  finished.foldl
    (fun weight r => Function.update weight r
      ((succs r).foldl (fun w s => max w (weight s)) (((runs[r]?).map (computeSize g)).getD 0)))
    (fun _ => 2 ^ 64 - 1)

/-- The priority of a ready run: downstream weight, whether it is on the device
of the run emitted last, its index. -/
def runKey (runs : List Run) (weight : Nat → Nat) (emitted : List Nat) (r : Nat) :
    Nat × Bool × Nat :=
  let deviceOf := fun i => (runs[i]?).bind Run.device
  (weight r, (emitted.getLast?).any fun l => decide (deviceOf r = deviceOf l), r)

/-- Heavier first, then the other device, then the smaller index. -/
def keyLt (a b : Nat × Bool × Nat) : Bool :=
  decide (b.1 < a.1) ||
    decide (a.1 = b.1) && (!a.2.1 && b.2.1 || decide (a.2.1 = b.2.1) && decide (a.2.2 < b.2.2))

/-- The ready run with the smallest key. -/
def pickRun (key : List Nat → Nat → Nat × Bool × Nat) (emitted : List Nat) :
    List Nat → Option Nat
  | [] => none
  | r :: rest => some (rest.foldl
      (fun best ri => if keyLt (key emitted ri) (key emitted best) then ri else best) r)

/-- `device_alternating_order`: indices into `runs`. -/
def deviceAlternatingOrder (g : Graph) (runs : List Run) : List Nat :=
  let n := runs.length
  if n ≤ 1 then List.range n
  else if (runs.map Run.device).dedup.length ≤ 1 then List.range n
  else
    let weight := downWeight g runs
    let order := kahn (List.range n) (blockDeps g.inputs (membersOf runs))
      (pickRun (runKey runs weight))
    order ++ (List.range n).filter fun i => decide (i ∉ order)

/-- The runs' members in the order of runs. -/
def lowerRuns (g : Graph) (runs : List Run) : List NodeId :=
  arrange (membersOf runs) (deviceAlternatingOrder g runs)

/-! ## Lowerings -/

/-- An arm index for some of the branches. -/
abbrev PickedRoute := NodeId → Option Nat

/-- `non_chosen_arm_nodes`; a branch the route does not mention takes arm 0. -/
def nonChosenArmNodes (g : Graph) (order : List NodeId) (picked : PickedRoute) : List NodeId :=
  (branchArms g order).flatMap fun b => b.skipped ((picked b.branch).getD 0)

/-- `lower_picked_route`. -/
def lowerPickedRoute (g : Graph) (roots : List NodeId) (picked : PickedRoute) :
    Option (List NodeId) := do
  let runs ← extractRunsMulti g roots
  let order ← routeOrder g roots
  let skip := nonChosenArmNodes g order picked
  some (lowerRuns g (runs.filter fun r => decide (r.entry ∉ skip)))

/-- `lower_runs_arm0`: the route that mentions no branch. -/
def lowerRunsArm0 (g : Graph) (roots : List NodeId) : Option (List NodeId) :=
  lowerPickedRoute g roots fun _ => none

/-- The streaming walk between two runs: skipped nodes, resolved branches, the
kept runs not yet emitted, and the nodes emitted. -/
structure Stream where
  skip : List NodeId
  resolved : List NodeId
  segment : List Run
  emitted : List NodeId

namespace Stream

def init : Stream := ⟨[], [], [], []⟩

/-- The kept runs go out in device order. -/
def flush (g : Graph) (s : Stream) : Stream :=
  { s with segment := [], emitted := s.emitted ++ lowerRuns g s.segment }

/-- A branch met for the first time is resolved and its other arms are skipped. -/
def resolve (pick : NodeId → Nat) (s : Stream) (b : BranchArms) : Stream :=
  if b.branch ∈ s.resolved then s
  else { s with resolved := b.branch :: s.resolved, skip := b.skipped (pick b.branch) ++ s.skip }

/-- One run: resolve the branches an arm of which it opens, flushing before the
first new one, then keep it or skip it. -/
def step (g : Graph) (branches : List BranchArms) (pick : NodeId → Nat) (s : Stream) (r : Run) :
    Stream :=
  let opened := branches.filter fun b => decide (r.entry ∈ b.armEntries g)
  let s' := if opened.any fun b => decide (b.branch ∉ s.resolved) then s.flush g else s
  let s'' := opened.foldl (Stream.resolve pick) s'
  if r.entry ∈ s''.skip then s'' else { s'' with segment := s''.segment ++ [r] }

end Stream

/-- `lower_picked_route_streaming`, with the choices made at the frontier given by `pick`. -/
def lowerPickedRouteStreaming (g : Graph) (roots : List NodeId) (pick : NodeId → Nat) :
    Option (List NodeId) := do
  let runs ← extractRunsMulti g roots
  let order ← routeOrder g roots
  some ((runs.foldl (Stream.step g (branchArms g order) pick) Stream.init).flush g).emitted

end Fuel.IR
