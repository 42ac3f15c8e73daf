import Fuel.Dispatch.PlacementOptimal

/-!
# Runs of the placement table

A run pushes rows, closes rows toward consumers that are decided, and finishes.
The open rows and the closed ones are the roots of trees that partition the rows
pushed so far; committing a root commits its tree and nothing else. At the end
every row has been committed once, and each tree at an assignment of lowest price.
-/

namespace Fuel.Dispatch

open Fuel.IR List PlacementDp DpRow ChainInput

variable {est : TransferEstimator} {pushed : List Push} {byNode : List (NodeId × Nat)}
  {rows rows' : List DpRow}

/-! ## Picks and indices -/

/-- The fixed part of the rows, newest first. -/
def entries (rows : List DpRow) : List Entry := (rows.map entry).reverse

/-- `by_node` finds a node's row. -/
def Indexed (byNode : List (NodeId × Nat)) (rows : List DpRow) : Prop :=
  ∀ n i, byNode.lookup n = some i ↔ ∃ r, rows[i]? = some r ∧ r.node = n

variable {n : NodeId} {i : Nat} {r : DpRow} {log : Commits} {dp : PlacementDp}

theorem picks_cons_ne {r : Entry} {table : List Entry} (h : r.node ≠ n) (d : DeviceLocation) :
    picks (r :: table) n d = picks table n d := by
  rw [picks, if_neg h]

namespace Table

variable {rows : List Entry} {n : NodeId} {r : Entry} (h : Table est pushed rows)

include h

variable (hr : rowOf rows n = some r)

include hr

theorem mem_of_rowOf : n ∈ pushed.map Push.node := by
  have hnode : r.node = n := by simpa using find?_some hr
  rw [← h.nodes_eq, ← hnode]
  exact mem_map.mpr ⟨r, mem_of_find?_eq_some hr, rfl⟩

/-- The producers that an arrival names have rows, with an arrival on the device named. -/
theorem back_mem {a : Arrival} (ha : a ∈ r.arrivals) {e : NodeId × DeviceLocation} (he : e ∈ a.back) :
    ∃ q, rowOf rows e.1 = some q ∧ ∃ b ∈ q.arrivals, b.device = e.2 := by
  induction h generalizing n r with
  | nil => cases hr
  | @cons older rows p r₀ htable hfresh _ _ hmem hnode harr ih =>
    have hold : ∃ q, rowOf rows e.1 = some q ∧ ∃ b ∈ q.arrivals, b.device = e.2 := by
      by_cases hn : r₀.node = n
      · obtain rfl : r₀ = r := by simpa [rowOf, hn] using hr
        obtain ⟨dc, -, hisa⟩ := forall₂_exists harr.flip ha
        obtain ⟨f, hf, hback, -⟩ := hisa.choices
        rw [hback] at he
        obtain ⟨ci, hci, rfl⟩ := mem_map.mp he
        obtain ⟨q, hq, -⟩ := htable.exists_row (hmem ci hci)
        exact ⟨q, hq, _, (choice_spec hq (hf ci hci)).1, rfl⟩
      · exact ih (by simpa [rowOf, hn] using hr) ha
    obtain ⟨q, hq, hb⟩ := hold
    refine ⟨q, ?_, hb⟩
    have hne : r₀.node ≠ e.1 := fun heq => hfresh (hnode ▸ heq ▸ htable.mem_of_rowOf hq)
    simpa [rowOf, hne] using hq

/-- A backtrack commits a row and goes on with the producers its arrival names. -/
theorem picks_eq {a : Arrival} (ha : a ∈ r.arrivals) : picks rows n a.device =
      (n, a.device) :: a.back.flatMap fun e => picks rows e.1 e.2 := by
  induction h generalizing n r with
  | nil => cases hr
  | @cons older rows p r₀ htable hfresh _ hnodup hmem hnode harr ih =>
    -- the producers are older than the newest row
    have holder : ∀ e ∈ a.back, (∃ q, rowOf rows e.1 = some q) →
        picks (r₀ :: rows) e.1 e.2 = picks rows e.1 e.2 := by
      rintro e - ⟨q, hq⟩
      exact picks_cons_ne (fun heq => hfresh (hnode ▸ heq ▸ htable.mem_of_rowOf hq)) _
    by_cases hn : r₀.node = n
    · obtain rfl : r₀ = r := by simpa [rowOf, hn] using hr
      obtain rfl : p.node = n := hnode ▸ hn
      rw [picks_cons_self hnode (by rw [devices_eq harr]; exact hnodup) ha]
      congr 1
      apply flatMap_congr
      intro e he
      obtain ⟨dc, -, hisa⟩ := forall₂_exists harr.flip ha
      obtain ⟨f, hf, hback, -⟩ := hisa.choices
      refine (holder e he ?_).symm
      rw [hback] at he
      obtain ⟨ci, hci, rfl⟩ := mem_map.mp he
      obtain ⟨q, hq, -⟩ := htable.exists_row (hmem ci hci)
      exact ⟨q, hq⟩
    · have hr' : rowOf rows n = some r := by simpa [rowOf, hn] using hr
      rw [picks_cons_ne hn, ih hr' ha]
      congr 1
      apply flatMap_congr
      intro e he
      obtain ⟨q, hq, -⟩ := htable.back_mem hr' ha he
      exact (holder e he ⟨q, hq⟩).symm

end Table

/-! ## The commit loop -/

/-- A row before and after the commitments `visits`. -/
structure CommitStep (visits : Commits) (r r' : DpRow) : Prop where
  entry : r'.entry = r.entry
  visited : ∀ d, (r.node, d) ∈ visits → r'.status = .committed ∧ r'.committed = some d
  other : r.node ∉ visits.map Prod.fst → r' = r

theorem map_entry_of_steps {visits : Commits} (h : List.Forall₂ (CommitStep visits) rows rows') :
    rows'.map entry = rows.map entry := by
  induction h with
  | nil => rfl
  | cons h _ ih => rw [map_cons, map_cons, h.entry, ih]

/-- One node has one index. -/
theorem Indexed.inj (h : Indexed byNode rows) {j : Nat} {r' : DpRow} (hr : rows[i]? = some r)
    (hr' : rows[j]? = some r') (hnode : r'.node = r.node) : i = j ∧ r = r' := by
  have hi := (h r.node i).mpr ⟨r, hr, rfl⟩
  have hj := (h r.node j).mpr ⟨r', hr', hnode⟩
  obtain rfl : i = j := Option.mem_unique hi hj
  exact ⟨rfl, Option.mem_unique hr hr'⟩

theorem indexed_iff : Indexed byNode rows ↔
    ∀ n i, byNode.lookup n = some i ↔ (rows.map node)[i]? = some n := by
  simp [Indexed]

theorem Indexed.of_entries (h : Indexed byNode rows)
    (heq : rows'.map entry = rows.map entry) : Indexed byNode rows' := by
  have hnodes : rows'.map node = rows.map node := by
    have hmap := congrArg (map Entry.node) heq
    rwa [map_map, map_map] at hmap
  rw [indexed_iff, hnodes]
  exact indexed_iff.mp h

/-- The row of a node, through the index and through the table. -/
theorem Indexed.rowOf (h : Indexed byNode rows) (hr : rows[i]? = some r) :
    Fuel.Dispatch.rowOf (entries rows) r.node = some r.entry := by
  have hmem : r.entry ∈ entries rows :=
    mem_reverse.mpr (mem_map.mpr ⟨r, mem_of_getElem? hr, rfl⟩)
  cases hf : Fuel.Dispatch.rowOf (entries rows) r.node with
  | none =>
    have := find?_eq_none.mp hf _ hmem
    simp [entry] at this
  | some e =>
    have hnode : e.node = r.node := by simpa using find?_some hf
    obtain ⟨r', hr', rfl⟩ := mem_map.mp (mem_reverse.mp (mem_of_find?_eq_some hf))
    obtain ⟨j, hj⟩ := mem_iff_getElem?.mp hr'
    rw [(h.inj hr hj hnode).2]

/-- An entry of the table is some row's. -/
theorem exists_index {q : Entry} (hq : rowOf (entries rows) n = some q) :
    ∃ (i : Nat) (r : DpRow), rows[i]? = some r ∧ r.node = n ∧ r.entry = q := by
  obtain ⟨r, hr, rfl⟩ := mem_map.mp (mem_reverse.mp (mem_of_find?_eq_some hq))
  obtain ⟨i, hi⟩ := mem_iff_getElem?.mp hr
  have hnode : r.entry.node = n := by simpa using find?_some hq
  exact ⟨i, r, hi, hnode, rfl⟩

theorem getElem?_of_entries (heq : rows'.map entry = rows.map entry)
    (hr : rows[i]? = some r) : ∃ r', rows'[i]? = some r' ∧ r'.entry = r.entry := by
  have hget := congrArg (·[i]?) heq
  simp only [getElem?_map, hr, Option.map_some] at hget
  exact Option.map_eq_some_iff.mp hget

/-- The commitments that a stack stands for. -/
def visits (rows : List DpRow) (stack : List (Nat × DeviceLocation)) :
    Commits :=
  stack.flatMap fun s => ((rows[s.1]?).map fun r => picks (entries rows) r.node s.2).getD []

/-- A stack of rows to commit, each at one of its arrivals, none of them decided and
no row reached twice. -/
structure Ready (rows : List DpRow) (stack : List (Nat × DeviceLocation)) : Prop where
  listed : ∀ s ∈ stack, ∃ r, rows[s.1]? = some r ∧ ∃ a ∈ r.arrivals, a.device = s.2
  nodup : ((visits rows stack).map Prod.fst).Nodup
  undecided : ∀ r ∈ rows, r.node ∈ (visits rows stack).map Prod.fst → r.status ≠ .committed

theorem visits_of_entries (heq : rows'.map entry = rows.map entry)
    (stack : List (Nat × DeviceLocation)) : visits rows' stack = visits rows stack := by
  have htable : entries rows' = entries rows := by
    unfold entries
    rw [heq]
  apply flatMap_congr
  intro s _
  have hget := congrArg
    (fun l : List Entry => (l[s.1]?).map fun e => picks (entries rows) e.node s.2) heq
  simp only [getElem?_map, Option.map_map] at hget
  rw [htable]
  exact congrArg (Option.getD · []) hget

/-- The producers that an arrival names, as the loop pushes them. -/
theorem visits_back (hindex : Indexed byNode rows) {back : Commits}
    (hback : ∀ e ∈ back, ∃ (i : Nat) (r : DpRow), rows[i]? = some r ∧ r.node = e.1) :
    visits rows (back.filterMap fun e => (byNode.lookup e.1).map fun i => (i, e.2)) =
      back.flatMap fun e => picks (entries rows) e.1 e.2 := by
  induction back with
  | nil => rfl
  | cons e back ih =>
    obtain ⟨i, r, hr, hnode⟩ := hback e (by simp)
    have hlookup := (hindex e.1 i).mpr ⟨r, hr, hnode⟩
    have ih := ih fun e' he' => hback e' (by simp [he'])
    unfold visits at ih ⊢
    simp only [filterMap_cons, hlookup, Option.map_some, flatMap_cons, hr, hnode,
      Option.getD_some, ih]

section Step

variable {stack : List (Nat × DeviceLocation)}
  {idx : Nat} {dev : DeviceLocation} {row : DpRow} {a : Arrival}

/-- What one turn of the loop leaves to be visited. -/
theorem visits_cons (stack : List (Nat × DeviceLocation))
    (htable : Table est pushed (entries rows)) (hindex : Indexed byNode rows)
    (hrow : rows[idx]? = some row) (ha : a ∈ row.arrivals) (hdev : a.device = dev) :
    (visits rows ((idx, dev) :: stack)).Perm ((row.node, dev) ::
      visits rows ((a.back.filterMap fun e => (byNode.lookup e.1).map fun i => (i, e.2)).reverse ++
        stack)) := by
  have hrowOf := hindex.rowOf hrow
  have hback : ∀ e ∈ a.back, ∃ (i : Nat) (r : DpRow), rows[i]? = some r ∧ r.node = e.1 := by
    intro e he
    obtain ⟨q, hq, -⟩ := htable.back_mem hrowOf ha he
    obtain ⟨i, r, hr, hnode, -⟩ := exists_index hq
    exact ⟨i, r, hr, hnode⟩
  have hpicks := htable.picks_eq hrowOf ha
  rw [hdev] at hpicks
  have hhead : visits rows ((idx, dev) :: stack) =
      (row.node, dev) :: ((a.back.flatMap fun e => picks (entries rows) e.1 e.2) ++
        visits rows stack) := by
    unfold visits
    rw [flatMap_cons, hrow, Option.map_some, Option.getD_some, hpicks, cons_append]
  have hrest : visits rows ((a.back.filterMap fun e => (byNode.lookup e.1).map fun i =>
      (i, e.2)).reverse ++ stack) =
      visits rows (a.back.filterMap fun e => (byNode.lookup e.1).map fun i => (i, e.2)).reverse ++
        visits rows stack := flatMap_append ..
  rw [hhead, hrest, ← visits_back hindex hback]
  refine List.Perm.cons _ (List.Perm.append_right _ ?_)
  exact ((reverse_perm _).flatMap_right _).symm

/-- One turn of the loop leaves a stack that is ready. -/
theorem Ready.step (htable : Table est pushed (entries rows)) (hindex : Indexed byNode rows)
    (hready : Ready rows ((idx, dev) :: stack)) (hrow : rows[idx]? = some row)
    (ha : a ∈ row.arrivals) (hdev : a.device = dev) {row' : DpRow}
    (hrow' : row'.entry = row.entry) :
    Ready (rows.set idx row')
      ((a.back.filterMap fun e => (byNode.lookup e.1).map fun i => (i, e.2)).reverse ++ stack) := by
  have hentries : (rows.set idx row').map entry = rows.map entry :=
    map_set_of_eq entry hrow hrow'
  have hperm := visits_cons stack htable hindex hrow ha hdev
  have hnodup := nodup_cons.mp ((hperm.map Prod.fst).nodup_iff.mp hready.nodup)
  -- rows keep their arrivals, so what is listed stays so
  have hkeep : ∀ (i : Nat) (r : DpRow) (d : DeviceLocation), rows[i]? = some r →
      (∃ b ∈ r.arrivals, b.device = d) →
      ∃ r', (rows.set idx row')[i]? = some r' ∧ ∃ b ∈ r'.arrivals, b.device = d := by
    intro i r d hr hb
    obtain ⟨r', hr', hentry⟩ := getElem?_of_entries hentries hr
    have harrivals : r'.arrivals = r.arrivals := congrArg Entry.arrivals hentry
    exact ⟨r', hr', by rwa [harrivals]⟩
  refine ⟨?_, ?_, ?_⟩
  · intro s hs
    rcases mem_append.mp hs with hs | hs
    · obtain ⟨e, he, hlookup⟩ := mem_filterMap.mp (mem_reverse.mp hs)
      obtain ⟨q, hq, hb⟩ := htable.back_mem (hindex.rowOf hrow) ha he
      obtain ⟨i, r, hr, hnode, rfl⟩ := exists_index hq
      rw [(hindex e.1 i).mpr ⟨r, hr, hnode⟩, Option.map_some, Option.some.injEq] at hlookup
      subst hlookup
      exact hkeep i r e.2 hr hb
    · obtain ⟨r, hr, hb⟩ := hready.listed s (mem_cons_of_mem _ hs)
      exact hkeep s.1 r s.2 hr hb
  · rw [visits_of_entries hentries]
    exact hnodup.2
  · intro r hr hmem
    rw [visits_of_entries hentries] at hmem
    obtain ⟨i, hi⟩ := mem_iff_getElem?.mp hr
    by_cases hidx : idx = i
    · subst hidx
      rw [getElem?_set_self (lt_of_getElem? hrow)] at hi
      cases hi
      have hnode : row'.node = row.node := congrArg Entry.node hrow'
      rw [hnode] at hmem
      exact absurd hmem hnodup.1
    · rw [getElem?_set_ne hidx] at hi
      refine hready.undecided r (mem_of_getElem? hi) ?_
      exact ((hperm.map Prod.fst).mem_iff).mpr (mem_cons_of_mem _ hmem)

end Step

/-- One committed row, and the rest of the commitments. -/
theorem CommitStep.after_set (hindex : Indexed byNode rows) {idx : Nat} {row : DpRow}
    (hrow : rows[idx]? = some row) {dev : DeviceLocation} {now rest : Commits}
    (hperm : now.Perm ((row.node, dev) :: rest)) (hnodup : (now.map Prod.fst).Nodup)
    (h : List.Forall₂ (CommitStep rest)
      (rows.set idx { row with status := .committed, committed := some dev }) rows') :
    List.Forall₂ (CommitStep now) rows rows' := by
  have hnotin : row.node ∉ rest.map Prod.fst :=
    (nodup_cons.mp ((hperm.map Prod.fst).nodup_iff.mp hnodup)).1
  have hlen : rows.length = rows'.length := by
    have := h.length_eq
    rwa [length_set] at this
  refine List.forall₂_iff_get.mpr ⟨hlen, ?_⟩
  intro i hi hi'
  have hstep := List.Forall₂.get h (by rwa [length_set]) hi'
  simp only [get_eq_getElem, getElem_set] at hstep ⊢
  by_cases hidx : idx = i
  · subst hidx
    rw [if_pos rfl] at hstep
    obtain rfl : rows[idx] = row := by
      rw [getElem?_eq_getElem hi] at hrow
      exact Option.some.inj hrow
    rw [hstep.other hnotin]
    refine ⟨rfl, ?_, ?_⟩
    · intro d hd
      rcases mem_cons.mp (hperm.mem_iff.mp hd) with heq | hmem
      · cases heq
        exact ⟨rfl, rfl⟩
      · exact absurd (mem_map.mpr ⟨_, hmem, rfl⟩) hnotin
    · intro hnot
      refine absurd ?_ hnot
      exact ((hperm.map Prod.fst).mem_iff).mpr (by simp)
  · rw [if_neg hidx] at hstep
    have hne : rows[i].node ≠ row.node := fun heq =>
      hidx (hindex.inj hrow (getElem?_eq_getElem hi) heq).1
    refine ⟨hstep.entry, ?_, ?_⟩
    · intro d hd
      rcases mem_cons.mp (hperm.mem_iff.mp hd) with heq | hmem
      · exact absurd (Prod.mk.inj heq).1 hne
      · exact hstep.visited d hmem
    · intro hnot
      refine hstep.other fun hmem => hnot ?_
      exact ((hperm.map Prod.fst).mem_iff).mpr (mem_cons_of_mem _ hmem)

theorem commitLoop_spec {stack : List (Nat × DeviceLocation)} (out : Commits)
    (htable : Table est pushed (entries rows)) (hindex : Indexed byNode rows)
    (hready : Ready rows stack) :
    ∃ rows' new, commitLoop byNode rows stack out = some (rows', out ++ new) ∧
      new.Perm (visits rows stack) ∧ List.Forall₂ (CommitStep (visits rows stack)) rows rows' := by
  induction rows, stack, out using commitLoop.induct byNode with
  | case1 rows out =>
    refine ⟨rows, [], by rw [commitLoop, append_nil], .refl _, ?_⟩
    exact List.forall₂_same.mpr fun r _ => ⟨rfl, fun _ h => (not_mem_nil h).elim, fun _ => rfl⟩
  | case2 rows out idx dev stack hnone =>
    obtain ⟨r, hr, -⟩ := hready.listed (idx, dev) (by simp)
    rw [hnone] at hr
    cases hr
  | case3 rows out idx dev stack row hrow hdone ih =>
    obtain ⟨r, hr, a, ha, hdev⟩ := hready.listed (idx, dev) (by simp)
    rw [hrow] at hr
    cases hr
    have hperm := visits_cons stack htable hindex hrow ha hdev
    refine absurd hdone (hready.undecided row (mem_of_getElem? hrow) ?_)
    exact ((hperm.map Prod.fst).mem_iff).mpr (by simp)
  | case4 rows out idx dev stack row hrow hdone hfind ih =>
    obtain ⟨r, hr, a, ha, hdev⟩ := hready.listed (idx, dev) (by simp)
    rw [hrow] at hr
    cases hr
    have := find?_eq_none.mp hfind a ha
    simp [hdev] at this
  | case5 rows out idx dev stack row hrow hdone a hfind ih =>
    have ha := mem_of_find?_eq_some hfind
    have hdev : a.device = dev := by simpa using find?_some hfind
    have hperm := visits_cons stack htable hindex hrow ha hdev
    have hentries : (rows.set idx { row with status := .committed, committed := some dev }).map
        entry = rows.map entry := map_set_of_eq entry hrow rfl
    have htable' : entries (rows.set idx { row with status := .committed, committed := some dev }) =
        entries rows := congrArg List.reverse hentries
    obtain ⟨rows', new, hloop, hnew, hsteps⟩ := ih (by rwa [htable']) (hindex.of_entries hentries)
      (hready.step htable hindex hrow ha hdev rfl)
    rw [visits_of_entries hentries] at hnew hsteps
    refine ⟨rows', (row.node, dev) :: new, ?_, (hnew.cons _).trans hperm.symm,
      CommitStep.after_set hindex hrow hperm hready.nodup hsteps⟩
    rw [commitLoop_visit hrow hdone hfind, hloop, List.append_assoc,
      singleton_append]

/-! ## The invariant -/

/-- The root of a tree, with what it costs to bring the root's result from a device to
where it is wanted. -/
structure Root where
  node : NodeId
  toll : DeviceLocation → Nat

/-- The nodes of a tree. -/
def under (pushed : List Push) (n : NodeId) : List NodeId := (tree pushed n).map Push.node

def openNodes (rows : List DpRow) : List NodeId :=
  (rows.filter fun r => r.status = .opened).map node

/-- A tree is committed as its root's cheapest arrival has it. -/
def Root.Settled (rows : List Entry) (log : Commits) (root : Root) : Prop :=
  ∃ e a, rowOf rows root.node = some e ∧ a ∈ e.arrivals ∧
    (∀ b ∈ e.arrivals, capped (a.best.toNat + root.toll a.device) ≤
      capped (b.best.toNat + root.toll b.device)) ∧
    ∀ x ∈ picks rows root.node a.device, x ∈ log

/-- A row is committed if and only if it was logged, and as it was logged. -/
structure DpRow.Decided (log : Commits) (r : DpRow) : Prop where
  logged : r.status = .committed ↔ r.node ∈ log.map Prod.fst
  device : ∀ d, (r.node, d) ∈ log → r.committed = some d

/-- A row after some commitments, which name it only if it was not decided. -/
theorem CommitStep.decided {now new : Commits} {r' : DpRow} (h : CommitStep now r r')
    (hnew : new.Perm now) (hdecided : r.Decided log)
    (hfree : r.node ∈ now.map Prod.fst → r.status ≠ .committed) : r'.Decided (log ++ new) := by
  have hnode : r'.node = r.node := congrArg Entry.node h.entry
  have hnew' := hnew.map Prod.fst
  by_cases hvisit : r.node ∈ now.map Prod.fst
  · -- committed now, and not before
    obtain ⟨⟨n, d⟩, hd, hn⟩ := mem_map.mp hvisit
    obtain rfl : n = r.node := hn
    have hnot : r.node ∉ log.map Prod.fst := fun hin => hfree hvisit (hdecided.logged.mpr hin)
    constructor
    · rw [map_append, hnode]
      exact iff_of_true (h.visited d hd).1 (mem_append_right _ (hnew'.mem_iff.mpr hvisit))
    · intro d' hd'
      rw [hnode] at hd'
      rcases mem_append.mp hd' with hold | hin
      · exact absurd (mem_map.mpr ⟨_, hold, rfl⟩) hnot
      · exact (h.visited d' (hnew.mem_iff.mp hin)).2
  · obtain rfl := h.other hvisit
    constructor
    · rw [hdecided.logged, map_append, mem_append, hnew'.mem_iff]
      exact (or_iff_left hvisit).symm
    · intro d hd
      rcases mem_append.mp hd with hold | hin
      · exact hdecided.device d hold
      · exact absurd (mem_map.mpr ⟨_, hnew.mem_iff.mp hin, rfl⟩) hvisit

theorem Root.Settled.mono {table : List Entry} {new : Commits} {root : Root}
    (h : root.Settled table log) : root.Settled table (log ++ new) := by
  obtain ⟨e, b, he, hb, hmin, hpicks⟩ := h
  exact ⟨e, b, he, hb, hmin, fun x hx => mem_append_left _ (hpicks x hx)⟩

/-- What holds between calls, after the pushes `pushed`, with the closed roots `closed`
and the commitments `log`. -/
structure Inv (est : TransferEstimator) (pushed : List Push) (closed : List Root)
    (dp : PlacementDp) (log : Commits) : Prop where
  table : Table est pushed (entries dp.rows)
  indexed : Indexed dp.byNode dp.rows
  cover : ((closed.map Root.node ++ openNodes dp.rows).flatMap (under pushed)).Perm
    (pushed.map Push.node)
  logged : (log.map Prod.fst).Perm ((closed.map Root.node).flatMap (under pushed))
  decided : ∀ r ∈ dp.rows, r.Decided log
  roots : ∀ root ∈ closed, root.Settled (entries dp.rows) log

theorem mem_under_self (h : n ∈ pushed.map Push.node) : n ∈ under pushed n := by
  induction pushed with
  | nil => simp at h
  | cons p older ih =>
    by_cases hp : p.node = n
    · subst hp
      rw [under, tree_cons_self]
      exact mem_cons_self
    · rw [under, tree_cons_ne hp]
      refine ih ?_
      rcases mem_cons.mp h with heq | hmem
      · exact absurd heq.symm hp
      · exact hmem

/-- The rows that are still open when those of the nodes `ns` no longer are. -/
theorem openNodes_eq_filter {ns : List NodeId} (h : List.Forall₂ (fun r r' =>
      (r.node ∈ ns → r'.status ≠ .opened) ∧ (r.node ∉ ns → r' = r)) rows rows') :
    openNodes rows' = (openNodes rows).filter fun n => n ∉ ns := by
  induction h with
  | nil => rfl
  | @cons r r' rows rows' hr _ ih =>
    unfold openNodes at ih ⊢
    by_cases hmem : r.node ∈ ns
    · have hclosed := hr.1 hmem
      by_cases hopen : r.status = .opened <;> simp [hclosed, hopen, ih, hmem]
    · obtain rfl := hr.2 hmem
      by_cases hopen : r'.status = .opened <;> simp [hopen, ih, hmem]

theorem CommitStep.closes {visits : Commits} {r' : DpRow} (h : CommitStep visits r r')
    (hmem : r.node ∈ visits.map Prod.fst) : r'.status = .committed := by
  obtain ⟨⟨n, d⟩, hd, rfl⟩ := mem_map.mp hmem
  exact (h.visited d hd).1

theorem mem_openNodes : n ∈ openNodes rows ↔ ∃ r ∈ rows, r.status = .opened ∧ r.node = n := by
  simp [openNodes, and_assoc]

namespace Inv

variable {closed : List Root} {dp : PlacementDp} {log : Commits} (h : Inv est pushed closed dp log)

include h

theorem nodes_eq : (dp.rows.map node).reverse = pushed.map Push.node := by
  rw [← h.table.nodes_eq, entries, map_reverse, map_map]
  rfl

theorem node_mem {r : DpRow} (hr : r ∈ dp.rows) : r.node ∈ pushed.map Push.node := by
  rw [← h.nodes_eq]
  exact mem_reverse.mpr (mem_map.mpr ⟨r, hr, rfl⟩)

theorem nodup_cover : ((closed.map Root.node ++ openNodes dp.rows).flatMap (under pushed)).Nodup :=
  h.cover.nodup_iff.mpr h.table.nodup

/-- The tree of an open row: no row twice, and none decided. -/
theorem open_tree {n : NodeId} (hn : n ∈ openNodes dp.rows) :
    (under pushed n).Nodup ∧ ∀ m ∈ under pushed n, m ∉ log.map Prod.fst := by
  have hnodup := h.nodup_cover
  refine ⟨(nodup_flatMap.mp hnodup).1 n (mem_append_right _ hn), ?_⟩
  intro m hm hlog
  rw [flatMap_append, nodup_append] at hnodup
  have hclosed := h.logged.mem_iff.mp hlog
  exact hnodup.2.2 m hclosed m (mem_flatMap.mpr ⟨n, hn, hm⟩) rfl

/-- Two open rows have no row in common. -/
theorem open_disjoint {m n : NodeId} (hm : m ∈ openNodes dp.rows) (hn : n ∈ openNodes dp.rows)
    (hmn : m ∈ under pushed n) : m = n := by
  have hnodup := h.nodup_cover
  rw [flatMap_append, nodup_append] at hnodup
  have hpair := (nodup_flatMap.mp hnodup.2.1).2
  by_contra hne
  obtain ⟨r, hr, -, rfl⟩ := mem_openNodes.mp hm
  have hself := mem_under_self (h.node_mem hr)
  have : Std.Symm (Function.onFun List.Disjoint (under pushed)) := ⟨fun _ _ h => List.Disjoint.symm h⟩
  exact hpair.forall hm hn hne hself hmn

theorem nodup_openNodes : (openNodes dp.rows).Nodup := by
  have hnodup : (dp.rows.map node).Nodup := by
    rw [← nodup_reverse, h.nodes_eq]
    exact h.table.nodup
  exact hnodup.sublist (filter_sublist.map _)

/-- Committing an open row at its cheapest arrival settles its tree. -/
theorem settle {idx : Nat} {row : DpRow} (hrow : dp.rows[idx]? = some row)
    (hopen : row.status = .opened) (price : Arrival → UInt64) (toll : DeviceLocation → Nat)
    (hprice : ∀ a, (price a).toNat = capped (a.best.toNat + toll a.device)) (out : Commits) :
    ∃ dp' new, dp.settle idx row price out = some (dp', out ++ new) ∧
      Inv est pushed (⟨row.node, toll⟩ :: closed) dp' (log ++ new) ∧
      List.Forall₂ (fun r r' => r' = r ∨ r'.status = .committed) dp.rows dp'.rows ∧
      (openNodes dp.rows).Perm (row.node :: openNodes dp'.rows) := by
  have hmem := mem_of_getElem? hrow
  have hopenNode : row.node ∈ openNodes dp.rows := mem_openNodes.mpr ⟨row, hmem, hopen, rfl⟩
  have hrowOf := h.indexed.rowOf hrow
  have hsound := h.table.sound hrowOf
  obtain ⟨e, he, -, hne⟩ := h.table.exists_row (h.node_mem hmem)
  rw [hrowOf] at he
  cases he
  obtain ⟨a, ha, hmin, hall⟩ := firstMin_spec price hne
  obtain ⟨hnodup, hfree⟩ := h.open_tree hopenNode
  have hvisits : visits dp.rows [(idx, a.device)] = picks (entries dp.rows) row.node a.device := by
    simp [visits, hrow]
  have hnodes : (visits dp.rows [(idx, a.device)]).map Prod.fst = under pushed row.node := by
    rw [hvisits]
    exact hsound.nodes a ha
  have hready : Ready dp.rows [(idx, a.device)] := by
    refine ⟨?_, ?_, ?_⟩
    · intro s hs
      rw [mem_singleton.mp hs]
      exact ⟨row, hrow, a, ha, rfl⟩
    · rw [hnodes]
      exact hnodup
    · intro r hr hm hdone
      rw [hnodes] at hm
      exact hfree _ hm ((h.decided r hr).logged.mp hdone)
  obtain ⟨rows', new, hloop, hnew, hsteps⟩ := commitLoop_spec out h.table h.indexed hready
  have hentries := map_entry_of_steps hsteps
  have htable' : entries rows' = entries dp.rows := congrArg List.reverse hentries
  have hnewNodes : (new.map Prod.fst).Perm (under pushed row.node) := hnodes ▸ hnew.map Prod.fst
  -- of the open rows, only the root is in its tree
  have hopens : openNodes rows' = (openNodes dp.rows).erase row.node := by
    rw [openNodes_eq_filter (hsteps.imp fun r r' hstep =>
      ⟨fun hmem => by simp [hstep.closes hmem], hstep.other⟩), hnodes,
      h.nodup_openNodes.erase_eq_filter]
    refine filter_congr fun m hm => ?_
    have hself := mem_under_self (h.node_mem hmem)
    have hiff : m ∈ under pushed row.node ↔ m = row.node :=
      ⟨h.open_disjoint hm hopenNode, fun heq => by rwa [heq]⟩
    by_cases heq : m = row.node
    · simp [heq, hself]
    · simp [hiff, heq]
  have hperm : (openNodes dp.rows).Perm (row.node :: openNodes rows') := by
    rw [hopens]
    exact perm_cons_erase hopenNode
  refine ⟨{ dp with rows := rows' }, new, ?_, ?_, ?_, hperm⟩
  · unfold PlacementDp.settle cheapest
    have hmin' : firstMin price row.arrivals = some (a, price a) := hmin
    rw [hmin']
    simp only [commitRow, hloop, Option.bind_eq_bind, Option.bind_some]
  · refine ⟨by rw [htable']; exact h.table, h.indexed.of_entries hentries, ?_, ?_, ?_, ?_⟩
    · refine List.Perm.trans ?_ h.cover
      refine List.Perm.flatMap_right _ ?_
      rw [map_cons, cons_append]
      exact (perm_middle.symm).trans (List.Perm.append_left _ hperm.symm)
    · rw [map_append, map_cons, flatMap_cons]
      exact (perm_append_comm).trans (hnewNodes.append h.logged)
    · intro r' hr'
      obtain ⟨r, hr, hstep⟩ := forall₂_exists hsteps.flip hr'
      exact hstep.decided hnew (h.decided r hr) (hready.undecided r hr)
    · intro root hroot
      rw [htable']
      rcases mem_cons.mp hroot with rfl | hroot
      · refine ⟨row.entry, a, hrowOf, ha, ?_, ?_⟩
        · intro b hb
          rw [← hprice, ← hprice]
          exact UInt64.le_iff_toNat_le.mp (hall b hb)
        · intro x hx
          refine mem_append_right _ (hnew.mem_iff.mpr ?_)
          rwa [hvisits]
      · exact (h.roots root hroot).mono
  · refine hsteps.imp fun r r' hstep => ?_
    by_cases hvisit : r.node ∈ (visits dp.rows [(idx, a.device)]).map Prod.fst
    · exact .inr (hstep.closes hvisit)
    · exact .inl (hstep.other hvisit)

end Inv

/-! ## Pushing a row -/

/-- A call of `push_row` for a fresh node with distinct devices, whose chain inputs name
distinct open rows. -/
structure Push.Legal (dp : PlacementDp) (p : Push) : Prop where
  fresh : dp.byNode.lookup p.node = none
  costs : p.deviceCosts ≠ []
  devices : p.devices.Nodup
  distinct : (p.chainInputs.map producer).Nodup
  opened : ∀ ci ∈ p.chainInputs, dp.isOpen ci.producer = true

theorem isOpen_iff (hindex : Indexed dp.byNode dp.rows) :
    dp.isOpen n = true ↔ ∃ i r, dp.byNode.lookup n = some i ∧ dp.rows[i]? = some r ∧ r.node = n ∧
      r.status = .opened := by
  unfold isOpen
  constructor
  · intro h
    cases hi : dp.byNode.lookup n with
    | none => simp [hi] at h
    | some i =>
      obtain ⟨r, hr, hnode⟩ := (hindex n i).mp hi
      exact ⟨i, r, rfl, hr, hnode, by simpa [hi, hr] using h⟩
  · rintro ⟨i, r, hi, hr, -, hopen⟩
    simp [hi, hr, hopen]

theorem mapM_some {α β : Type} {R : α → β → Prop} {f : α → Option β} {l : List α}
    (h : ∀ x ∈ l, ∃ y, f x = some y ∧ R x y) : ∃ ys, l.mapM f = some ys ∧ List.Forall₂ R l ys := by
  induction l with
  | nil => exact ⟨[], rfl, .nil⟩
  | cons x l ih =>
    obtain ⟨y, hy, hR⟩ := h x (by simp)
    obtain ⟨ys, hys, hrest⟩ := ih fun z hz => h z (by simp [hz])
    exact ⟨y :: ys, by simp [mapM_cons, hy, hys], .cons hR hrest⟩

section Push

variable {closed : List Root} {dp : PlacementDp} {log : Commits} {p : Push}

/-- The extension of a chain input is the choice among its producer's arrivals. -/
theorem extend_eq (h : Inv est pushed closed dp log) {d : DeviceLocation} {ci : ChainInput}
    (hopen : dp.isOpen ci.producer = true) :
    ∃ c, choice est (entries dp.rows) d ci = some c ∧ ∀ s, dp.extend est d s ci =
      some (saturatingAdd s.1 c.2, s.2 ++ [(ci.producer, c.1.device)]) := by
  obtain ⟨i, r, hi, hr, hnode, -⟩ := (isOpen_iff h.indexed).mp hopen
  have hrowOf := h.indexed.rowOf hr
  obtain ⟨e, he, -, hne⟩ := h.table.exists_row (h.node_mem (mem_of_getElem? hr))
  rw [hrowOf] at he
  cases he
  obtain ⟨a, -, hmin, -⟩ :=
    firstMin_spec (fun a => est.charge a.device d a.best ci.edgeBytes) hne
  have hmin : r.cheapest (fun a => est.charge a.device d a.best ci.edgeBytes) = some _ := hmin
  refine ⟨(a, est.charge a.device d a.best ci.edgeBytes), ?_, ?_⟩
  · rw [choice, ← hnode, hrowOf, Option.bind_some]
    exact hmin
  · intro s
    simp only [extend, hi, hr, Option.bind_eq_bind, Option.bind_some, hmin]

theorem foldlM_extend {d : DeviceLocation} {f : ChainInput → Arrival × UInt64} {cis : List ChainInput}
    (h : ∀ ci ∈ cis, ∀ s, dp.extend est d s ci =
      some (saturatingAdd s.1 (f ci).2, s.2 ++ [(ci.producer, (f ci).1.device)]))
    (s : UInt64 × Commits) :
    cis.foldlM (dp.extend est d) s = some (cis.foldl (fun t ci => saturatingAdd t (f ci).2) s.1,
      s.2 ++ cis.map fun ci => (ci.producer, (f ci).1.device)) := by
  induction cis generalizing s with
  | nil => simp
  | cons ci cis ih =>
    rw [foldlM_cons, h ci (by simp)]
    simp only [Option.bind_eq_bind, Option.bind_some]
    rw [ih fun ci' hci' => h ci' (by simp [hci'])]
    simp

/-- The arrivals of a new row are those of the recurrence. -/
theorem arrive_eq (h : Inv est pushed closed dp log) (hp : p.Legal dp)
    (dc : DeviceLocation × UInt64) :
    ∃ a, dp.arrive est p.fixedInputs p.chainInputs dc = some a ∧
      IsArrival est (entries dp.rows) p dc a := by
  have hchoice : ∀ ci : ChainInput, ∃ c, ci ∈ p.chainInputs →
      choice est (entries dp.rows) dc.1 ci = some c ∧ ∀ s, dp.extend est dc.1 s ci =
        some (saturatingAdd s.1 c.2, s.2 ++ [(ci.producer, c.1.device)]) := by
    intro ci
    by_cases hci : ci ∈ p.chainInputs
    · obtain ⟨c, hc⟩ := extend_eq h (d := dc.1) (hp.opened ci hci)
      exact ⟨c, fun _ => hc⟩
    · exact ⟨(⟨dc.1, 0, []⟩, 0), fun hmem => absurd hmem hci⟩
  choose f hf using hchoice
  have hfold := foldlM_extend (fun ci hci => (hf ci hci).2)
    (p.fixedInputs.foldl
      (fun acc i => saturatingAdd acc (est.estimateTransferNs i.1 dc.1 i.2)) dc.2, [])
  refine ⟨⟨dc.1, _, _⟩, by simp only [arrive, hfold]; rfl, rfl, f,
    fun ci hci => (hf ci hci).1, rfl, ?_⟩
  rw [toNat_foldl_saturatingAdd, toNat_foldl_saturatingAdd, capped_capped_add]

/-- A row after some producers have been chained. -/
def DpRow.chain (producers : List NodeId) (r : DpRow) : DpRow :=
  if r.node ∈ producers then { r with status := .chained } else r

theorem DpRow.chain_entry (producers : List NodeId) (r : DpRow) :
    (r.chain producers).entry = r.entry := by
  unfold chain
  split <;> rfl

theorem map_entry_chain (producers : List NodeId) (rows : List DpRow) :
    (rows.map (chain producers)).map entry = rows.map entry := by
  rw [map_map]
  exact map_congr_left fun r _ => chain_entry _ r

theorem markChained_eq (hindex : Indexed byNode rows) {i : Nat} {r : DpRow} {ci : ChainInput}
    (hr : rows[i]? = some r) (hnode : r.node = ci.producer) (hopen : r.status = .opened) :
    markChained byNode rows ci = some (rows.map (chain [ci.producer])) := by
  have hi := (hindex ci.producer i).mpr ⟨r, hr, hnode⟩
  simp only [markChained, hi, hr, Option.bind_eq_bind, Option.bind_some, hopen, if_true]
  congr 1
  apply ext_getElem?
  intro j
  rw [getElem?_set, getElem?_map]
  by_cases hij : i = j
  · subst hij
    rw [if_pos rfl, if_pos (lt_of_getElem? hr), hr, Option.map_some, chain,
      if_pos (by simp [hnode])]
  · rw [if_neg hij]
    cases hj : rows[j]? with
    | none => rfl
    | some r' =>
      have hne : r'.node ≠ ci.producer := fun heq =>
        hij (hindex.inj hr hj (heq.trans hnode.symm)).1
      simp [chain, hne]

theorem foldlM_markChained (hindex : Indexed byNode rows) {cis : List ChainInput}
    (hnodup : (cis.map producer).Nodup)
    (hopen : ∀ ci ∈ cis, ∃ (i : Nat) (r : DpRow), rows[i]? = some r ∧ r.node = ci.producer ∧
      r.status = .opened) :
    cis.foldlM (markChained byNode) rows =
      some (rows.map (chain (cis.map producer))) := by
  induction cis generalizing rows with
  | nil =>
    have hid : chain [] = id := by
      funext r
      simp [chain]
    simp [hid]
  | cons ci cis ih =>
    rw [map_cons, nodup_cons] at hnodup
    obtain ⟨i, r, hr, hnode, hstatus⟩ := hopen ci (by simp)
    rw [foldlM_cons, markChained_eq hindex hr hnode hstatus, Option.bind_eq_bind,
      Option.bind_some]
    rw [ih (hindex.of_entries (map_entry_chain _ _)) hnodup.2 ?_]
    · rw [map_map]
      congr 1
      apply map_congr_left
      intro r _
      unfold chain
      by_cases h1 : r.node = ci.producer
      · simp [h1, hnodup.1]
      · simp [h1]
    intro ci' hci'
    obtain ⟨j, r', hr', hnode', hstatus'⟩ := hopen ci' (by simp [hci'])
    have hne : r'.node ≠ ci.producer := by
      rintro heq
      refine hnodup.1 (mem_map.mpr ⟨ci', hci', ?_⟩)
      rw [← hnode', heq]
    refine ⟨j, r', ?_, hnode', hstatus'⟩
    rw [getElem?_map, hr']
    simp [chain, hne]

/-- The index with one more row. -/
theorem Indexed.push (h : Indexed byNode rows)
    {r : DpRow} (hfresh : byNode.lookup r.node = none) :
    Indexed ((r.node, rows.length) :: byNode) (rows ++ [r]) := by
  rw [indexed_iff] at h ⊢
  intro n i
  rw [lookup_cons, map_append, map_singleton, getElem?_append, length_map]
  by_cases hn : n = r.node
  · subst hn
    simp only [beq_self_eq_true, Option.some.injEq]
    split
    · rename_i hlt
      refine iff_of_false (by omega) fun hold => ?_
      rw [(h r.node i).mpr hold] at hfresh
      cases hfresh
    · rw [getElem?_singleton]
      split <;> simp <;> omega
  · simp only [beq_eq_false_iff_ne.mpr hn, h n i]
    split
    · rfl
    · rename_i hge
      rw [getElem?_eq_none (by simpa using hge), getElem?_singleton]
      split <;> simp [Ne.symm hn]

/-- The open rows after a push: those that were not chained, and the new one. -/
theorem openNodes_push (rows : List DpRow) (producers : List NodeId) (arrivals : List Arrival)
    (n : NodeId) : openNodes (rows.map (chain producers) ++ [⟨n, arrivals, .opened, none⟩]) =
      ((openNodes rows).filter fun m => m ∉ producers) ++ [n] := by
  have hrows : openNodes (rows.map (chain producers)) =
      (openNodes rows).filter fun m => m ∉ producers := by
    refine openNodes_eq_filter (List.forall₂_map_right_iff.mpr (List.forall₂_same.mpr fun r _ => ?_))
    by_cases hmem : r.node ∈ producers <;> simp [chain, hmem]
  rw [← hrows]
  simp [openNodes]

/-- The open rows are the producers of a push and the rest. -/
theorem openNodes_split (h : Inv est pushed closed dp log) (hp : p.Legal dp) :
    (openNodes dp.rows).Perm (((openNodes dp.rows).filter fun m =>
      m ∉ p.chainInputs.map producer) ++ p.chainInputs.map producer) := by
  refine (perm_ext_iff_of_nodup h.nodup_openNodes ?_).mpr ?_
  · refine nodup_append.mpr ⟨h.nodup_openNodes.filter _, hp.distinct, ?_⟩
    intro m hm m' hm' heq
    simp only [mem_filter, decide_eq_true_eq] at hm
    exact hm.2 (heq ▸ hm')
  intro m
  simp only [mem_append, mem_filter, decide_eq_true_eq]
  constructor
  · intro hm
    by_cases hprod : m ∈ p.chainInputs.map producer
    · exact .inr hprod
    · exact .inl ⟨hm, hprod⟩
  · rintro (⟨hm, -⟩ | hprod)
    · exact hm
    · obtain ⟨ci, hci, rfl⟩ := mem_map.mp hprod
      obtain ⟨i, r, -, hr, hnode, hopen⟩ := (isOpen_iff h.indexed).mp (hp.opened ci hci)
      exact mem_openNodes.mpr ⟨r, mem_of_getElem? hr, hopen, hnode⟩

theorem under_cons_ne {n : NodeId} (hn : p.node ≠ n) : under (p :: pushed) n = under pushed n := by
  rw [under, tree_cons_ne hn, under]

theorem under_cons_self : under (p :: pushed) p.node =
    p.node :: (p.chainInputs.map producer).flatMap (under pushed) := by
  rw [under, tree_cons_self, map_cons, map_flatMap, flatMap_map]
  rfl

/-- `push_row`, with the arguments of a push. -/
def Push.apply (est : TransferEstimator) (p : Push) (dp : PlacementDp) : Option PlacementDp :=
  dp.pushRow p.node p.deviceCosts p.fixedInputs p.chainInputs est

variable (h : Inv est pushed closed dp log) (hp : p.Legal dp)

include h hp

/-- The producers of a legal push are open rows. -/
theorem Inv.producer_row {ci : ChainInput} (hci : ci ∈ p.chainInputs) :
    ∃ (i : Nat) (r : DpRow), dp.rows[i]? = some r ∧ r.node = ci.producer ∧ r.status = .opened := by
  obtain ⟨i, r, -, hr, hnode, hopen⟩ := (isOpen_iff h.indexed).mp (hp.opened ci hci)
  exact ⟨i, r, hr, hnode, hopen⟩

theorem Inv.fresh : p.node ∉ pushed.map Push.node := by
  intro hmem
  rw [← h.nodes_eq] at hmem
  obtain ⟨r, hr, hnode⟩ := mem_map.mp (mem_reverse.mp hmem)
  obtain ⟨i, hi⟩ := mem_iff_getElem?.mp hr
  have hlookup := hp.fresh
  rw [(h.indexed p.node i).mpr ⟨r, hi, hnode⟩] at hlookup
  cases hlookup

theorem Inv.closed_ne {n : NodeId} (hn : n ∈ closed.map Root.node) : p.node ≠ n := by
  rintro rfl
  obtain ⟨root, hroot, hnode⟩ := mem_map.mp hn
  obtain ⟨e, a, he, -⟩ := h.roots root hroot
  exact h.fresh hp (hnode ▸ h.table.mem_of_rowOf he)

theorem Inv.under_closed : (closed.map Root.node).flatMap (under (p :: pushed)) =
    (closed.map Root.node).flatMap (under pushed) :=
  flatMap_congr fun _ hn => under_cons_ne (h.closed_ne hp hn)

/-- The new row is the root of its producers' trees. -/
theorem Inv.cover_push (arrivals : List Arrival) : ((closed.map Root.node ++
      openNodes (dp.rows.map (chain (p.chainInputs.map producer)) ++
        [⟨p.node, arrivals, .opened, none⟩])).flatMap (under (p :: pushed))).Perm
      ((p :: pushed).map Push.node) := by
  have hopens : ∀ n ∈ openNodes dp.rows, p.node ≠ n := by
    rintro n hn rfl
    obtain ⟨r, hr, -, hnode⟩ := mem_openNodes.mp hn
    exact h.fresh hp (hnode ▸ h.node_mem hr)
  have hrest : ((openNodes dp.rows).filter fun m =>
      m ∉ p.chainInputs.map producer).flatMap (under (p :: pushed)) =
      ((openNodes dp.rows).filter fun m =>
        m ∉ p.chainInputs.map producer).flatMap (under pushed) :=
    flatMap_congr fun n hn => under_cons_ne (hopens n (mem_of_mem_filter hn))
  rw [openNodes_push, flatMap_append, flatMap_append, h.under_closed hp, hrest,
    flatMap_singleton, under_cons_self, map_cons]
  have hsplit := (openNodes_split h hp).flatMap_right (under pushed)
  rw [flatMap_append] at hsplit
  have hcover := h.cover
  rw [flatMap_append] at hcover
  refine (List.Perm.append_left _ perm_middle).trans (perm_middle.trans ?_)
  exact ((List.Perm.append_left _ hsplit.symm).trans hcover).cons _

/-- A push commits nothing: a producer was open, and the new row is in no log. -/
theorem Inv.decided_push (arrivals : List Arrival) :
    ∀ r ∈ dp.rows.map (chain (p.chainInputs.map producer)) ++
      [⟨p.node, arrivals, .opened, none⟩], r.Decided log := by
  have hlog : ∀ n ∈ log.map Prod.fst, n ∈ pushed.map Push.node := by
    intro n hn
    refine h.cover.mem_iff.mp ?_
    rw [flatMap_append]
    exact mem_append_left _ (h.logged.mem_iff.mp hn)
  intro r' hr'
  rcases mem_append.mp hr' with hr' | hr'
  · obtain ⟨r, hr, rfl⟩ := mem_map.mp hr'
    have hdecided := h.decided r hr
    unfold chain
    split
    · rename_i hmem
      obtain ⟨ci, hci, hnode⟩ := mem_map.mp hmem
      obtain ⟨i, r₁, hr₁, hnode₁, hopen₁⟩ := h.producer_row hp hci
      obtain ⟨k, hk⟩ := mem_iff_getElem?.mp hr
      obtain rfl := (h.indexed.inj hr₁ hk (hnode.symm.trans hnode₁.symm)).2
      refine ⟨⟨(fun hc => nomatch hc), fun hin => ?_⟩, hdecided.device⟩
      rw [hdecided.logged.mpr hin] at hopen₁
      cases hopen₁
    · exact hdecided
  · rw [mem_singleton.mp hr']
    refine ⟨⟨(fun hc => nomatch hc), fun hin => absurd (hlog _ hin) (h.fresh hp)⟩, ?_⟩
    intro d hd
    exact absurd (hlog _ (mem_map.mpr ⟨_, hd, rfl⟩)) (h.fresh hp)

theorem Inv.push : ∃ dp', p.apply est dp = some dp' ∧ Inv est (p :: pushed) closed dp' log := by
  obtain ⟨arrivals, harrivals, hforall⟩ := mapM_some (l := p.deviceCosts)
    fun dc _ => arrive_eq h hp dc
  have hmark := foldlM_markChained h.indexed hp.distinct fun _ => h.producer_row hp
  have hentries := map_entry_chain (p.chainInputs.map producer) dp.rows
  have htable : entries (dp.rows.map (chain (p.chainInputs.map producer)) ++
      [⟨p.node, arrivals, .opened, none⟩]) = ⟨p.node, arrivals⟩ :: entries dp.rows := by
    rw [entries, map_append, hentries, reverse_append]
    rfl
  refine ⟨_, by simp only [Push.apply, pushRow, harrivals, hmark]; rfl, ?_⟩
  constructor
  · show Table est (p :: pushed) (entries (_ ++ [_]))
    rw [htable]
    refine .cons h.table (h.fresh hp) hp.costs hp.devices ?_ rfl hforall
    intro ci hci
    obtain ⟨i, r, hr, hnode, -⟩ := h.producer_row hp hci
    exact hnode ▸ h.node_mem (mem_of_getElem? hr)
  · exact (h.indexed.of_entries hentries).push (r := ⟨p.node, arrivals, .opened, none⟩) hp.fresh
  · exact h.cover_push hp arrivals
  · rw [h.under_closed hp]
    exact h.logged
  · exact h.decided_push hp arrivals
  · intro root hroot
    have hnode := h.closed_ne hp (mem_map.mpr ⟨root, hroot, rfl⟩)
    obtain ⟨e, a, he, ha, hmin, hpicks⟩ := h.roots root hroot
    rw [htable]
    refine ⟨e, a, by simpa [rowOf, hnode] using he, ha, hmin, ?_⟩
    rw [picks_cons_ne hnode]
    exact hpicks

end Push

/-! ## Whole runs -/

/-- The runs of a table: the pushes, newest first, the rows that were closed and the
commitments made. -/
inductive Ran (est : TransferEstimator) : List Push → List Root → PlacementDp →
    Commits → Prop
  | new : Ran est [] [] .new []
  | push {pushed : List Push} {closed : List Root} {dp dp' : PlacementDp}
      {log : Commits} {p : Push} :
      Ran est pushed closed dp log → p.Legal dp → p.apply est dp = some dp' →
      Ran est (p :: pushed) closed dp' log
  | close {pushed : List Push} {closed : List Root} {dp dp' : PlacementDp}
      {log out : Commits} {n : NodeId} {consumer : DeviceLocation}
      {edgeBytes : List UInt64} :
      Ran est pushed closed dp log → dp.isOpen n = true →
      dp.closeToward n consumer edgeBytes est = some (dp', out) →
      Ran est pushed (⟨n, fun d => Push.transfers est d consumer edgeBytes⟩ :: closed) dp'
        (log ++ out)

/-- What it costs to bring a result to where it is wanted at the end. -/
def exitToll (exitLoc : Option DeviceLocation) (exitBytes : NodeId → UInt64)
    (est : TransferEstimator) (n : NodeId) (d : DeviceLocation) : Nat :=
  match exitLoc with
  | none => 0
  | some loc => (est.estimateTransferNs d loc (exitBytes n)).toNat

theorem Inv.init (est : TransferEstimator) : Inv est [] [] .new [] where
  table := .nil
  indexed n i := by simp [new]
  cover := .refl _
  logged := .refl _
  decided r hr := by simp [new] at hr
  roots root hroot := by simp at hroot

theorem Inv.close {closed : List Root} (h : Inv est pushed closed dp log)
    (hopen : dp.isOpen n = true) (consumer : DeviceLocation) (edgeBytes : List UInt64) :
    ∃ dp' out, dp.closeToward n consumer edgeBytes est = some (dp', out) ∧
      Inv est pushed (⟨n, fun d => Push.transfers est d consumer edgeBytes⟩ :: closed) dp'
        (log ++ out) := by
  obtain ⟨i, r, hi, hr, hnode, hstatus⟩ := (isOpen_iff h.indexed).mp hopen
  obtain ⟨dp', new, hsettle, hinv, -⟩ := h.settle hr hstatus
    (fun a => est.charge a.device consumer a.best edgeBytes)
    (fun d => Push.transfers est d consumer edgeBytes) (fun a => toNat_charge _ _ _ _) []
  rw [hnode] at hinv
  refine ⟨dp', new, ?_, hinv⟩
  simpa [closeToward, hi, hr, hstatus] using hsettle

theorem Ran.inv {closed : List Root} (h : Ran est pushed closed dp log) :
    Inv est pushed closed dp log := by
  induction h with
  | new => exact .init est
  | push _ hp happly ih =>
    obtain ⟨dp', happly', hinv⟩ := ih.push hp
    cases happly.symm.trans happly'
    exact hinv
  | close _ hopen hclose ih =>
    obtain ⟨dp', out, hclose', hinv⟩ := ih.close hopen _ _
    cases hclose.symm.trans hclose'
    exact hinv

section Finish

variable {closed : List Root} {dp : PlacementDp} {log : Commits}
  (exitLoc : Option DeviceLocation) (exitBytes : NodeId → UInt64)

/-- An open row at the end, as the root of its tree. -/
def exitRoot (est : TransferEstimator) (exitLoc : Option DeviceLocation)
    (exitBytes : NodeId → UInt64) (n : NodeId) : Root :=
  ⟨n, exitToll exitLoc exitBytes est n⟩

theorem toNat_exitPrice (n : NodeId) (a : Arrival) :
    (exitPrice exitLoc exitBytes est n a).toNat =
      capped (a.best.toNat + exitToll exitLoc exitBytes est n a.device) := by
  cases exitLoc with
  | none => exact (capped_toNat a.best).symm
  | some loc => exact toNat_saturatingAdd _ _

/-- The first loop of `finish` after `k` turns: no open row is left below `k`. -/
structure Finished (est : TransferEstimator) (pushed : List Push) (closed : List Root)
    (dp : PlacementDp) (log : Commits) (k : Nat)
    (s : PlacementDp × Commits) : Prop where
  inv : ∃ exits : List NodeId,
    Inv est pushed (exits.map (exitRoot est exitLoc exitBytes) ++ closed) s.1 (log ++ s.2) ∧
    (openNodes dp.rows).Perm (exits ++ openNodes s.1.rows)
  length : s.1.rows.length = dp.rows.length
  below : ∀ (i : Nat) (r : DpRow), s.1.rows[i]? = some r → r.status = .opened → k ≤ i

variable {k : Nat}

theorem Finished.step {s : PlacementDp × Commits}
    (h : Finished exitLoc exitBytes est pushed closed dp log k s) (hk : k < dp.rows.length) :
    ∃ s', finishOpen exitLoc exitBytes est s k = some s' ∧
      Finished exitLoc exitBytes est pushed closed dp log (k + 1) s' := by
  obtain ⟨row, hrow⟩ : ∃ row, s.1.rows[k]? = some row :=
    ⟨_, getElem?_eq_getElem (h.length.symm ▸ hk)⟩
  unfold finishOpen
  rw [hrow, Option.bind_eq_bind, Option.bind_some]
  by_cases hopen : row.status = .opened
  · rw [if_neg (not_not.mpr hopen)]
    obtain ⟨exits, hinv, hperm⟩ := h.inv
    obtain ⟨dp', new, hsettle, hinv', hrows, hopens⟩ := hinv.settle hrow hopen
      (exitPrice exitLoc exitBytes est row.node)
      (exitToll exitLoc exitBytes est row.node) (toNat_exitPrice exitLoc exitBytes row.node) s.2
    refine ⟨(dp', s.2 ++ new), hsettle, ⟨row.node :: exits, ?_, ?_⟩, ?_, ?_⟩
    · rw [← List.append_assoc]
      exact hinv'
    · exact (hperm.trans (List.Perm.append_left _ hopens)).trans perm_middle
    · exact hrows.length_eq.symm.trans h.length
    intro i r hr hstatus
    obtain ⟨r₀, hr₀, hkeep⟩ := forall₂_getElem? hrows.flip hr
    rcases hkeep with rfl | hdone
    · have hle := h.below i r hr₀ hstatus
      refine Nat.lt_of_le_of_ne hle ?_
      rintro rfl
      -- the root itself is not open any more
      rw [hrow] at hr₀
      cases hr₀
      have hnodup := hopens.nodup_iff.mp hinv.nodup_openNodes
      exact (nodup_cons.mp hnodup).1 (mem_openNodes.mpr
        ⟨row, mem_of_getElem? hr, hstatus, rfl⟩)
    · rw [hdone] at hstatus
      cases hstatus
  · rw [if_pos hopen]
    refine ⟨s, rfl, h.inv, h.length, ?_⟩
    intro i r hr hstatus
    refine Nat.lt_of_le_of_ne (h.below i r hr hstatus) ?_
    rintro rfl
    rw [hrow] at hr
    cases hr
    exact hopen hstatus

theorem Finished.run (h : Inv est pushed closed dp log) (hk : k ≤ dp.rows.length) :
    ∃ s, (List.range k).foldlM (finishOpen exitLoc exitBytes est) (dp, []) = some s ∧
      Finished exitLoc exitBytes est pushed closed dp log k s := by
  induction k with
  | zero =>
    refine ⟨(dp, []), rfl, ⟨[], ?_, .refl _⟩, rfl, fun _ _ _ _ => Nat.zero_le _⟩
    rw [append_nil]
    exact h
  | succ k ih =>
    obtain ⟨s, hs, hfin⟩ := ih (by omega)
    obtain ⟨s', hs', hfin'⟩ := hfin.step exitLoc exitBytes (by omega)
    refine ⟨s', ?_, hfin'⟩
    rw [range_succ, foldlM_append, hs]
    simpa using hs'

/-- The second loop of `finish` finds every row committed. -/
theorem finishMissed_done {s : PlacementDp × Commits} (h : ∀ r ∈ s.1.rows, r.status = .committed)
    (hk : k ≤ s.1.rows.length) : (List.range k).foldlM finishMissed s = some s := by
  induction k with
  | zero => rfl
  | succ k ih =>
    have hlt : k < s.1.rows.length := by omega
    rw [range_succ, foldlM_append, ih (by omega)]
    simp [finishMissed, getElem?_eq_getElem hlt,
      h _ (getElem_mem hlt)]

theorem finish_eq (h : Inv est pushed closed dp log) :
    ∃ dp' out exits, dp.finish exitLoc exitBytes est = some (dp', out) ∧
      Inv est pushed (exits.map (exitRoot est exitLoc exitBytes) ++ closed) dp' (log ++ out) ∧
      (openNodes dp.rows).Perm exits ∧ openNodes dp'.rows = [] := by
  obtain ⟨⟨dp', out⟩, hs, ⟨exits, hinv, hperm⟩, hlength, hbelow⟩ :=
    Finished.run exitLoc exitBytes h (Nat.le_refl _)
  have hopen : openNodes dp'.rows = [] := by
    rw [eq_nil_iff_forall_not_mem]
    intro n hn
    obtain ⟨r, hr, hstatus, -⟩ := mem_openNodes.mp hn
    obtain ⟨i, hi⟩ := mem_iff_getElem?.mp hr
    have hlt := lt_of_getElem? hi
    have hle := hbelow i r hi hstatus
    simp only at hlength hlt
    omega
  have hdone : ∀ r ∈ dp'.rows, r.status = .committed := by
    intro r hr
    refine (hinv.decided r hr).logged.mpr (hinv.logged.mem_iff.mpr ?_)
    have hcover := hinv.cover
    rw [hopen, append_nil] at hcover
    exact hcover.mem_iff.mpr (hinv.node_mem hr)
  refine ⟨dp', out, exits, ?_, hinv, ?_, hopen⟩
  · rw [finish, hs, Option.bind_eq_bind, Option.bind_some]
    exact finishMissed_done hdone (Nat.le_refl _)
  · rw [hopen, append_nil] at hperm
    exact hperm

end Finish

/-! ## Optimality -/

/-- No assignment of listed devices to the tree is cheaper. -/
def Root.Optimal (est : TransferEstimator) (pushed : List Push) (γ : Assignment) (root : Root) :
    Prop :=
  ∀ α, Listed pushed root.node α →
    capped (total est pushed root.node γ + root.toll (γ root.node)) ≤
      capped (total est pushed root.node α + root.toll (α root.node))

theorem tree_subset {q : Push} (h : q ∈ tree pushed n) : q ∈ pushed := by
  induction pushed generalizing n with
  | nil => cases h
  | cons p older ih =>
    by_cases hp : p.node = n
    · subst hp
      rw [tree_cons_self] at h
      rcases mem_cons.mp h with rfl | h
      · exact mem_cons_self
      · obtain ⟨ci, -, hq⟩ := mem_flatMap.mp h
        exact mem_cons_of_mem _ (ih hq)
    · rw [tree_cons_ne hp] at h
      exact mem_cons_of_mem _ (ih h)

section Optimal

variable {closed : List Root} {dp : PlacementDp} {log : Commits}
  {γ : Assignment}

/-- A logged commitment is the row's device. -/
theorem Inv.committedDevice_eq (h : Inv est pushed closed dp log) {e : NodeId × DeviceLocation}
    (he : e ∈ log) (hmem : e.1 ∈ pushed.map Push.node) : dp.committedDevice e.1 = some e.2 := by
  rw [← h.nodes_eq] at hmem
  obtain ⟨r, hr, hnode⟩ := mem_map.mp (mem_reverse.mp hmem)
  obtain ⟨i, hi⟩ := mem_iff_getElem?.mp hr
  have hlookup := (h.indexed e.1 i).mpr ⟨r, hi, hnode⟩
  have hdevice := (h.decided r hr).device e.2 (by rw [hnode]; exact he)
  simp [committedDevice, hlookup, hi, hdevice]

/-- A settled root's tree has a listed assignment of lowest price. -/
theorem Inv.optimal (h : Inv est pushed closed dp log) (hγ : ∀ e ∈ log, γ e.1 = e.2) {root : Root}
    (hroot : root ∈ closed) : Listed pushed root.node γ ∧ root.Optimal est pushed γ := by
  obtain ⟨e, a, he, ha, hmin, hpicks⟩ := h.roots root hroot
  have hsound := h.table.sound he
  have hfollow : ∀ x ∈ picks (entries dp.rows) root.node a.device, γ x.1 = x.2 :=
    fun x hx => hγ x (hpicks x hx)
  have hself : γ root.node = a.device := by
    refine hfollow _ (picks_head ?_ _)
    rw [h.table.nodes_eq]
    exact h.table.mem_of_rowOf he
  refine ⟨hsound.listed a ha γ hfollow, ?_⟩
  intro α hα
  -- the root's arrival on the device that the other assignment gives it
  obtain ⟨b, hb, hdev⟩ := hsound.arrives α hα
  calc capped (total est pushed root.node γ + root.toll (γ root.node))
      = capped (a.best.toNat + root.toll a.device) := by
        rw [hsound.exact a ha γ hfollow, capped_capped_add, hself]
    _ ≤ capped (b.best.toNat + root.toll b.device) := hmin b hb
    _ ≤ capped (total est pushed root.node α + root.toll (α root.node)) := by
        rw [hdev]
        exact capped_mono (Nat.add_le_add_right (hsound.bound b hb α hdev.symm hα) _)

end Optimal

/-- **The placement table is optimal on forests.** After any run, a legal `push_row` and a
`close_toward` on an open row return, and so does `finish`: it commits every row that was not
committed before, so that each row has been committed once and to one of its devices. The
rows closed before and those open at the end are the roots of trees that partition the rows,
and each tree is committed at a lowest price. -/
theorem placement_dp_optimal {closed : List Root} {dp : PlacementDp}
    {log : Commits} (h : Ran est pushed closed dp log)
    (exitLoc : Option DeviceLocation) (exitBytes : NodeId → UInt64) :
    (∀ p : Push, p.Legal dp → ∃ dp', p.apply est dp = some dp') ∧
    (∀ n, dp.isOpen n = true → ∀ consumer edgeBytes, ∃ dp' out,
      dp.closeToward n consumer edgeBytes est = some (dp', out)) ∧
    ∃ dp' out, ∃ γ : Assignment, ∃ exits : List NodeId,
      dp.finish exitLoc exitBytes est = some (dp', out) ∧
      (pushed.map Push.node).Nodup ∧
      ((log ++ out).map Prod.fst).Perm (pushed.map Push.node) ∧
      (∀ p ∈ pushed, γ p.node ∈ p.devices ∧ (p.node, γ p.node) ∈ log ++ out ∧
        dp'.committedDevice p.node = some (γ p.node)) ∧
      (∀ n, n ∈ exits ↔ dp.isOpen n = true) ∧
      ((exits ++ closed.map Root.node).flatMap (under pushed)).Perm (pushed.map Push.node) ∧
      ∀ root ∈ exits.map (exitRoot est exitLoc exitBytes) ++ closed, root.Optimal est pushed γ := by
  have hinv := h.inv
  refine ⟨fun p hp => (hinv.push hp).imp fun _ => And.left, fun n hn consumer edgeBytes => ?_, ?_⟩
  · obtain ⟨dp', out, hclose, -⟩ := hinv.close hn consumer edgeBytes
    exact ⟨dp', out, hclose⟩
  obtain ⟨dp', out, exits, hfinish, hinv', hexits, hopen⟩ := finish_eq exitLoc exitBytes hinv
  have hroots : (exits.map (exitRoot est exitLoc exitBytes) ++ closed).map Root.node =
      exits ++ closed.map Root.node := by
    rw [map_append, map_map]
    exact congrArg (· ++ _) (map_id _)
  have hcover := hinv'.cover
  rw [hopen, append_nil, hroots] at hcover
  have hlogged := hinv'.logged
  rw [hroots] at hlogged
  have hall := hlogged.trans hcover
  have hdevice : ∀ e ∈ log ++ out, dp'.committedDevice e.1 = some e.2 := fun e he =>
    hinv'.committedDevice_eq he (hall.mem_iff.mp (mem_map.mpr ⟨e, he, rfl⟩))
  obtain ⟨γ, hγ⟩ : ∃ γ : Assignment, ∀ n, γ n = (dp'.committedDevice n).getD .cpu :=
    ⟨_, fun _ => rfl⟩
  have hfollow : ∀ e ∈ log ++ out, γ e.1 = e.2 := fun e he => by
    rw [hγ, hdevice e he, Option.getD_some]
  refine ⟨dp', out, γ, exits, hfinish, hinv.table.nodup, hall, ?_, ?_, hcover,
    fun root hroot => (hinv'.optimal hfollow hroot).2⟩
  · intro p hp
    have hnode : p.node ∈ pushed.map Push.node := mem_map.mpr ⟨p, hp, rfl⟩
    obtain ⟨e, he, hen⟩ := mem_map.mp (hall.mem_iff.mpr hnode)
    have hself := hfollow e he
    have hcommitted := hdevice e he
    rw [hen] at hself hcommitted
    refine ⟨?_, ?_, by rw [hcommitted, hself]⟩
    · -- the row is in some root's tree, where the commitments are listed
      obtain ⟨n, hn, hunder⟩ := mem_flatMap.mp (hcover.mem_iff.mpr hnode)
      rw [← hroots] at hn
      obtain ⟨root, hroot, rfl⟩ := mem_map.mp hn
      obtain ⟨q, hq, hqp⟩ := mem_map.mp hunder
      obtain rfl : q = p := inj_on_of_nodup_map hinv.table.nodup (tree_subset hq) hp hqp
      exact (hinv'.optimal hfollow hroot).1 q hq
    · rw [hself, ← hen]
      exact he
  · intro n
    rw [← hexits.mem_iff, mem_openNodes, isOpen_iff hinv.indexed]
    constructor
    · rintro ⟨r, hr, hstatus, rfl⟩
      obtain ⟨i, hi⟩ := mem_iff_getElem?.mp hr
      exact ⟨i, r, (hinv.indexed r.node i).mpr ⟨r, hi, rfl⟩, hi, rfl, hstatus⟩
    · rintro ⟨i, r, -, hr, hnode, hstatus⟩
      exact ⟨r, mem_of_getElem? hr, hstatus, hnode⟩

/-- Equal devices are reached for free, others at a fixed price. -/
def flatEstimator : TransferEstimator := ⟨fun src dst _ => if src = dst then 0 else 1000⟩

/-- Two chained kernels that are faster on the other device, after an input that is on the
host, and a third kernel by itself. -/
def gpuPushes : List Push :=
  [⟨2, [(.cpu, 5)], [], []⟩,
    ⟨1, [(.cpu, 800), (.cuda 0, 100)], [], [⟨0, [4]⟩]⟩,
    ⟨0, [(.cpu, 800), (.cuda 0, 100)], [(.cpu, 4)], []⟩]

/-- The chain is closed towards another GPU, and the third row is left to `finish`. -/
theorem chained_rows_finish : ∃ dp log,
    Ran flatEstimator gpuPushes
      [⟨1, fun d => Push.transfers flatEstimator d (.cuda 1) [4]⟩] dp log ∧
    ∃ dp' out, ∃ γ : Assignment, ∃ exits : List NodeId,
      dp.finish (some .cpu) (fun _ => 4) flatEstimator = some (dp', out) ∧
      ((exits ++ [1]).flatMap (under gpuPushes)).Perm [2, 1, 0] ∧
      (∀ n ∈ exits,
        (exitRoot flatEstimator (some .cpu) (fun _ => 4) n).Optimal flatEstimator gpuPushes γ) ∧
      (Root.mk 1 fun d => Push.transfers flatEstimator d (.cuda 1) [4]).Optimal
        flatEstimator gpuPushes γ := by
  obtain ⟨dp, log, hran⟩ : ∃ dp log, Ran flatEstimator gpuPushes
      [⟨1, fun d => Push.transfers flatEstimator d (.cuda 1) [4]⟩] dp log := by
    have hpushed : ∃ dp, Ran flatEstimator gpuPushes [] dp [] ∧ dp.isOpen 1 = true :=
      ⟨_, .push (.push (.push .new ⟨rfl, by decide, by decide, by decide, by simp⟩ rfl)
        ⟨rfl, by decide, by decide, by decide, by decide⟩ rfl)
        ⟨rfl, by decide, by decide, by decide, by simp⟩ rfl, by decide⟩
    obtain ⟨dp₀, hpushed, hopen⟩ := hpushed
    obtain ⟨dp, log, hclose, -⟩ := hpushed.inv.close hopen (.cuda 1) [4]
    exact ⟨dp, _, .close hpushed hopen hclose⟩
  obtain ⟨-, -, dp', out, γ, exits, hfinish, -, -, -, -, hcover, hoptimal⟩ :=
    placement_dp_optimal hran (some .cpu) fun _ => 4
  exact ⟨dp, log, hran, dp', out, γ, exits, hfinish, hcover,
    fun n hn => hoptimal _ (mem_append_left _ (mem_map.mpr ⟨n, hn, rfl⟩)),
    hoptimal _ (by simp)⟩

end Fuel.Dispatch
