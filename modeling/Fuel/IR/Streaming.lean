import Fuel.IR.Route

/-!
# The streaming walk

`lowerPickedRouteStreaming` decides a branch when it first meets a run that opens
one of its arms, and sorts by device what it keeps between two decisions.
`lowerPickedRoute` decides every branch first and sorts everything it keeps. So
the two can differ in two ways: a run inside an arm not taken that comes before
every opening of its branch is kept by the walk, and runs on several devices are
sorted piecewise.
-/

namespace Fuel.IR

open Fuel.DepGraph List IR.Stream

/-! ## What the walk keeps -/

/-- The run begins where an arm of the branch leaves the common part. -/
def BranchArms.opens (g : Graph) (b : BranchArms) (r : Run) : Bool :=
  decide (r.entry ∈ b.armEntries g)

/-- The branches `pick` was asked about by the walk, the last one first. -/
def pickCalls (g : Graph) (roots : List NodeId) (pick : NodeId → Nat) : Option (List NodeId) := do
  let runs ← extractRunsMulti g roots
  let order ← routeOrder g roots
  some (runs.foldl (step g (branchArms g order) pick) init).resolved

section Keeping

variable (g : Graph) (branches : List BranchArms) (pick : NodeId → Nat)

/-- The nodes in arms not taken of the branches that one of the runs opens. -/
def SkippedAfter (runs : List Run) (n : NodeId) : Prop :=
  ∃ b ∈ branches, (∃ r ∈ runs, b.opens g r = true) ∧ n ∈ b.skipped (pick b.branch)

instance (runs : List Run) (n : NodeId) : Decidable (SkippedAfter g branches pick runs n) :=
  inferInstanceAs (Decidable (∃ b ∈ branches, (∃ r ∈ runs, b.opens g r = true) ∧
    n ∈ b.skipped (pick b.branch)))

/-- What the walk keeps of the runs `rest` after it has met the runs `seen`. -/
def streamKept : List Run → List Run → List Run
  | _, [] => []
  | seen, r :: rest =>
    if SkippedAfter g branches pick (seen ++ [r]) r.entry then streamKept (seen ++ [r]) rest
    else r :: streamKept (seen ++ [r]) rest

/-- Some run after `r` is the first that opens an arm of its branch. -/
def DecidesLater (runs : List Run) (r : Run) : Prop :=
  ∃ pre x post, runs = pre ++ x :: post ∧ r ∈ pre ∧
    ∃ b ∈ branches, b.opens g x = true ∧ ∀ y ∈ pre, b.opens g y = false

/-- The walk after the runs `seen`, of which it kept `kept`. The runs sent out
lie in finished segments, each ended by a decision. -/
structure StreamInv (seen kept : List Run) (s : Stream) : Prop where
  nodup : s.resolved.Nodup
  resolved : ∀ b ∈ branches, b.branch ∈ s.resolved ↔ ∃ r ∈ seen, b.opens g r = true
  skip : ∀ n, n ∈ s.skip ↔ SkippedAfter g branches pick seen n
  kept_seen : ∀ r ∈ kept, r ∈ seen
  output : ∃ closed : List (List Run), closed.flatten ++ s.segment = kept ∧
    s.emitted = (closed.map (lowerRuns g)).flatten ∧
    ∀ segment ∈ closed, ∀ r ∈ segment, DecidesLater g branches seen r

end Keeping

section Walk

variable {g : Graph} {branches : List BranchArms} {pick : NodeId → Nat}

theorem Stream.foldl_resolve (pick : NodeId → Nat)
    (hdet : ∀ b ∈ branches, ∀ b' ∈ branches, b.branch = b'.branch → b = b')
    {bs : List BranchArms} (hbs : ∀ b ∈ bs, b ∈ branches) (s : Stream) :
    (bs.foldl (resolve pick) s).segment = s.segment ∧
      (bs.foldl (resolve pick) s).emitted = s.emitted ∧
      (s.resolved.Nodup → (bs.foldl (resolve pick) s).resolved.Nodup) ∧
      (∀ id, id ∈ (bs.foldl (resolve pick) s).resolved ↔
        id ∈ s.resolved ∨ ∃ b ∈ bs, b.branch = id) ∧
      ∀ n, n ∈ (bs.foldl (resolve pick) s).skip ↔
        n ∈ s.skip ∨ ∃ b ∈ bs, b.branch ∉ s.resolved ∧ n ∈ b.skipped (pick b.branch) := by
  induction bs generalizing s with
  | nil => simp
  | cons b bs ih =>
    have hbs' : ∀ b ∈ bs, b ∈ branches := fun x hx => hbs x (mem_cons_of_mem _ hx)
    rw [foldl_cons]
    by_cases hb : b.branch ∈ s.resolved
    · have hsame : s.resolve pick b = s := by simp [resolve, hb]
      rw [hsame]
      obtain ⟨h₁, h₂, h₃, h₄, h₅⟩ := ih hbs' s
      refine ⟨h₁, h₂, h₃, fun id => ?_, fun n => ?_⟩
      · rw [h₄]
        simp only [mem_cons, exists_eq_or_imp]
        constructor
        · rintro (h | h)
          · exact .inl h
          · exact .inr (.inr h)
        · rintro (h | rfl | h)
          · exact .inl h
          · exact .inl hb
          · exact .inr h
      · rw [h₅]
        simp [hb]
    · have hnew : s.resolve pick b = { s with resolved := b.branch :: s.resolved
                                              skip := b.skipped (pick b.branch) ++ s.skip } := by
        simp [resolve, hb]
      obtain ⟨h₁, h₂, h₃, h₄, h₅⟩ := ih hbs' (s.resolve pick b)
      rw [hnew] at h₁ h₂ h₃ h₄ h₅ ⊢
      refine ⟨h₁, h₂, fun h => h₃ (nodup_cons.mpr ⟨hb, h⟩), fun id => ?_, fun n => ?_⟩
      · rw [h₄]
        simp only [mem_cons, exists_eq_or_imp]
        constructor
        · rintro ((rfl | h) | h)
          · exact .inr (.inl rfl)
          · exact .inl h
          · exact .inr (.inr h)
        · rintro (h | rfl | h)
          · exact .inl (.inr h)
          · exact .inl (.inl rfl)
          · exact .inr h
      · rw [h₅]
        simp only [mem_cons, mem_append, exists_eq_or_imp]
        constructor
        · rintro ((h | h) | ⟨b', hb', hnot, h⟩)
          · exact .inr (.inl ⟨hb, h⟩)
          · exact .inl h
          · exact .inr (.inr ⟨b', hb', fun hin => hnot (.inr hin), h⟩)
        rintro (h | ⟨-, h⟩ | ⟨b', hb', hnot, h⟩)
        · exact .inl (.inr h)
        · exact .inl (.inl h)
        by_cases heq : b'.branch = b.branch
        · -- the same branch met again: it is the one just resolved
          have := hdet b' (hbs' b' hb') b (hbs b mem_cons_self) heq
          exact .inl (.inl (this ▸ h))
        · refine .inr ⟨b', hb', ?_, h⟩
          rintro (h' | h')
          · exact heq h'
          · exact hnot h'

variable {seen kept : List Run} {r : Run} {s : Stream} {order : List NodeId}
  {segments : List (List Run)}

theorem skippedAfter_append {n : NodeId} :
    SkippedAfter g branches pick (seen ++ [r]) n ↔ SkippedAfter g branches pick seen n ∨
      ∃ b ∈ branches, b.opens g r = true ∧ n ∈ b.skipped (pick b.branch) := by
  unfold SkippedAfter
  simp only [mem_append, mem_singleton]
  constructor
  · rintro ⟨b, hb, ⟨x, hx | rfl, ho⟩, hn⟩
    · exact .inl ⟨b, hb, ⟨x, hx, ho⟩, hn⟩
    · exact .inr ⟨b, hb, ho, hn⟩
  · rintro (⟨b, hb, ⟨x, hx, ho⟩, hn⟩ | ⟨b, hb, ho, hn⟩)
    · exact ⟨b, hb, ⟨x, .inl hx, ho⟩, hn⟩
    · exact ⟨b, hb, ⟨r, .inr rfl, ho⟩, hn⟩

theorem DecidesLater.append {x : Run} (h : DecidesLater g branches seen r) :
    DecidesLater g branches (seen ++ [x]) r := by
  obtain ⟨pre, y, post, rfl, hr, hb⟩ := h
  exact ⟨pre, y, post ++ [x], by simp, hr, hb⟩

/-- Flushing before the run `r` that decides a branch. -/
theorem StreamInv.flushed (h : StreamInv g branches pick seen kept s)
    (hnew : ∃ b ∈ branches, b.opens g r = true ∧ b.branch ∉ s.resolved) :
    ∃ closed : List (List Run), closed.flatten = kept ∧
      (s.flush g).emitted = (closed.map (lowerRuns g)).flatten ∧
      ∀ segment ∈ closed, ∀ x ∈ segment, DecidesLater g branches (seen ++ [r]) x := by
  obtain ⟨closed, hkept, hout, hcut⟩ := h.output
  obtain ⟨b, hb, ho, hnot⟩ := hnew
  refine ⟨closed ++ [s.segment], by simpa using hkept, by simp [flush, hout], ?_⟩
  intro segment hseg x hx
  rcases mem_append.mp hseg with hseg | hseg
  · exact (hcut segment hseg x hx).append
  · rw [mem_singleton.mp hseg] at hx
    have hxseen := h.kept_seen x (hkept ▸ mem_append_right _ hx)
    refine ⟨seen, r, [], rfl, hxseen, b, hb, ho, fun y hy => ?_⟩
    rw [← Bool.not_eq_true]
    exact fun hyo => hnot ((h.resolved b hb).mpr ⟨y, hy, hyo⟩)

/-- **One run of the walk.** -/
theorem StreamInv.step (hdet : ∀ b ∈ branches, ∀ b' ∈ branches, b.branch = b'.branch → b = b')
    (h : StreamInv g branches pick seen kept s) (r : Run) : StreamInv g branches pick (seen ++ [r])
      (if SkippedAfter g branches pick (seen ++ [r]) r.entry then kept else kept ++ [r])
      (s.step g branches pick r) := by
  have hopened : ∀ b ∈ branches.filter fun b => decide (r.entry ∈ b.armEntries g), b ∈ branches :=
    fun b hb => (mem_filter.mp hb).1
  have hmem : ∀ b, b ∈ branches.filter (fun b => decide (r.entry ∈ b.armEntries g)) ↔
      b ∈ branches ∧ b.opens g r = true := fun b => by rw [mem_filter]; rfl
  -- the state after the flush: nothing but the segment and the output changes
  obtain ⟨t, ht⟩ : ∃ t, t = if (branches.filter fun b => decide (r.entry ∈ b.armEntries g)).any
      (fun b => decide (b.branch ∉ s.resolved)) then s.flush g else s := ⟨_, rfl⟩
  have htres : t.resolved = s.resolved := by rw [ht]; split <;> rfl
  have htskip : t.skip = s.skip := by rw [ht]; split <;> rfl
  have htout : ∃ closed : List (List Run), closed.flatten ++ t.segment = kept ∧
      t.emitted = (closed.map (lowerRuns g)).flatten ∧
      ∀ segment ∈ closed, ∀ x ∈ segment, DecidesLater g branches (seen ++ [r]) x := by
    rw [ht]
    split
    · rename_i hany
      obtain ⟨b, hb, hnot⟩ := any_eq_true.mp hany
      obtain ⟨hb, ho⟩ := (hmem b).mp hb
      obtain ⟨closed, hkept, hout, hcut⟩ := h.flushed ⟨b, hb, ho, of_decide_eq_true hnot⟩
      exact ⟨closed, by simp [flush, hkept], hout, hcut⟩
    · obtain ⟨closed, hkept, hout, hcut⟩ := h.output
      exact ⟨closed, hkept, hout, fun segment hseg x hx => (hcut segment hseg x hx).append⟩
  obtain ⟨hseg, hemit, hnd, hres, hskip⟩ := foldl_resolve pick hdet hopened t
  rw [htres] at hnd hres hskip
  rw [htskip] at hskip
  have hskipped : ∀ n, n ∈ ((branches.filter fun b => decide (r.entry ∈ b.armEntries g)).foldl
      (resolve pick) t).skip ↔ SkippedAfter g branches pick (seen ++ [r]) n := by
    intro n
    rw [hskip, skippedAfter_append, h.skip]
    simp only [hmem]
    constructor
    · rintro (hn | ⟨b, ⟨hb, ho⟩, -, hn⟩)
      · exact .inl hn
      · exact .inr ⟨b, hb, ho, hn⟩
    · rintro (hn | ⟨b, hb, ho, hn⟩)
      · exact .inl hn
      · by_cases hold : b.branch ∈ s.resolved
        · exact .inl ⟨b, hb, (h.resolved b hb).mp hold, hn⟩
        · exact .inr ⟨b, ⟨hb, ho⟩, hold, hn⟩
  have hresolved : ∀ b ∈ branches, b.branch ∈ ((branches.filter fun b =>
      decide (r.entry ∈ b.armEntries g)).foldl (resolve pick) t).resolved ↔
        ∃ x ∈ seen ++ [r], b.opens g x = true := by
    intro b hb
    rw [hres, h.resolved b hb]
    simp only [hmem, mem_append, mem_singleton]
    constructor
    · rintro (⟨x, hx, ho⟩ | ⟨b', ⟨hb', ho⟩, heq⟩)
      · exact ⟨x, .inl hx, ho⟩
      · rw [hdet b' hb' b hb heq] at ho
        exact ⟨r, .inr rfl, ho⟩
    · rintro ⟨x, hx | rfl, ho⟩
      · exact .inl ⟨x, hx, ho⟩
      · exact .inr ⟨b, ⟨hb, ho⟩, rfl⟩
  obtain ⟨closed, hkept, hout, hcut⟩ := htout
  unfold Stream.step
  simp only [← ht, hskipped]
  split
  · exact ⟨hnd h.nodup, hresolved, hskipped,
      fun x hx => mem_append_left _ (h.kept_seen x hx),
      closed, by rw [hseg]; exact hkept, by rw [hemit]; exact hout, hcut⟩
  · refine ⟨hnd h.nodup, hresolved, hskipped, fun x hx => ?_, closed, ?_, ?_, hcut⟩
    · rcases mem_append.mp hx with hx | hx
      · exact mem_append_left _ (h.kept_seen x hx)
      · exact mem_append_right _ hx
    · simp only [hseg, ← hkept, List.append_assoc]
    · simp only [hemit]
      exact hout

/-- **The whole walk.** -/
theorem StreamInv.run (hdet : ∀ b ∈ branches, ∀ b' ∈ branches, b.branch = b'.branch → b = b')
    (rest : List Run) (h : StreamInv g branches pick seen kept s) :
    StreamInv g branches pick (seen ++ rest) (kept ++ streamKept g branches pick seen rest)
      (rest.foldl (Stream.step g branches pick) s) := by
  induction rest generalizing seen kept s with
  | nil => simpa [streamKept] using h
  | cons r rest ih =>
    have hnext := ih (h.step hdet r)
    rw [List.append_assoc, singleton_append] at hnext
    rw [foldl_cons, streamKept]
    split
    · rename_i hskip
      rw [if_pos hskip] at hnext
      exact hnext
    · rename_i hskip
      rw [if_neg hskip, List.append_assoc, singleton_append] at hnext
      exact hnext

theorem StreamInv.init : StreamInv g branches pick [] [] init := by
  constructor
  case nodup => exact nodup_nil
  case resolved => simp [Stream.init]
  case skip => simp [Stream.init, SkippedAfter]
  case kept_seen => intro r hr; cases hr
  case output => exact ⟨[], rfl, rfl, by simp⟩

theorem branchArms_det : ∀ b ∈ branchArms g order,
    ∀ b' ∈ branchArms g order, b.branch = b'.branch → b = b' := by
  have hform : ∀ b ∈ branchArms g order,
      b = ⟨b.branch, (g.inputs b.branch).map (backwardCone g order)⟩ := by
    intro b hb
    obtain ⟨id, -, hid⟩ := mem_filterMap.mp hb
    split at hid
    · cases hid
      rfl
    · cases hid
  intro b hb b' hb' heq
  rw [hform b hb, hform b' hb', heq]

/-! ## Against the one-shot lowering -/

/-- Everything the one-shot lowering keeps, the walk keeps. -/
theorem filter_sublist_streamKept {keep : Run → Bool}
    (hkeep : ∀ r runs, keep r = true → ¬ SkippedAfter g branches pick runs r.entry)
    (seen rest : List Run) : (rest.filter keep).Sublist (streamKept g branches pick seen rest) := by
  induction rest generalizing seen with
  | nil => exact .slnil
  | cons r rest ih =>
    rw [streamKept]
    cases hr : keep r with
    | true =>
      rw [if_neg (hkeep r _ hr), filter_cons_of_pos hr]
      exact (ih _).cons_cons r
    | false =>
      rw [filter_cons_of_neg (by simp [hr])]
      split
      · exact ih _
      · exact (ih _).cons r

theorem streamKept_sublist (seen rest : List Run) :
    (streamKept g branches pick seen rest).Sublist rest := by
  induction rest generalizing seen with
  | nil => exact .slnil
  | cons r rest ih =>
    rw [streamKept]
    split
    · exact (ih _).cons r
    · exact (ih _).cons_cons r

/-- The walk keeps no more than the one-shot lowering when each run left out by
the latter is in an arm that has been opened. -/
theorem streamKept_eq_filter_iff {keep : Run → Bool}
    (hkeep : ∀ r runs, keep r = true → ¬ SkippedAfter g branches pick runs r.entry)
    (seen rest : List Run) :
    streamKept g branches pick seen rest = rest.filter keep ↔
      ∀ pre r post, rest = pre ++ r :: post → keep r = false →
        SkippedAfter g branches pick (seen ++ (pre ++ [r])) r.entry := by
  induction rest generalizing seen with
  | nil => simp [streamKept]
  | cons r rest ih =>
    -- the splits of `r :: rest`: at `r`, or inside `rest`
    have hsplit : (∀ pre x post, r :: rest = pre ++ x :: post → keep x = false →
        SkippedAfter g branches pick (seen ++ (pre ++ [x])) x.entry) ↔
        (keep r = false → SkippedAfter g branches pick (seen ++ [r]) r.entry) ∧
          ∀ pre x post, rest = pre ++ x :: post → keep x = false →
            SkippedAfter g branches pick ((seen ++ [r]) ++ (pre ++ [x])) x.entry := by
      constructor
      · intro h
        refine ⟨fun hr => h [] r rest rfl hr, fun pre x post hrest hx => ?_⟩
        have := h (r :: pre) x post (by rw [hrest]; rfl) hx
        simpa using this
      rintro ⟨hr, hrest⟩ pre x post hsplit hx
      cases pre with
      | nil =>
        cases hsplit
        exact hr hx
      | cons y pre =>
        cases hsplit
        simpa using hrest pre x post rfl hx
    rw [hsplit, ← ih, streamKept]
    cases hr : keep r with
    | true =>
      rw [if_neg (hkeep r _ hr), filter_cons_of_pos hr]
      simp
    | false =>
      rw [filter_cons_of_neg (by simp [hr])]
      split
      · rename_i hskip
        simp [hskip]
      · rename_i hskip
        simp only [hskip, imp_false, not_true, false_and, iff_false]
        intro heq
        have hle := (filter_sublist_streamKept hkeep (seen ++ [r]) rest).length_le
        rw [← heq, length_cons] at hle
        omega

/-- Runs kept by both have the same nodes only if they are the same runs. -/
theorem eq_of_sublist_of_length {kept' : List Run} (hsub : kept.Sublist kept')
    (hlen : (membersOf kept).flatten.length = (membersOf kept').flatten.length) : kept = kept' := by
  induction hsub with
  | slnil => rfl
  | @cons l l' r hsub _ =>
    have hle : (membersOf l).flatten.length ≤ (membersOf l').flatten.length :=
      ((hsub.map Run.members).flatten).length_le
    have hpos : 0 < r.members.length := length_pos_of_ne_nil r.nonempty
    simp only [membersOf, map_cons, flatten_cons, length_append] at hlen hle
    omega
  | @cons_cons l l' r hsub ih =>
    rw [ih]
    simp only [membersOf, map_cons, flatten_cons, length_append] at hlen ⊢
    omega

theorem membersOf_append (l l' : List Run) :
    (membersOf (l ++ l')).flatten = (membersOf l).flatten ++ (membersOf l').flatten := by
  simp [membersOf]

/-- Sending out segment by segment sends out the same nodes. -/
theorem flatten_lowerRuns_perm {seeds : List NodeId} (htopo : IsTopoOrder g seeds order)
    (hsched : Schedules g.inputs order) (hsub : segments.flatten.Sublist (runsOf g order)) :
    (segments.map (lowerRuns g)).flatten.Perm (membersOf segments.flatten).flatten := by
  induction segments with
  | nil => exact .refl _
  | cons segment segments ih =>
    have hfirst := runList_of_sublist htopo hsched ((sublist_append_left _ _).trans hsub)
    rw [map_cons, flatten_cons, flatten_cons, membersOf_append]
    exact (lowerRuns_perm hfirst).append (ih ((sublist_append_right _ _).trans hsub))

/-- Where each segment is sent out as it comes, so is the whole. -/
theorem flatten_lowerRuns_of_each
    (h : ∀ segment ∈ segments, lowerRuns g segment = (membersOf segment).flatten) :
    (segments.map (lowerRuns g)).flatten = (membersOf segments.flatten).flatten := by
  induction segments with
  | nil => rfl
  | cons segment segments ih =>
    rw [map_cons, flatten_cons, flatten_cons, membersOf_append, h segment mem_cons_self,
      ih fun s hs => h s (mem_cons_of_mem _ hs)]

/-- A segment is a piece of what is kept. -/
theorem infix_flatten {segment : List Run} (h : segment ∈ segments) : segment <:+: segments.flatten := by
  obtain ⟨pre, post, rfl⟩ := append_of_mem h
  exact ⟨pre.flatten, post.flatten, by simp⟩

theorem flatten_lowerRuns_nil (h : segments.flatten = []) :
    (segments.map (lowerRuns g)).flatten = [] := by
  rw [flatten_eq_nil_iff] at h ⊢
  intro l hl
  obtain ⟨segment, hseg, rfl⟩ := mem_map.mp hl
  rw [h segment hseg]
  rfl

end Walk

/-- **Arms are opened in time**: a run that begins inside an arm not taken comes
at or after a run that opens an arm of a branch whose other arms it begins in. -/
def ArmsOpened (g : Graph) (order : List NodeId) (pick : NodeId → Nat) : Prop :=
  ∀ pre r post, runsOf g order = pre ++ r :: post →
    r.entry ∈ nonChosenArmNodes g order (fun b => some (pick b)) →
      SkippedAfter g (branchArms g order) pick (pre ++ [r]) r.entry

/-- **Decisions come first**: no run that is kept comes before the first opening of a branch. -/
def DecidedFirst (g : Graph) (order : List NodeId) (pick : NodeId → Nat) : Prop :=
  ∀ r ∈ runsOf g order, DecidesLater g (branchArms g order) (runsOf g order) r →
    r.entry ∈ nonChosenArmNodes g order (fun b => some (pick b))

/-- **The order of what is kept is forced**: each run that is kept reads a node of the
run kept before it. -/
def OrderForced (g : Graph) (order : List NodeId) (pick : NodeId → Nat) : Prop :=
  (keptRuns g order fun b => some (pick b)).IsChain (Run.Feeds g)

/-- **When the streaming walk agrees with the one-shot lowering.** `pick` is asked
at most once for each branch. Equal results need the arms opened in time; that is
enough when the nodes kept are on one device, all decisions come first, or the order
of the runs kept is forced. -/
theorem streaming_eq_one_shot (g : Graph) (branches : List (NodeId × NodeId))
    (hbuilt : Built g branches) (roots : List NodeId) (hroots : ∀ r ∈ roots, r < g.len)
    (pick : NodeId → Nat) :
    ∃ order streamed oneShot calls, routeOrder g roots = some order ∧
      lowerPickedRouteStreaming g roots pick = some streamed ∧
      lowerPickedRoute g roots (fun b => some (pick b)) = some oneShot ∧
      pickCalls g roots pick = some calls ∧ calls.Nodup ∧
      (streamed = oneShot → ArmsOpened g order pick) ∧
      (SingleDevice g (keptNodes g order fun b => some (pick b)) ∨ DecidedFirst g order pick ∨
          OrderForced g order pick →
        (streamed = oneShot ↔ ArmsOpened g order pick)) := by
  have hspec := hbuilt.spec
  obtain ⟨seeds, order, -, hroute, horder, -, -⟩ :=
    routeOrder_returns hspec.ordered.lt_len hroots
  have htopo := topoOrderMulti_spec horder
  have hsched := topoOrderMulti_schedules (hspec.ordered.acyclic.acyclicFrom seeds) horder
  obtain ⟨s, hs⟩ : ∃ s, s = (runsOf g order).foldl (step g (branchArms g order) pick)
    init := ⟨_, rfl⟩
  have hinv : StreamInv g (branchArms g order) pick (runsOf g order)
      (streamKept g (branchArms g order) pick [] (runsOf g order)) s := by
    rw [hs]
    exact StreamInv.init.run branchArms_det (runsOf g order)
  obtain ⟨closed, hkept, hout, hcut⟩ := hinv.output
  -- a run is left out by the one-shot lowering if some branch leaves it out
  have hkeep : ∀ (r : Run) (runs : List Run),
      decide (r.entry ∉ nonChosenArmNodes g order fun b => some (pick b)) = true →
      ¬ SkippedAfter g (branchArms g order) pick runs r.entry := by
    rintro r runs hr ⟨b, hb, -, hn⟩
    exact of_decide_eq_true hr (mem_flatMap.mpr ⟨b, hb, hn⟩)
  have hiff : streamKept g (branchArms g order) pick [] (runsOf g order) =
      keptRuns g order (fun b => some (pick b)) ↔ ArmsOpened g order pick := by
    rw [keptRuns, streamKept_eq_filter_iff hkeep]
    simp only [decide_eq_false_iff_not, not_not, nil_append]
    rfl
  have hflat : (closed ++ [s.segment]).flatten =
      streamKept g (branchArms g order) pick [] (runsOf g order) := by
    simpa using hkept
  have hruns : (closed ++ [s.segment]).flatten.Sublist (runsOf g order) := by
    rw [hflat]
    exact streamKept_sublist [] (runsOf g order)
  have hstreamed : (s.flush g).emitted = ((closed ++ [s.segment]).map (lowerRuns g)).flatten := by
    simp [flush, hout]
  have hnecessary : (s.flush g).emitted =
      lowerRuns g (keptRuns g order fun b => some (pick b)) → ArmsOpened g order pick := by
    intro heq
    have hperm := flatten_lowerRuns_perm htopo hsched hruns
    rw [hflat, ← hstreamed, heq] at hperm
    have hlen := (lowerRuns_kept_perm _ htopo hsched).length_eq.symm.trans hperm.length_eq
    have hsub := filter_sublist_streamKept hkeep [] (runsOf g order)
    exact hiff.mp (eq_of_sublist_of_length hsub hlen).symm
  refine ⟨order, (s.flush g).emitted, _, s.resolved, hroute, ?_, lowerPickedRoute_eq hroute _, ?_,
    hinv.nodup, hnecessary, fun hcase => ⟨hnecessary, fun hopened => ?_⟩⟩
  · simp [lowerPickedRouteStreaming, extractRunsMulti, hroute, hs]
  · simp [pickCalls, extractRunsMulti, hroute, hs]
  have hsame := hflat.trans (hiff.mpr hopened)
  rcases hcase with hdev | hfirst | hforced
  · -- on one device every segment, and the whole, is lowered as it comes
    rw [hstreamed, flatten_lowerRuns_of_each fun segment hseg => ?_, hsame,
      lowerRuns_singleDevice (keptRuns_sublist g order _) hdev]
    have hpiece := (infix_flatten hseg).sublist
    have hmembers := (hpiece.map Run.members).flatten.subset
    rw [hsame] at hmembers
    exact lowerRuns_singleDevice (hpiece.trans hruns) fun a ha b hb =>
      hdev a (hmembers ha) b (hmembers hb)
  swap
  · -- a piece of a chain is a chain
    rw [hstreamed, flatten_lowerRuns_of_each fun segment hseg => ?_, hsame,
      lowerRuns_chained (runList_of_sublist htopo hsched (keptRuns_sublist g order _)) hforced]
    have hpiece := infix_flatten hseg
    refine lowerRuns_chained (runList_of_sublist htopo hsched (hpiece.sublist.trans hruns)) ?_
    exact IsChain.infix (hsame ▸ hforced) hpiece
  -- nothing was kept before a decision, so the last segment has everything
  have hclosed : closed.flatten = [] := by
    rw [eq_nil_iff_forall_not_mem]
    intro r hr
    obtain ⟨segment, hseg, hrs⟩ := mem_flatten.mp hr
    have hmem : r ∈ keptRuns g order fun b => some (pick b) := by
      rw [← hsame, flatten_append]
      exact mem_append_left _ hr
    obtain ⟨hrun, hkeepr⟩ := mem_filter.mp hmem
    exact of_decide_eq_true hkeepr (hfirst r hrun (hcut segment hseg r hrs))
  rw [flatten_append, hclosed, nil_append, flatten_singleton] at hsame
  rw [flush, hout, flatten_lowerRuns_nil hclosed, nil_append, hsame]

/-- Two arms, and behind the merge node one on another device. -/
def acrossDevicesNodes : Graph where
  nodes := [plainNode .const [], plainNode .relu [0], plainNode .silu [0], plainNode .neg [1],
    plainNode .relu [3]]
  targetBackends := fun id => if id = 4 then some .cuda else some .cpu

def acrossDevices : Graph := acrossDevicesNodes.push (plainNode (.branch 3) [1, 2])

theorem acrossDevices_built : Built acrossDevices [(5, 0)] :=
  built_twoArms (.of_branchless (by decide +kernel)) (by decide +kernel) rfl

/-- Both take the first arm: the runs kept are on two devices, each read by the next. -/
theorem streaming_takes_first_arm :
    OrderForced acrossDevices [0, 2, 1, 5, 3, 4] (fun _ => 0) ∧
      ArmsOpened acrossDevices [0, 2, 1, 5, 3, 4] (fun _ => 0) ∧
      lowerPickedRouteStreaming acrossDevices [4] (fun _ => 0) = some [0, 1, 3, 4] ∧
      lowerPickedRoute acrossDevices [4] (fun _ => some 0) = some [0, 1, 3, 4] := by
  have hstream : lowerPickedRouteStreaming acrossDevices [4] (fun _ => 0) = some [0, 1, 3, 4] := by
    decide +kernel
  have honce : lowerPickedRoute acrossDevices [4] (fun _ => some 0) = some [0, 1, 3, 4] := by
    decide +kernel
  obtain ⟨order, streamed, oneShot, calls, hroute, hs, ho, -, -, -, hiff⟩ :=
    streaming_eq_one_shot acrossDevices [(5, 0)] acrossDevices_built [4] (by decide +kernel)
      (fun _ => 0)
  have horder : routeOrder acrossDevices [4] = some [0, 2, 1, 5, 3, 4] := by decide +kernel
  obtain rfl : [0, 2, 1, 5, 3, 4] = order := Option.mem_unique horder hroute
  obtain rfl : [0, 1, 3, 4] = streamed := Option.mem_unique hstream hs
  obtain rfl : [0, 1, 3, 4] = oneShot := Option.mem_unique honce ho
  have hforced : OrderForced acrossDevices [0, 2, 1, 5, 3, 4] fun _ => 0 := by
    unfold OrderForced Run.Feeds
    decide +kernel
  exact ⟨hforced, (hiff (.inr (.inr hforced))).mp rfl, hstream, honce⟩

/-- A branch, and beside it a chain on another device. -/
def besideChainNodes : Graph where
  nodes := [plainNode .const [], plainNode .relu [0], plainNode .silu [0], plainNode .neg [1],
    plainNode .const [], plainNode .neg [4], plainNode .neg [5]]
  targetBackends := fun id => if 4 ≤ id then some .cuda else some .cpu

def besideChain : Graph := besideChainNodes.push (plainNode (.branch 3) [1, 2])

theorem besideChain_built : Built besideChain [(7, 0)] :=
  built_twoArms (.of_branchless (by decide +kernel)) (by decide +kernel) rfl

/-- The walk keeps a constant of the arm not taken, and sorts by device piecewise. -/
theorem streaming_differs :
    (Built privateConstant [(7, 1)] ∧
      lowerPickedRouteStreaming privateConstant [6] (fun _ => 0) = some [2, 0, 1, 3, 5, 6] ∧
      lowerPickedRoute privateConstant [6] (fun _ => some 0) = some [0, 1, 3, 5, 6]) ∧
    (Built besideChain [(7, 0)] ∧
      lowerPickedRouteStreaming besideChain [3, 6] (fun _ => 0) = some [0, 4, 5, 6, 1, 3] ∧
      lowerPickedRoute besideChain [3, 6] (fun _ => some 0) = some [4, 5, 6, 0, 1, 3]) :=
  ⟨⟨privateConstant_built, by decide +kernel, by decide +kernel⟩,
    ⟨besideChain_built, by decide +kernel, by decide +kernel⟩⟩

end Fuel.IR
