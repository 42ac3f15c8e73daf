import Fuel.Lib.Machine
import Mathlib.Data.Nat.Find

/-!
# Drafting by n-gram lookup

`NgramDrafter` (`fuel-inference/src/ngram_draft.rs`) proposes as a draft what
followed the latest earlier occurrence of the longest suffix that has one. The
loops add the caller's limits to positions, so both builds are modelled: an
overflow aborts in one and wraps in the other.
-/

namespace Fuel.Inference

open Method List

structure NgramDrafter where
  maxNgram : Nat
  minNgram : Nat
  maxDraft : Nat
  deriving DecidableEq, Repr

/-- A token history: a slice of `u32`, which has at most `isize::MAX` bytes. -/
structure TokenHistory where
  tokens : List UInt32
  fits : 4 * tokens.length < 2 ^ 63

def TokenHistory.len (h : TokenHistory) : Nat := h.tokens.length

open TokenHistory

theorem TokenHistory.len_lt (h : TokenHistory) : h.len < 2 ^ 61 := by
  have := h.fits
  unfold len
  omega

namespace NgramDrafter

/-- `NgramDrafter::new`. -/
def new (maxNgram minNgram maxDraft : UInt64) : NgramDrafter where
  maxNgram := max maxNgram.toNat 1
  minNgram := min (max minNgram.toNat 1) (max maxNgram.toNat 1)
  maxDraft := max maxDraft.toNat 1

/-- The inner loop of `draft`, over the positions below a bound, latest first. -/
def searchFrom (build : Build) (d : NgramDrafter) (history suffix : List UInt32) (n : Nat) :
    Nat → Method Empty Unit (Option (List UInt32))
  | 0 => pure none
  | p + 1 => do
    let window ← slice history p (← addUsizeIn build p n)
    if window = suffix then do
      let start ← addUsizeIn build p n
      let stop := min (← addUsizeIn build start d.maxDraft) history.length
      if start < stop then do
        pure (some (← slice history start stop))
      else searchFrom build d history suffix n p
    else searchFrom build d history suffix n p

/-- The body of the outer loop of `draft`. -/
def tryLength (build : Build) (d : NgramDrafter) (history : List UInt32) (n : Nat) :
    Method Empty Unit (Option (List UInt32)) := do
  if history.length < (← addUsizeIn build n 1) then pure none
  else do
    let suffix ← slice history (← subUsizeIn build history.length n) history.length
    searchFrom build d history suffix n (← subUsizeIn build history.length n)

/-- The outer loop of `draft`, from the suffix length `min_ngram + i` down. -/
def draftFrom (build : Build) (d : NgramDrafter) (history : List UInt32) :
    Nat → Method Empty Unit (List UInt32)
  | 0 => do
    match ← tryLength build d history d.minNgram with
    | some draft => pure draft
    | none => pure []
  | i + 1 => do
    match ← tryLength build d history (d.minNgram + (i + 1)) with
    | some draft => pure draft
    | none => draftFrom build d history i

/-- `draft`. -/
def draft (build : Build) (d : NgramDrafter) (h : TokenHistory) : Method Empty Unit (List UInt32) :=
  draftFrom build d h.tokens (d.maxNgram - d.minNgram)

/-! ## The specification -/

/-- The last `n` tokens also occur at the earlier position `p`. -/
def Occurs (h : TokenHistory) (n p : Nat) : Prop :=
  p + n < h.len ∧ (h.tokens.drop p).take n = h.tokens.drop (h.len - n)

/-- `n` is the longest suffix length in range that occurs earlier, `p` the latest occurrence. -/
structure BestMatch (d : NgramDrafter) (h : TokenHistory) (n p : Nat) : Prop where
  min_le : d.minNgram ≤ n
  le_max : n ≤ d.maxNgram
  occurs : Occurs h n p
  longest : ∀ n' p', n < n' → n' ≤ d.maxNgram → ¬ Occurs h n' p'
  latest : ∀ p', p < p' → ¬ Occurs h n p'

/-- The tokens that followed an occurrence, as many as are drafted. -/
def continuation (d : NgramDrafter) (h : TokenHistory) (n p : Nat) : List UInt32 :=
  (h.tokens.drop (p + n)).take (min d.maxDraft (h.len - (p + n)))

/-- The draft that the specification asks for. -/
structure DraftMeets (d : NgramDrafter) (h : TokenHistory) (draft : List UInt32) : Prop where
  found : ∀ n p, BestMatch d h n p → draft = continuation d h n p ∧ draft ≠ []
  absent : (∀ n p, d.minNgram ≤ n → n ≤ d.maxNgram → ¬ Occurs h n p) → draft = []

/-! ## One suffix length -/

/-- The end of the draft after an occurrence is a machine word. -/
def Reaches (d : NgramDrafter) (n p : Nat) : Prop := p + n + d.maxDraft < 2 ^ 64

/-- An occurrence that a build passes over: where the end wraps, it lies before the start. -/
def Passed (build : Build) (d : NgramDrafter) (n p : Nat) : Prop :=
  build = .release ∧ ¬ Reaches d n p

/-- How the search below position `k` ends. -/
inductive Searched (build : Build) (d : NgramDrafter) (h : TokenHistory) (n k : Nat) :
    Outcome Empty Unit (Option (List UInt32)) → Prop
  | absent : (∀ p < k, Occurs h n p → Passed build d n p) → Searched build d h n k (.ok none ())
  | found {p : Nat} : p < k → Occurs h n p → Reaches d n p →
      (∀ p', p < p' → p' < k → Occurs h n p' → Passed build d n p') →
      Searched build d h n k (.ok (some (continuation d h n p)) ())
  | aborted {p : Nat} : p < k → build = .debug → Occurs h n p → ¬ Reaches d n p →
      (∀ p', p < p' → p' < k → ¬ Occurs h n p') → Searched build d h n k (.abort .addOverflow)

variable {build : Build} {d : NgramDrafter} {h : TokenHistory} {n k : Nat}

variable {o : Outcome Empty Unit (Option (List UInt32))} {p i n : Nat}

/-- One more position, which is passed over. -/
theorem Searched.extend (hs : Searched build d h n k o) (hk : Occurs h n k → Passed build d n k) :
    Searched build d h n (k + 1) o := by
  cases hs with
  | absent hnone =>
    refine .absent fun p hp hocc => ?_
    rcases Nat.lt_succ_iff_lt_or_eq.mp hp with hp | rfl
    · exact hnone p hp hocc
    · exact hk hocc
  | found hp hocc hreach hlater =>
    refine .found (Nat.lt_succ_of_lt hp) hocc hreach fun p' hpp' hp' hocc' => ?_
    rcases Nat.lt_succ_iff_lt_or_eq.mp hp' with hp' | rfl
    · exact hlater p' hpp' hp' hocc'
    · exact hk hocc'
  | aborted hp hbuild hocc hreach hlater =>
    refine .aborted (Nat.lt_succ_of_lt hp) hbuild hocc hreach fun p' hpp' hp' hocc' => ?_
    rcases Nat.lt_succ_iff_lt_or_eq.mp hp' with hp' | rfl
    · exact hlater p' hpp' hp' hocc'
    · rw [hbuild] at hk
      cases (hk hocc').1

theorem slice_eq {α : Type} {v : List α} {a b : Nat} (hab : a ≤ b) (hb : b ≤ v.length) :
    (slice v a b : Method Empty Unit (List α)) = pure ((v.drop a).take (b - a)) :=
  if_pos ⟨hab, hb⟩

theorem searchFrom_spec (hdraft : 1 ≤ d.maxDraft ∧ d.maxDraft < 2 ^ 64) (hk : k + n ≤ h.len) :
    Searched build d h n k
      (searchFrom build d h.tokens (h.tokens.drop (h.len - n)) n k ()) := by
  have hlen := h.len_lt
  induction k with
  | zero => exact .absent fun p hp => absurd hp (Nat.not_lt_zero p)
  | succ p ih =>
    have hadd : (addUsizeIn build p n : Method Empty Unit Nat) = pure (p + n) :=
      addUsizeIn_of_lt (by omega)
    unfold searchFrom
    rw [hadd, pure_bind, slice_eq (Nat.le_add_right p n) (by unfold len at hk; omega),
      pure_bind, Nat.add_sub_cancel_left]
    split
    · rename_i hwindow
      have hocc : Occurs h n p := ⟨by omega, hwindow⟩
      rw [pure_bind]
      by_cases hreach : Reaches d n p
      · -- the draft is not empty: at least one token follows
        rw [addUsizeIn_of_lt hreach, pure_bind]
        have hstart : p + n < min (p + n + d.maxDraft) h.tokens.length := by
          unfold len at hk
          omega
        rw [if_pos hstart, slice_eq (Nat.le_of_lt hstart) (Nat.min_le_right _ _), pure_bind]
        have hcont : (h.tokens.drop (p + n)).take
            (min (p + n + d.maxDraft) h.tokens.length - (p + n)) = continuation d h n p := by
          have hnum : min (p + n + d.maxDraft) h.tokens.length - (p + n) =
              min d.maxDraft (h.len - (p + n)) := by
            unfold len
            omega
          rw [hnum, continuation]
        rw [hcont]
        exact .found (Nat.lt_succ_self p) hocc hreach fun p' hpp' hp' => absurd hp' (by omega)
      · cases hbuild : build with
        | debug =>
          have hover : (addUsizeIn .debug (p + n) d.maxDraft : Method Empty Unit Nat) =
              abort .addOverflow := by
            unfold Reaches at hreach
            exact addUsizeIn_overflow (by omega)
          rw [hover]
          exact .aborted (Nat.lt_succ_self p) rfl hocc hreach fun p' hpp' hp' => absurd hp' (by omega)
        | release =>
          -- the end wraps to before the start
          have hover : (addUsizeIn .release (p + n) d.maxDraft : Method Empty Unit Nat) =
              pure (p + n + d.maxDraft - 2 ^ 64) := by
            unfold Reaches at hreach
            have hmod : (((p + n + d.maxDraft : Nat) : Int) % 2 ^ 64).toNat =
                p + n + d.maxDraft - 2 ^ 64 := by omega
            unfold addUsizeIn usizeResult
            rw [if_neg (by omega), hmod]
          subst hbuild
          rw [hover, pure_bind, if_neg (by omega)]
          exact (ih (by omega)).extend fun _ => ⟨rfl, hreach⟩
    · rename_i hwindow
      exact (ih (by omega)).extend fun hocc => absurd hocc.2 hwindow

theorem tryLength_spec (hdraft : 1 ≤ d.maxDraft ∧ d.maxDraft < 2 ^ 64) (hn : n + 1 < 2 ^ 64) :
    Searched build d h n (h.len - n) (tryLength build d h.tokens n ()) := by
  have hlen := h.len_lt
  unfold tryLength
  rw [addUsizeIn_of_lt hn, pure_bind]
  split
  · rename_i hshort
    have hshort : h.len < n + 1 := hshort
    exact .absent fun p hp => absurd hp (by omega)
  rename_i hlong
  have hlong : n < h.len := Nat.lt_of_succ_le (Nat.le_of_not_lt hlong)
  have hsub : (subUsizeIn build h.tokens.length n : Method Empty Unit Nat) = pure (h.len - n) :=
    subUsizeIn_of_le (Nat.le_of_lt hlong) (by unfold len at hlen; omega)
  have hsuffix : (h.tokens.drop (h.len - n)).take (h.tokens.length - (h.len - n)) =
      h.tokens.drop (h.len - n) := by
    rw [← length_drop, take_length]
  have hle : h.len - n ≤ h.tokens.length := Nat.sub_le _ _
  rw [hsub, pure_bind, slice_eq hle (Nat.le_refl _), pure_bind, pure_bind, hsuffix]
  exact searchFrom_spec hdraft (by omega)

/-! ## All suffix lengths -/

/-- How the outer loop ends, from the suffix length `min_ngram + i` down. -/
inductive Drafted (build : Build) (d : NgramDrafter) (h : TokenHistory) (i : Nat) :
    Outcome Empty Unit (List UInt32) → Prop
  | absent : (∀ n p, d.minNgram ≤ n → n ≤ d.minNgram + i → Occurs h n p → Passed build d n p) →
      Drafted build d h i (.ok [] ())
  | found {n p : Nat} : d.minNgram ≤ n → n ≤ d.minNgram + i → Occurs h n p → Reaches d n p →
      (∀ n' p', n < n' → n' ≤ d.minNgram + i → Occurs h n' p' → Passed build d n' p') →
      (∀ p', p < p' → Occurs h n p' → Passed build d n p') →
      Drafted build d h i (.ok (continuation d h n p) ())
  | aborted {n p : Nat} : d.minNgram ≤ n → n ≤ d.minNgram + i → build = .debug → Occurs h n p →
      ¬ Reaches d n p → (∀ n' p', n < n' → n' ≤ d.minNgram + i → ¬ Occurs h n' p') →
      (∀ p', p < p' → ¬ Occurs h n p') → Drafted build d h i (.abort .addOverflow)

/-- An occurrence is below the position of the suffix itself. -/
theorem Occurs.lt (h : Occurs h n p) : p < len ‹_› - n :=
  Nat.lt_sub_of_add_lt h.1

/-- A search at the longest length that ended the loop. -/
theorem Searched.drafted {rest : Method Empty Unit (List UInt32)}
    (hs : Searched build d h (d.minNgram + i) (h.len - (d.minNgram + i)) o)
    (hrest : (∀ p, Occurs h (d.minNgram + i) p → Passed build d (d.minNgram + i) p) →
      Drafted build d h i (rest ())) : Drafted build d h i (o.andThen fun r t =>
      (match r with | some draft => pure draft | none => rest : Method Empty Unit (List UInt32)) t)
    := by
  cases hs with
  | absent hnone => exact hrest fun p hocc => hnone p hocc.lt hocc
  | found hp hocc hreach hlater =>
    refine .found (Nat.le_add_right _ _) (Nat.le_refl _) hocc hreach ?_ ?_
    · intro n' p' hn' hmax
      omega
    · intro p' hp' hocc'
      exact hlater p' hp' hocc'.lt hocc'
  | aborted hp hbuild hocc hreach hlater =>
    refine .aborted (Nat.le_add_right _ _) (Nat.le_refl _) hbuild hocc hreach ?_ ?_
    · intro n' p' hn' hmax
      omega
    · intro p' hp' hocc'
      exact hlater p' hp' hocc'.lt hocc'

/-- One longer length, which is passed over. -/
theorem Drafted.extend {o : Outcome Empty Unit (List UInt32)} (hdr : Drafted build d h i o)
    (hnone : ∀ p, Occurs h (d.minNgram + (i + 1)) p → Passed build d (d.minNgram + (i + 1)) p) :
    Drafted build d h (i + 1) o := by
  have hthis : ∀ n' p', n' = d.minNgram + (i + 1) → Occurs h n' p' → Passed build d n' p' := by
    rintro n' p' rfl hocc
    exact hnone p' hocc
  cases hdr with
  | absent hrest =>
    refine .absent fun n p hmin hmax hocc => ?_
    rcases Nat.lt_or_eq_of_le hmax with hlt | heq
    · exact hrest n p hmin (by omega) hocc
    · exact hthis n p heq hocc
  | found hmin hmax hocc hreach hlonger hlater =>
    refine .found hmin (by omega) hocc hreach ?_ hlater
    intro n' p' hn' hmax' hocc'
    rcases Nat.lt_or_eq_of_le hmax' with hlt | heq
    · exact hlonger n' p' hn' (by omega) hocc'
    · exact hthis n' p' heq hocc'
  | aborted hmin hmax hbuild hocc hreach hlonger hlater =>
    refine .aborted hmin (by omega) hbuild hocc hreach ?_ hlater
    intro n' p' hn' hmax' hocc'
    rcases Nat.lt_or_eq_of_le hmax' with hlt | heq
    · exact hlonger n' p' hn' (by omega) hocc'
    · have hpassed := hthis n' p' heq hocc'
      rw [hbuild] at hpassed
      cases hpassed.1

theorem draftFrom_spec (hdraft : 1 ≤ d.maxDraft ∧ d.maxDraft < 2 ^ 64)
    (hi : d.minNgram + i + 1 < 2 ^ 64) : Drafted build d h i (draftFrom build d h.tokens i ()) := by
  have hs : Searched build d h (d.minNgram + i) (h.len - (d.minNgram + i))
      (tryLength build d h.tokens (d.minNgram + i) ()) := tryLength_spec hdraft hi
  induction i with
  | zero =>
    unfold draftFrom
    rw [bind_run]
    refine hs.drafted fun hnone => .absent fun n p hmin hmax hocc => ?_
    obtain rfl : n = d.minNgram + 0 := by omega
    exact hnone p hocc
  | succ i ih =>
    have hlt : d.minNgram + i + 1 < 2 ^ 64 := by omega
    unfold draftFrom
    rw [bind_run]
    exact hs.drafted fun hnone => (ih hlt (tryLength_spec hdraft hlt)).extend hnone

/-! ## The draft -/

theorem new_bounds (a b c : UInt64) : 1 ≤ (new a b c).minNgram ∧
    (new a b c).minNgram ≤ (new a b c).maxNgram ∧ (new a b c).maxNgram < 2 ^ 64 ∧
    1 ≤ (new a b c).maxDraft ∧ (new a b c).maxDraft < 2 ^ 64 := by
  have ha := a.toNat_lt
  have hb := b.toNat_lt
  have hc := c.toNat_lt
  unfold new
  simp only
  omega

/-- Where a suffix length in range occurs, there is a longest one and a latest place. -/
theorem exists_bestMatch (hmin : d.minNgram ≤ n) (hmax : n ≤ d.maxNgram) (hocc : Occurs h n p) :
    ∃ n p, BestMatch d h n p := by
  classical
  -- the longest length first, then the latest position
  have hlong := Nat.findGreatest_spec (P := fun m => ∃ q, Occurs h m q) hmax ⟨p, hocc⟩
  have hle := Nat.le_findGreatest (P := fun m => ∃ q, Occurs h m q) hmax ⟨p, hocc⟩
  have hgt := fun m => Nat.findGreatest_is_greatest (P := fun m => ∃ q, Occurs h m q)
    (n := d.maxNgram) (k := m)
  have hbound := Nat.findGreatest_le (P := fun m => ∃ q, Occurs h m q) d.maxNgram
  generalize Nat.findGreatest (fun m => ∃ q, Occurs h m q) d.maxNgram = m at hlong hle hgt hbound
  obtain ⟨q, hq⟩ := hlong
  have hlt : ∀ q, Occurs h m q → q ≤ h.len := fun q hq => by have := hq.1; omega
  have hlate := Nat.findGreatest_spec (P := Occurs h m) (hlt q hq) hq
  have hlater := fun q => Nat.findGreatest_is_greatest (P := Occurs h m) (n := h.len) (k := q)
  refine ⟨m, Nat.findGreatest (Occurs h m) h.len, Nat.le_trans hmin hle, hbound, hlate, ?_, ?_⟩
  · intro n' p' hn' hmax' hocc'
    exact hgt n' hn' hmax' ⟨p', hocc'⟩
  · intro p' hp' hocc'
    exact hlater p' hp' (hlt p' hocc') hocc'

theorem continuation_ne_nil (hdraft : 1 ≤ d.maxDraft) (hocc : Occurs h n p) :
    continuation d h n p ≠ [] := by
  intro hnil
  have hlen := congrArg List.length hnil
  have hlt := hocc.1
  unfold continuation len at hlen
  unfold len at hlt
  rw [length_take, length_drop, length_nil] at hlen
  omega

/-- The largest word as a suffix length: adding one overflows, and a release build then slices past
the history. -/
theorem tryLength_aborts (hn : n + 1 = 2 ^ 64) :
    ∃ why, tryLength build d h.tokens n () = .abort why := by
  have hlen := h.len_lt
  unfold len at hlen
  unfold tryLength
  cases build with
  | debug =>
    have hover : (addUsizeIn .debug n 1 : Method Empty Unit Nat) = abort .addOverflow :=
      addUsizeIn_overflow (by omega)
    rw [hover]
    exact ⟨.addOverflow, rfl⟩
  | release =>
    have hadd : (addUsizeIn .release n 1 : Method Empty Unit Nat) = pure 0 := by
      have hmod : (((n + 1 : Nat) : Int) % 2 ^ 64).toNat = 0 := by omega
      unfold addUsizeIn usizeResult
      rw [if_neg (by omega), hmod]
    have hsub : (subUsizeIn .release h.tokens.length n : Method Empty Unit Nat) =
        pure (h.tokens.length + 1) := by
      have hmod : (((h.tokens.length : Int) - n) % 2 ^ 64).toNat = h.tokens.length + 1 := by omega
      unfold subUsizeIn usizeResult
      rw [if_neg (by omega), hmod]
    have hslice : (slice h.tokens (h.tokens.length + 1) h.tokens.length :
        Method Empty Unit (List UInt32)) = abort .indexOutOfBounds := if_neg (by omega)
    rw [hadd, pure_bind, if_neg (Nat.not_lt_zero _), hsub, pure_bind, hslice]
    exact ⟨.indexOutOfBounds, rfl⟩

theorem draft_aborts (hmin : d.minNgram ≤ d.maxNgram) (hmax : d.maxNgram + 1 = 2 ^ 64) :
    ∃ why, d.draft build h () = .abort why := by
  have hn : d.minNgram + (d.maxNgram - d.minNgram) + 1 = 2 ^ 64 := by omega
  obtain ⟨why, habort⟩ : ∃ why, tryLength build d h.tokens (d.minNgram + (d.maxNgram - d.minNgram)) ()
      = .abort why := tryLength_aborts hn
  refine ⟨why, ?_⟩
  unfold draft
  generalize d.maxNgram - d.minNgram = i at habort
  cases i with
  | zero =>
    unfold draftFrom
    rw [bind_run, show tryLength build d h.tokens d.minNgram () = .abort why from habort]
    rfl
  | succ i =>
    unfold draftFrom
    rw [bind_run, habort]
    rfl

theorem length_continuation : (continuation d h n p).length = min d.maxDraft (h.len - (p + n)) := by
  unfold continuation len
  rw [length_take, length_drop]
  omega

/-- **The draft is what the specification asks for** where the limits stay within the word, and
only there. -/
theorem draft_meets_iff (a b c : UInt64) (h : TokenHistory) (build : Build) :
    (∃ r, (new a b c).draft build h () = .ok r () ∧ DraftMeets (new a b c) h r) ↔
      (new a b c).maxNgram + 1 < 2 ^ 64 ∧
        ∀ n p, BestMatch (new a b c) h n p → Reaches (new a b c) n p := by
  obtain ⟨hmin1, hminmax, hmax, hdraft⟩ := new_bounds a b c
  generalize new a b c = d at *
  have hlen := h.len_lt
  by_cases hword : d.maxNgram + 1 = 2 ^ 64
  · obtain ⟨why, habort⟩ : ∃ why, d.draft build h () = .abort why := draft_aborts hminmax hword
    refine iff_of_false ?_ (by omega)
    rintro ⟨r, hr, -⟩
    rw [habort] at hr
    cases hr
  have hle : ∀ m, m ≤ d.maxNgram → m ≤ d.minNgram + (d.maxNgram - d.minNgram) := by omega
  have hge : ∀ m, m ≤ d.minNgram + (d.maxNgram - d.minNgram) → m ≤ d.maxNgram := by omega
  have hspec : Drafted build d h (d.maxNgram - d.minNgram) (d.draft build h ()) :=
    draftFrom_spec hdraft (by omega)
  generalize d.draft build h () = o at hspec
  constructor
  · rintro ⟨r, rfl, hmeets⟩
    refine ⟨by omega, fun n p hbest => ?_⟩
    by_contra hreach
    obtain ⟨hr, hne⟩ := hmeets.found n p hbest
    generalize hro : (Outcome.ok r () : Outcome Empty Unit (List UInt32)) = o at hspec
    cases hspec with
    | absent _ =>
      cases hro
      exact hne rfl
    | @found n' p' _ _ hocc' hreach' _ _ =>
      -- a draft that starts earlier is longer
      cases hro
      have hsame := congrArg List.length hr
      rw [length_continuation, length_continuation] at hsame
      have hlt := hocc'.1
      have hlt' := hbest.occurs.1
      unfold Reaches at hreach hreach'
      omega
    | aborted _ _ _ _ _ _ _ => cases hro
  · rintro ⟨-, hreach⟩
    cases hspec with
    | absent hnone =>
      have habsent : ∀ n p, d.minNgram ≤ n → n ≤ d.maxNgram → ¬ Occurs h n p := by
        intro n p hn hn' hocc
        obtain ⟨m, q, hbest⟩ := exists_bestMatch hn hn' hocc
        have hpassed := hnone m q hbest.min_le (hle m hbest.le_max) hbest.occurs
        exact hpassed.2 (hreach m q hbest)
      refine ⟨[], rfl, ?_, fun _ => rfl⟩
      intro n p hbest
      exact absurd hbest.occurs (habsent n p hbest.min_le hbest.le_max)
    | @found n p hn hn' hocc hr hlonger hlater =>
      -- the best match reaches, so it was not passed over: it is this one
      have hbest : ∀ m q, BestMatch d h m q → m = n ∧ q = p := by
        intro m q hb
        have hm : m = n := by
          rcases Nat.lt_trichotomy m n with hlt | heq | hgt
          · exact absurd hocc (hb.longest n p hlt (hge n hn'))
          · exact heq
          · exact absurd (hreach m q hb) (hlonger m q hgt (hle m hb.le_max) hb.occurs).2
        subst hm
        refine ⟨rfl, ?_⟩
        rcases Nat.lt_trichotomy q p with hlt | heq | hgt
        · exact absurd hocc (hb.latest p hlt)
        · exact heq
        · exact absurd (hreach m q hb) (hlater q hgt hb.occurs).2
      refine ⟨_, rfl, ?_, ?_⟩
      · intro m q hb
        obtain ⟨rfl, rfl⟩ := hbest m q hb
        exact ⟨rfl, continuation_ne_nil hdraft.1 hocc⟩
      · intro habsent
        exact absurd hocc (habsent n p hn (hge n hn'))
    | @aborted n p hn hn' _ hocc hr hlonger hlater =>
      exact absurd (hreach n p ⟨hn, hge n hn', hocc, fun n' p' hlt hn' => hlonger n' p' hlt (hle n' hn'),
        hlater⟩) hr

/-- A suffix length of the largest word aborts on every history; an unlimited draft of the history
`3 3` aborts in a debug build and is empty in a release build, where `[3]` is asked for. -/
theorem draft_overflows :
    (∀ build, ∃ why, (new 0xFFFFFFFFFFFFFFFF 1 1).draft build ⟨[], by decide⟩ () = .abort why) ∧
    (new 1 1 0xFFFFFFFFFFFFFFFF).draft .debug ⟨[3, 3], by decide⟩ () = .abort .addOverflow ∧
    (new 1 1 0xFFFFFFFFFFFFFFFF).draft .release ⟨[3, 3], by decide⟩ () = .ok [] () ∧
    BestMatch (new 1 1 0xFFFFFFFFFFFFFFFF) ⟨[3, 3], by decide⟩ 1 0 := by
  refine ⟨fun build => draft_aborts (by decide) (by decide), by decide, by decide, ?_⟩
  refine ⟨by decide, by decide, ⟨by decide, by decide⟩, ?_, ?_⟩
  · intro n' p' hlt hle
    have : (new 1 1 0xFFFFFFFFFFFFFFFF).maxNgram = 1 := by decide
    omega
  · intro p' hp' hocc
    have := hocc.1
    simp only [len, length_cons, length_nil] at this
    omega

end NgramDrafter

end Fuel.Inference
