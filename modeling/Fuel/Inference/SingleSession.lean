import Fuel.Inference.PagedForward

/-!
# The single-session loop

What a request generates when nobody else is there: feed the prompt, sample,
feed the last token, and stop at the first EOS id or after the budget. There is
no pool in it; the cache is the list of the cells of the tokens fed so far.
-/

namespace Fuel.Inference

open List

/-- What a session is admitted with. -/
structure Request (P : Type) where
  prompt : List UInt32
  strategy : SamplingStrategy
  params : Option P
  seed : UInt64
  eosIds : Option (List UInt32)
  maxNew : Nat

/-- The token ends the generation. -/
def Request.isEos {P : Type} (r : Request P) (token : UInt32) : Bool :=
  r.eosIds.any fun ids => ids.contains token

namespace PagedDecodeModel

variable {V L P : Type}

/-- The tokens fed one after the other: the cache, and the logits of the last one. -/
def feed (m : PagedDecodeModel V L P) (cache : List V) (logits : Option L) :
    List UInt32 → Except String (List V × Option L)
  | [] => .ok (cache, logits)
  | token :: rest =>
    match m.forward cache token with
    | .error msg => .error msg
    | .ok (v, logits) => m.feed (cache ++ [v]) (some logits) rest

/-- The tokens sampled from here on, at most `n` of them. -/
def sampleLoop (m : PagedDecodeModel V L P) (r : Request P) :
    Nat → List V → L → List UInt32 → UInt64 → List UInt32
  | 0, _, _, _, _ => []
  | n + 1, cache, logits, tokens, rng =>
    match m.sampleNext r.strategy r.params logits tokens rng with
    | (.error _, _) => []
    | (.ok next, rng) =>
      if r.isEos next then [next]
      else
        match m.forward cache next with
        | .error _ => [next]
        | .ok (v, logits) => next :: m.sampleLoop r n (cache ++ [v]) logits (tokens ++ [next]) rng

/-- What the single-session loop generates. -/
def generate (m : PagedDecodeModel V L P) (r : Request P) : List UInt32 :=
  match m.feed [] none r.prompt with
  | .ok (cache, some logits) => m.sampleLoop r r.maxNew cache logits r.prompt r.seed
  | _ => []

/-- What comes after `last`, which is not fed yet. -/
def resume (m : PagedDecodeModel V L P) (r : Request P) (n : Nat) (cache : List V)
    (last : UInt32) (tokens : List UInt32) (rng : UInt64) : List UInt32 :=
  match m.forward cache last with
  | .error _ => []
  | .ok (v, logits) => m.sampleLoop r n (cache ++ [v]) logits tokens rng

variable {m : PagedDecodeModel V L P} {tokens : List UInt32}

/-- A sampled token, and what comes after it. -/
theorem sampleLoop_token {r : Request P} {logits : L} {rng rng' : UInt64} {next : UInt32}
    (h : m.sampleNext r.strategy r.params logits tokens rng = (.ok next, rng')) (n : Nat)
    (cache : List V) : m.sampleLoop r (n + 1) cache logits tokens rng =
      next :: if r.isEos next then [] else m.resume r n cache next (tokens ++ [next]) rng' := by
  simp only [sampleLoop, h, resume]
  by_cases heos : r.isEos next = true
  · simp [heos]
  · simp only [heos, Bool.false_eq_true, if_false]
    cases m.forward cache next with
    | error msg => rfl
    | ok out => rfl

/-- Without budget there is nothing more. -/
theorem resume_zero (m : PagedDecodeModel V L P) (r : Request P) (cache : List V) (last : UInt32)
    (tokens : List UInt32) (rng : UInt64) : m.resume r 0 cache last tokens rng = [] := by
  unfold resume
  cases m.forward cache last with
  | error msg => rfl
  | ok out => rfl

theorem feed_append (m : PagedDecodeModel V L P) (cache : List V) (logits : Option L)
    (xs ys : List UInt32) : m.feed cache logits (xs ++ ys) =
      match m.feed cache logits xs with
      | .error msg => .error msg
      | .ok (cache, logits) => m.feed cache logits ys := by
  induction xs generalizing cache logits with
  | nil => rfl
  | cons x xs ih =>
    simp only [cons_append, feed]
    cases m.forward cache x with
    | error msg => rfl
    | ok out => exact ih _ _

/-- Feeding adds a cell per token. -/
theorem feed_eq_ok {cache cache' : List V} {logits logits' : Option L}
    (h : m.feed cache logits tokens = .ok (cache', logits')) :
    ∃ vs, cache' = cache ++ vs ∧ vs.length = tokens.length := by
  induction tokens generalizing cache logits with
  | nil =>
    cases h
    exact ⟨[], by simp, rfl⟩
  | cons t rest ih =>
    unfold feed at h
    cases hf : m.forward cache t with
    | error msg =>
      rw [hf] at h
      cases h
    | ok out =>
      rw [hf] at h
      obtain ⟨vs, rfl, hlen⟩ := ih h
      exact ⟨out.1 :: vs, by simp, by simp [hlen]⟩

/-- Once a token is fed, its logits are the ones that count. -/
theorem feed_eq_some {cache cache' : List V} {logits logits' : Option L} (hne : tokens ≠ [])
    (h : m.feed cache logits tokens = .ok (cache', logits')) : (∃ last, logits' = some last) ∧
      ∀ first, m.feed cache first tokens = .ok (cache', logits') := by
  cases tokens with
  | nil => exact absurd rfl hne
  | cons t rest =>
    refine ⟨?_, fun first => h⟩
    clear hne
    induction rest generalizing cache t logits with
    | nil =>
      unfold feed at h
      cases hf : m.forward cache t with
      | error msg =>
        rw [hf] at h
        cases h
      | ok out =>
        rw [hf] at h
        cases h
        exact ⟨out.2, rfl⟩
    | cons t' rest ih =>
      unfold feed at h
      cases hf : m.forward cache t with
      | error msg =>
        rw [hf] at h
        cases h
      | ok out =>
        rw [hf] at h
        exact ih t' h

/-- The cache of a session that was fed the tokens. -/
def Fed (m : PagedDecodeModel V L P) (tokens : List UInt32) (cache : List V) : Prop :=
  ∃ logits, m.feed [] none tokens = .ok (cache, logits)

namespace Fed

variable {m : PagedDecodeModel V L P} {tokens : List UInt32} {cache : List V}

theorem nil (m : PagedDecodeModel V L P) : m.Fed [] [] := ⟨none, rfl⟩

variable (h : m.Fed tokens cache)

include h

theorem length : cache.length = tokens.length := by
  obtain ⟨logits, h⟩ := h
  obtain ⟨vs, rfl, hlen⟩ := feed_eq_ok h
  simpa using hlen

theorem snoc {token : UInt32} {v : V} {logits : L} (hf : m.forward cache token = .ok (v, logits)) :
    m.Fed (tokens ++ [token]) (cache ++ [v]) := by
  obtain ⟨last, h⟩ := h
  refine ⟨some logits, ?_⟩
  rw [feed_append, h]
  simp only [feed, hf]

/-- What the first tokens wrote. -/
theorem take (n : Nat) : m.Fed (tokens.take n) (cache.take n) := by
  obtain ⟨last, h⟩ := h
  rw [← take_append_drop n tokens, feed_append] at h
  cases hfirst : m.feed [] none (tokens.take n) with
  | error msg =>
    rw [hfirst] at h
    cases h
  | ok out =>
    obtain ⟨first, logits⟩ := out
    rw [hfirst] at h
    have hlen := Fed.length ⟨logits, hfirst⟩
    obtain ⟨vs, rfl, hrest⟩ := feed_eq_ok h
    refine ⟨logits, ?_⟩
    have htake : (first ++ vs).take n = first := by
      rw [length_take] at hlen
      rw [length_drop] at hrest
      rcases Nat.le_total n tokens.length with hle | hle
      · rw [← show first.length = n by omega, take_left]
      · have : vs = [] := eq_nil_of_length_eq_zero (by omega)
        rw [this, append_nil, take_of_length_le (by omega)]
    rw [htake]
    exact hfirst

end Fed

end PagedDecodeModel

end Fuel.Inference
