import Fuel.Lib.Method

/-!
# Decode sessions

What the session schedulers of `fuel-inference/src/multi_session.rs` share: a
session's token history, its budget and its phase, and the sampling of one
token. The model's forward passes and the sampler are parameters; a session
only stores what they return.
-/

namespace Fuel.Inference

inductive SessionPhase where
  | prefill
  | decode
  | finished
  deriving DecidableEq, Repr

/-- `SamplingStrategy`; the temperature is its bit pattern. -/
inductive SamplingStrategy where
  | greedy
  | temperature (temp : UInt32) (seed : UInt64)
  deriving DecidableEq, Repr

/-- The RNG state a session starts from. -/
def SamplingStrategy.seed : SamplingStrategy → UInt64
  | .greedy => 0
  | .temperature _ seed => seed

/-- `SessionId`. -/
abbrev SessionId := Nat

/-- `StepReport`. -/
structure StepReport where
  advanced : List SessionId := []
  finished : List SessionId := []
  errored : List (SessionId × String) := []
  usedBatchedArm : Bool := false
  deriving DecidableEq, Repr

/-- What a further part of the step reported. -/
def StepReport.append (r r' : StepReport) : StepReport :=
  { advanced := r.advanced ++ r'.advanced
    finished := r.finished ++ r'.finished
    errored := r.errored ++ r'.errored
    usedBatchedArm := r.usedBatchedArm || r'.usedBatchedArm }

/-- The fields every kind of session has. `L` is the logits of one step, `P` the full
sampling controls. -/
structure SessionCore (L P : Type) where
  id : SessionId
  tokens : List UInt32
  newTokens : List UInt32
  rngState : UInt64
  strategy : SamplingStrategy
  params : Option P
  eosIds : Option (List UInt32)
  remaining : Nat
  phase : SessionPhase
  lastLogits : Option L

/-- `sample_next`, with the RNG state it leaves. -/
abbrev Sampler (L P : Type) : Type :=
  SamplingStrategy → Option P → L → List UInt32 → UInt64 → Except String UInt32 × UInt64

/-- `normalize_eos_ids`. -/
def normalizeEosIds (eosIds : Option (List UInt32)) : Option (List UInt32) :=
  eosIds.filter fun ids => !ids.isEmpty

namespace SessionCore

variable {L P : Type}

/-- A session as it is admitted. -/
def admitted (id : SessionId) (prompt : List UInt32) (strategy : SamplingStrategy)
    (eosIds : Option (List UInt32)) (maxNew : Nat) : SessionCore L P where
  id := id
  tokens := prompt
  newTokens := []
  rngState := strategy.seed
  strategy := strategy
  params := none
  eosIds := normalizeEosIds eosIds
  remaining := maxNew
  phase := .prefill
  lastLogits := none

/-- The sampled token is one of the EOS ids, or the budget is used up. -/
def stops (s : SessionCore L P) (next : UInt32) (remaining : Nat) : Bool :=
  (s.eosIds.any fun ids => ids.contains next) || remaining == 0

/-- The session with one more token. -/
def push (s : SessionCore L P) (next : UInt32) : SessionCore L P :=
  { s with
    tokens := s.tokens ++ [next]
    newTokens := s.newTokens ++ [next]
    remaining := s.remaining - 1
    phase := if s.stops next (s.remaining - 1) then .finished else .decode }

/-- `sample_and_append`. -/
def sampleAndAppend (sampleNext : Sampler L P) (s : SessionCore L P) :
    Except String (Option UInt32) × SessionCore L P :=
  if s.phase = .finished then (.ok none, s)
  else
    match s.lastLogits with
    | none => (.ok none, s)
    | some logits =>
      match sampleNext s.strategy s.params logits s.tokens s.rngState with
      | (.ok next, rng) =>
        (.ok (some next), push { s with lastLogits := none, rngState := rng } next)
      | (.error msg, rng) => (.error msg, { s with lastLogits := none, rngState := rng })

/-- `record_error_msg`: finished, with the error in the report. -/
def finishError (msg : String) (s : SessionCore L P) : SessionCore L P × StepReport :=
  ({ s with phase := .finished }, { errored := [(s.id, msg)], finished := [s.id] })

/-- `finalize_advance`: one sampled token, reported; an error finishes the session. -/
def finalizeAdvance (sampleNext : Sampler L P) (advance : Except String Unit)
    (s : SessionCore L P) : SessionCore L P × StepReport :=
  match advance with
  | .error msg => s.finishError msg
  | .ok () =>
    match s.sampleAndAppend sampleNext with
    | (.ok (some _), s) =>
      (s, { advanced := [s.id], finished := if s.phase = .finished then [s.id] else [] })
    | (.ok none, s) => (s, {})
    | (.error msg, s) => s.finishError msg

/-! ## What sampling does -/

theorem push_phase (s : SessionCore L P) (next : UInt32) :
    (s.stops next (s.remaining - 1) = true ∧ (s.push next).phase = .finished) ∨
      (s.stops next (s.remaining - 1) = false ∧ (s.push next).phase = .decode) := by
  unfold push
  cases hstop : s.stops next (s.remaining - 1) with
  | true => exact .inl ⟨rfl, rfl⟩
  | false => exact .inr ⟨rfl, rfl⟩

/-- A session that goes on has budget left. -/
theorem remaining_of_not_stops {s : SessionCore L P} {next : UInt32} {n : Nat}
    (h : s.stops next n = false) : 0 < n := by
  simp only [stops, Bool.or_eq_false_iff, beq_eq_false_iff_ne] at h
  omega

/-- The outcome of sampling a session: nothing to sample, one more token, or an error. -/
inductive Sampled (sampleNext : Sampler L P) (s : SessionCore L P) :
    SessionCore L P × StepReport → Prop
  | idle : s.phase = .finished ∨ s.lastLogits = none → Sampled sampleNext s (s, {})
  | token (logits : L) (next : UInt32) (rng : UInt64) : s.phase ≠ .finished →
      s.lastLogits = some logits →
      sampleNext s.strategy s.params logits s.tokens s.rngState = (.ok next, rng) →
      Sampled sampleNext s
        (push { s with lastLogits := none, rngState := rng } next,
          { advanced := [s.id]
            finished := if s.stops next (s.remaining - 1) then [s.id] else [] })
  | failed (logits : L) (msg : String) (rng : UInt64) : s.phase ≠ .finished →
      s.lastLogits = some logits →
      sampleNext s.strategy s.params logits s.tokens s.rngState = (.error msg, rng) →
      Sampled sampleNext s ({ s with lastLogits := none, rngState := rng }.finishError msg)

theorem Sampled.id_eq {sampleNext : Sampler L P} {s : SessionCore L P}
    {out : SessionCore L P × StepReport} (h : Sampled sampleNext s out) : out.1.id = s.id := by
  cases h <;> rfl

theorem finalizeAdvance_ok (sampleNext : Sampler L P) (s : SessionCore L P) :
    Sampled sampleNext s (s.finalizeAdvance sampleNext (.ok ())) := by
  by_cases hf : s.phase = .finished
  · have hrun : s.finalizeAdvance sampleNext (.ok ()) = (s, {}) := by
      simp [finalizeAdvance, sampleAndAppend, hf]
    rw [hrun]
    exact .idle (.inl hf)
  cases hl : s.lastLogits with
  | none =>
    have hrun : s.finalizeAdvance sampleNext (.ok ()) = (s, {}) := by
      simp [finalizeAdvance, sampleAndAppend, hf, hl]
    rw [hrun]
    exact .idle (.inr hl)
  | some logits =>
    rcases hr : sampleNext s.strategy s.params logits s.tokens s.rngState with ⟨r, rng⟩
    cases r with
    | ok next =>
      have hrun : s.finalizeAdvance sampleNext (.ok ()) =
          (push { s with lastLogits := none, rngState := rng } next,
            { advanced := [s.id]
              finished := if s.stops next (s.remaining - 1) then [s.id] else [] }) := by
        simp only [finalizeAdvance, sampleAndAppend, hf, hl, hr, if_false, push, stops]
        by_cases hstop : ((s.eosIds.any fun ids => ids.contains next) ||
            s.remaining - 1 == 0) = true
        · simp only [hstop, if_true]
        · simp only [hstop, if_false, reduceCtorEq]
      rw [hrun]
      exact .token logits next rng hf hl hr
    | error msg =>
      have hrun : s.finalizeAdvance sampleNext (.ok ()) =
          { s with lastLogits := none, rngState := rng }.finishError msg := by
        simp [finalizeAdvance, sampleAndAppend, hf, hl, hr]
      rw [hrun]
      exact .failed logits msg rng hf hl hr

end SessionCore

end Fuel.Inference
