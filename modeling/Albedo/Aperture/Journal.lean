import Mathlib.Data.List.Basic

/-!
# The journal of a workflow

An append-only log of what a handler body asked of the outside world. The position of a
step is the idempotency key of the request it records, so a step is only ever appended at
the end, and an answer that was given is never changed.
-/
namespace Albedo.Aperture

def defaultStepCap : ℕ := 64

inductive StepKind where
  | fetch
  deriving DecidableEq

inductive StepOutcome (Value : Type) where
  | completed (value : Value)
  | failed (message : String)
  | unknown
  deriving DecidableEq

structure Step (Value : Type) where
  index : ℕ
  kind : StepKind
  requestDigest : String
  outcome : StepOutcome Value
  deriving DecidableEq

inductive JournalError where
  | outOfOrder (expected got : ℕ)
  | stepCap (cap : ℕ)
  | alreadySettled (index : ℕ)
  | diverged (index : ℕ) (recorded replayed : String)

structure Journal (Value : Type) where
  workflowId : String
  buildId : String
  steps : List (Step Value)
  stepCap : ℕ

variable {Value : Type}

def Journal.new (workflowId buildId : String) : Journal Value :=
  ⟨workflowId, buildId, [], defaultStepCap⟩

def StepOutcome.isUnknown : StepOutcome Value → Bool
  | .unknown => true
  | _ => false

def Journal.append (journal : Journal Value) (index : ℕ) (kind : StepKind) (requestDigest : String)
    (outcome : StepOutcome Value) : Except JournalError (Journal Value) :=
  if index ≠ journal.steps.length then .error (.outOfOrder journal.steps.length index)
  else if journal.stepCap ≤ journal.steps.length then .error (.stepCap journal.stepCap)
  else .ok { journal with steps := journal.steps ++ [⟨index, kind, requestDigest, outcome⟩] }

def Journal.settle (journal : Journal Value) (index : ℕ) (requestDigest : String)
    (outcome : StepOutcome Value) : Except JournalError (Journal Value) :=
  match journal.steps[index]? with
  | none => .error (.outOfOrder journal.steps.length index)
  | some step =>
      if step.requestDigest ≠ requestDigest then
        .error (.diverged index step.requestDigest requestDigest)
      else if step.outcome.isUnknown = false then .error (.alreadySettled index)
      else .ok { journal with steps := journal.steps.set index { step with outcome } }

def Journal.holds (journal : Journal Value) (index : ℕ) : Bool := index < journal.steps.length

def Journal.idempotencyKey (journal : Journal Value) (index : ℕ) : String :=
  journal.workflowId ++ ":" ++ toString index

/-- An answer as the handler reads it: the digest it was recorded for, and the response or
the text of the error to throw. -/
structure Recorded (Value : Type) where
  digest : String
  answer : Except String Value

/-- What the handler reads at a step. A step without an answer is a miss, and keeps its
slot. -/
def Step.toScriptValue (step : Step Value) : Option (Recorded Value) :=
  match step.outcome with
  | .completed value => some ⟨step.requestDigest, .ok value⟩
  | .failed message => some ⟨step.requestDigest, .error message⟩
  | .unknown => none

/-- The log as the handler sees it: one slot per step, in index order. -/
def Journal.toScriptValue (journal : Journal Value) : List (Option (Recorded Value)) :=
  journal.steps.map Step.toScriptValue

/-! ### What an append and a settle do -/

variable {journal journal' : Journal Value} {index : ℕ} {kind : StepKind} {digest : String}
  {outcome : StepOutcome Value}

theorem Journal.append_ok (h : journal.append index kind digest outcome = .ok journal') :
    index = journal.steps.length ∧ journal.steps.length < journal.stepCap ∧
      journal' = { journal with steps := journal.steps ++ [⟨index, kind, digest, outcome⟩] } := by
  unfold Journal.append at h
  split_ifs at h with hindex hcap
  · exact ⟨not_ne_iff.mp hindex, Nat.not_le.mp hcap, (Except.ok.inj h).symm⟩

theorem Journal.append_next (hcap : journal.steps.length < journal.stepCap) (kind : StepKind)
    (digest : String) (outcome : StepOutcome Value) :
    journal.append journal.steps.length kind digest outcome =
      .ok { journal with
        steps := journal.steps ++ [⟨journal.steps.length, kind, digest, outcome⟩] } := by
  unfold Journal.append
  rw [if_neg (not_not_intro rfl), if_neg (Nat.not_le.mpr hcap)]

theorem Journal.settle_ok (h : journal.settle index digest outcome = .ok journal') :
    ∃ step, journal.steps[index]? = some step ∧ step.requestDigest = digest ∧
      step.outcome = .unknown ∧
      journal' = { journal with steps := journal.steps.set index { step with outcome } } := by
  unfold Journal.settle at h
  split at h
  · cases h
  · rename_i step hstep
    split_ifs at h with hdigest hsettled
    refine ⟨step, hstep, not_ne_iff.mp hdigest, ?_, (Except.ok.inj h).symm⟩
    cases hunknown : step.outcome with
    | unknown => rfl
    | completed value => simp [hunknown, StepOutcome.isUnknown] at hsettled
    | failed message => simp [hunknown, StepOutcome.isUnknown] at hsettled

end Albedo.Aperture
