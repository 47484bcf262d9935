import Albedo.Aperture.Ledger

/-!
# Resolving what a pass asked for

Every staged request is begun in the log before any of them leaves; then all of them are
sent, and their outcomes settled in step order, in the log and in the journal.
-/
namespace Albedo.Aperture

structure PendingRequest where
  step : ℕ
  method : String
  url : String
  body : Option String
  headers : List (String × String)
  digest : String
  deriving DecidableEq

structure ApertureRequest where
  method : String
  url : String
  headers : List (String × String)
  body : Option String

def idempotencyKeyHeader : String := "Idempotency-Key"

variable {Value : Type}

/-- The key a request is sent under: the one of its step, unless it cannot have an effect
or brings a key of its own. -/
def derivedKey (pending : PendingRequest) (journal : Journal Value) : Option String :=
  let idempotent := pending.method ∈ ["GET", "HEAD", "OPTIONS", "TRACE"]
  let authored := pending.headers.any fun header =>
    header.1.toLower = idempotencyKeyHeader.toLower
  if ¬ idempotent ∧ authored = false then some (journal.idempotencyKey pending.step) else none

def wireRequest (pending : PendingRequest) (journal : Journal Value) : ApertureRequest where
  method := pending.method
  url := pending.url
  headers := pending.headers ++
    (derivedKey pending journal).toList.map fun key => (idempotencyKeyHeader, key)
  body := pending.body

structure Call (Value : Type) where
  request : PendingRequest
  answer : Except String Value
  now : ℤ

def Call.outcome (call : Call Value) : StepOutcome Value :=
  match call.answer with
  | .ok value => .completed value
  | .error message => .failed message

theorem Call.outcome_ne_unknown (call : Call Value) : call.outcome ≠ .unknown := by
  unfold Call.outcome
  split <;> nofun

def StepLog.beginCall (log : StepLog) (buildId : String) (now : ℤ) (staged : PendingRequest) :
    StepLog :=
  log.beginStep buildId staged.step .fetch staged.digest now

/-- Record how one staged request ended in the journal, which may hold its step already. -/
def Journal.settleCall (journal : Journal Value) (call : Call Value) :
    Except JournalError (Journal Value) :=
  if journal.holds call.request.step then
    journal.settle call.request.step call.request.digest call.outcome
  else journal.append call.request.step .fetch call.request.digest call.outcome

def settleCalls (codec : Codec Value) : StepLog → Journal Value → List (Call Value) →
    StepLog × Except JournalError (Journal Value)
  | log, journal, [] => (log, .ok journal)
  | log, journal, call :: calls =>
      let log := log.settleStep codec call.request.step call.outcome call.now
      match journal.settleCall call with
      | .ok journal => settleCalls codec log journal calls
      | .error err => (log, .error err)

/-- Begin everything one pass asked for, issue it, and settle the outcomes in order. -/
def resolvePending (codec : Codec Value) (log : StepLog) (journal : Journal Value)
    (buildId : String) (started : ℤ) (calls : List (Call Value)) :
    StepLog × Except JournalError (Journal Value) :=
  settleCalls codec
    ((calls.map Call.request).foldl (fun log staged => log.beginCall buildId started staged) log)
    journal calls

/-! ### Steps that are begun -/

def begun (steps : List (Step Value)) : List PendingRequest → List (Step Value)
  | [] => steps
  | staged :: pending =>
      if staged.step < steps.length then begun steps pending
      else begun (steps ++ [⟨steps.length, .fetch, staged.digest, .unknown⟩]) pending

def Gapless : ℕ → List PendingRequest → Prop
  | _, [] => True
  | n, staged :: pending => staged.step ≤ n ∧ Gapless (max n (staged.step + 1)) pending

def Numbered (steps : List (Step Value)) : Prop :=
  steps.map Step.index = List.range steps.length

theorem StepLog.numbered_steps (codec : Codec Value) {log : StepLog} :
    Numbered (log.steps codec) ↔ log.Dense := by
  rw [Numbered, StepLog.Dense, StepLog.length_steps, StepLog.steps, List.map_map]
  rfl

theorem Numbered.append {steps : List (Step Value)} (h : Numbered steps) {step : Step Value}
    (hindex : step.index = steps.length) : Numbered (steps ++ [step]) := by
  rw [Numbered, List.map_append, h, List.length_append, List.length_singleton, List.range_succ,
    List.map_singleton, hindex]

theorem Numbered.set {steps : List (Step Value)} (h : Numbered steps) {i : ℕ} {step step' : Step Value}
    (hstep : steps[i]? = some step) (hindex : step'.index = step.index) :
    Numbered (steps.set i step') := by
  rw [Numbered, List.map_set, List.length_set, h, hindex]
  refine List.ext_getElem? fun k => ?_
  rw [List.getElem?_set, List.length_range]
  have hi : (steps.map Step.index)[i]? = some step.index := by rw [List.getElem?_map, hstep]; rfl
  rw [h] at hi
  split_ifs with hk hlt
  · rw [← hk, hi]
  · rw [← hk, List.getElem?_eq_none (by simpa using hlt)]
  · rfl

theorem begun_append (steps : List (Step Value)) (done pending : List PendingRequest) :
    begun steps (done ++ pending) = begun (begun steps done) pending := by
  induction done generalizing steps with
  | nil => rfl
  | cons staged done ih =>
      simp only [List.cons_append, begun]
      split_ifs
      · exact ih _
      · exact ih _

theorem begun_numbered {steps : List (Step Value)} (h : Numbered steps)
    (pending : List PendingRequest) : Numbered (begun steps pending) := by
  induction pending generalizing steps with
  | nil => exact h
  | cons staged pending ih =>
      rw [begun]
      split_ifs
      · exact ih h
      · exact ih (h.append rfl)

theorem prefix_begun (steps : List (Step Value)) (pending : List PendingRequest) :
    steps <+: begun steps pending := by
  induction pending generalizing steps with
  | nil => exact List.prefix_rfl
  | cons staged pending ih =>
      rw [begun]
      split_ifs
      · exact ih steps
      · exact (List.prefix_append _ _).trans (ih _)

theorem getElem?_of_prefix {α : Type*} {xs ys : List α} (h : xs <+: ys) {k : ℕ} {x : α}
    (hx : xs[k]? = some x) : ys[k]? = some x := by
  obtain ⟨rest, rfl⟩ := h
  rw [List.getElem?_append_left (List.getElem?_eq_some_iff.mp hx).choose, hx]

theorem begun_set (steps : List (Step Value)) (pending : List PendingRequest) {i : ℕ}
    (hi : i < steps.length) (step : Step Value) :
    begun (steps.set i step) pending = (begun steps pending).set i step := by
  induction pending generalizing steps with
  | nil => rfl
  | cons staged pending ih =>
      simp only [begun, List.length_set]
      split_ifs
      · exact ih steps hi
      · rw [← ih _ (by rw [List.length_append]; omega), List.set_append_left _ _ hi]

theorem StepLog.steps_beginCall (codec : Codec Value) {log : StepLog} (hdense : log.Dense)
    {staged : PendingRequest} (hstep : staged.step ≤ log.rows.length) (buildId : String) (now : ℤ) :
    (log.beginCall buildId now staged).steps codec = begun (log.steps codec) [staged] := by
  simp only [begun, StepLog.length_steps, StepLog.beginCall]
  split_ifs with hold
  · rw [hdense.beginStep_old hold]
  · obtain hnext : staged.step = log.rows.length := Nat.le_antisymm hstep (Nat.not_lt.mp hold)
    rw [hnext, hdense.steps_beginStep]

theorem settleCall_agree {codec : Codec Value} {log : StepLog} {journal journal' : Journal Value}
    {call : Call Value} {rest : List PendingRequest} (hnumbered : Numbered journal.steps)
    (hsteps : log.steps codec = begun journal.steps (call.request :: rest))
    (hok : journal.settleCall call = .ok journal') :
    Numbered journal'.steps ∧
      (log.settleStep codec call.request.step call.outcome call.now).steps codec =
        begun journal'.steps rest := by
  have hdense : log.Dense := (StepLog.numbered_steps codec).mp (hsteps ▸ begun_numbered hnumbered _)
  rw [begun] at hsteps
  unfold Journal.settleCall at hok
  split_ifs at hok with hholds
  · obtain ⟨step, hstep, -, hunknown, rfl⟩ := Journal.settle_ok hok
    have hlt := (List.getElem?_eq_some_iff.mp hstep).choose
    rw [if_pos hlt] at hsteps
    refine ⟨hnumbered.set hstep rfl, ?_⟩
    have hlog : (log.steps codec)[call.request.step]? = some step :=
      hsteps ▸ getElem?_of_prefix (prefix_begun _ rest) hstep
    rw [hdense.steps_settleStep hlog hunknown call.outcome_ne_unknown, hsteps, begun_set _ _ hlt]
  · obtain ⟨hnext, -, rfl⟩ := Journal.append_ok hok
    rw [if_neg (by rw [hnext]; exact Nat.lt_irrefl _)] at hsteps
    refine ⟨hnumbered.append hnext, ?_⟩
    let begun₁ : Step Value := ⟨journal.steps.length, .fetch, call.request.digest, .unknown⟩
    have hbegun : (journal.steps ++ [begun₁])[journal.steps.length]? = some begun₁ := by simp
    have hlog : (log.steps codec)[call.request.step]? = some begun₁ := by
      rw [hsteps, hnext]
      exact getElem?_of_prefix (prefix_begun _ rest) hbegun
    rw [hdense.steps_settleStep hlog rfl call.outcome_ne_unknown, hsteps, hnext, ← begun_set _ _
      (by simp), List.set_append_right _ _ (Nat.le_refl _), Nat.sub_self]
    rfl

/-! ### A resolve that succeeds -/

structure Journal.Continues (journal journal' : Journal Value) : Prop where
  workflowId : journal'.workflowId = journal.workflowId
  buildId : journal'.buildId = journal.buildId
  stepCap : journal'.stepCap = journal.stepCap
  fits : journal.steps.length ≤ journal.stepCap → journal'.steps.length ≤ journal.stepCap

theorem Journal.Continues.refl (journal : Journal Value) : journal.Continues journal :=
  ⟨rfl, rfl, rfl, id⟩

theorem Journal.Continues.trans {a b c : Journal Value} (hab : a.Continues b)
    (hbc : b.Continues c) : a.Continues c where
  workflowId := hbc.workflowId.trans hab.workflowId
  buildId := hbc.buildId.trans hab.buildId
  stepCap := hbc.stepCap.trans hab.stepCap
  fits := by
    intro hfits
    have hbfits := hab.fits hfits
    rw [← hab.stepCap] at hbfits ⊢
    exact hbc.fits hbfits

theorem Journal.settleCall_length {journal journal' : Journal Value} {call : Call Value}
    (hok : journal.settleCall call = .ok journal') : call.request.step ≤ journal.steps.length ∧
      journal'.steps.length = max journal.steps.length (call.request.step + 1) ∧
      journal.Continues journal' := by
  unfold Journal.settleCall at hok
  split_ifs at hok with hholds
  · obtain ⟨step, hstep, -, -, rfl⟩ := Journal.settle_ok hok
    have hlt := (List.getElem?_eq_some_iff.mp hstep).choose
    have hlength : (journal.steps.set call.request.step { step with outcome := call.outcome }).length
        = journal.steps.length := List.length_set
    refine ⟨Nat.le_of_lt hlt, ?_, rfl, rfl, rfl, ?_⟩
    · rw [hlength]
      omega
    · rw [hlength]
      exact id
  · obtain ⟨hnext, hcap, rfl⟩ := Journal.append_ok hok
    refine ⟨Nat.le_of_eq hnext, ?_, rfl, rfl, rfl, fun _ => ?_⟩
    · rw [List.length_append, List.length_singleton]
      omega
    · rw [List.length_append, List.length_singleton]
      exact hcap

theorem length_begun_single (steps : List (Step Value)) {staged : PendingRequest}
    (h : staged.step ≤ steps.length) :
    (begun steps [staged]).length = max steps.length (staged.step + 1) := by
  simp only [begun]
  split_ifs with hlt
  · omega
  · rw [List.length_append, List.length_singleton]
    omega

theorem steps_beginCalls {codec : Codec Value} {log : StepLog} (hdense : log.Dense)
    {pending : List PendingRequest} (hgapless : Gapless log.rows.length pending) (buildId : String)
    (started : ℤ) :
    (pending.foldl (fun log staged => log.beginCall buildId started staged) log).steps codec =
      begun (log.steps codec) pending := by
  induction pending generalizing log with
  | nil => rfl
  | cons staged pending ih =>
      obtain ⟨hstep, hrest⟩ := hgapless
      have hbegin := StepLog.steps_beginCall codec hdense hstep buildId started
      have hdense' : (log.beginCall buildId started staged).Dense := by
        rw [← StepLog.numbered_steps codec, hbegin]
        exact begun_numbered ((StepLog.numbered_steps codec).mpr hdense) _
      have hlength : (log.beginCall buildId started staged).rows.length =
          max log.rows.length (staged.step + 1) := by
        rw [← StepLog.length_steps codec, hbegin,
          length_begun_single _ (by rwa [StepLog.length_steps]), StepLog.length_steps]
      rw [List.foldl_cons, ih hdense' (by rwa [hlength]), hbegin,
        ← begun_append (log.steps codec) [staged] pending, List.singleton_append]

theorem settleCalls_gapless {codec : Codec Value} {log log' : StepLog}
    {journal journal' : Journal Value} {calls : List (Call Value)}
    (hok : settleCalls codec log journal calls = (log', .ok journal')) :
    Gapless journal.steps.length (calls.map Call.request) := by
  induction calls generalizing log journal with
  | nil => trivial
  | cons call calls ih =>
      rw [settleCalls] at hok
      cases hcall : journal.settleCall call with
      | error err => simp [hcall] at hok
      | ok journal₁ =>
          simp only [hcall] at hok
          obtain ⟨hstep, hlength, -⟩ := Journal.settleCall_length hcall
          exact ⟨hstep, hlength ▸ ih hok⟩

theorem settleCalls_agree {codec : Codec Value} {log log' : StepLog}
    {journal journal' : Journal Value} {calls : List (Call Value)}
    (hnumbered : Numbered journal.steps)
    (hsteps : log.steps codec = begun journal.steps (calls.map Call.request))
    (hok : settleCalls codec log journal calls = (log', .ok journal')) :
    Numbered journal'.steps ∧ log'.steps codec = journal'.steps ∧ journal.Continues journal' := by
  induction calls generalizing log journal with
  | nil =>
      cases hok
      exact ⟨hnumbered, hsteps, .refl _⟩
  | cons call calls ih =>
      rw [settleCalls] at hok
      cases hcall : journal.settleCall call with
      | error err => simp [hcall] at hok
      | ok journal₁ =>
          simp only [hcall] at hok
          obtain ⟨hnumbered₁, hsteps₁⟩ := settleCall_agree hnumbered hsteps hcall
          obtain ⟨hnumbered', hsteps', hcontinues⟩ := ih hnumbered₁ hsteps₁ hok
          exact ⟨hnumbered', hsteps', (Journal.settleCall_length hcall).2.2.trans hcontinues⟩

theorem resolvePending_agree {codec : Codec Value} {log log' : StepLog}
    {journal journal' : Journal Value} {buildId : String} {started : ℤ} {calls : List (Call Value)}
    (hnumbered : Numbered journal.steps) (hsteps : log.steps codec = journal.steps)
    (hok : resolvePending codec log journal buildId started calls = (log', .ok journal')) :
    Numbered journal'.steps ∧ log'.steps codec = journal'.steps ∧ journal.Continues journal' := by
  have hdense : log.Dense := (StepLog.numbered_steps codec).mp (hsteps ▸ hnumbered)
  have hgapless := settleCalls_gapless hok
  rw [← hsteps, StepLog.length_steps] at hgapless
  refine settleCalls_agree hnumbered ?_ hok
  rw [steps_beginCalls hdense hgapless, hsteps]

end Albedo.Aperture
