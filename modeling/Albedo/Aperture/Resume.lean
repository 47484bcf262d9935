import Mathlib.Logic.Function.Basic
import Mathlib.Logic.Relation
import Albedo.Aperture.Body
import Albedo.Library.Separator

/-!
# Workflows that are resumed

A run passes its body over the journal, begins what the pass staged in the log, sends it,
and settles the answers, and may end between any two of these. A run that is resumed reads
the log back: a step that was in flight has no answer there, so the body asks for it again.
-/
namespace Albedo.Aperture
open Separator

variable {Value : Type}

/-! ### Runs -/

/-- What a workflow is doing: nothing, or how far its run came in a pass. -/
inductive Activity (Value : Type) where
  | idle
  | running (journal : Journal Value)
  | beginning (journal : Journal Value) (pending rest : List PendingRequest)
  | sending (journal : Journal Value) (pending left : List PendingRequest)
  | settling (journal : Journal Value) (calls : List (Call Value))

def StepLog.row (log : StepLog) (index : ℕ) : Option StepRow :=
  (log.rows.find? (·.1 = index)).map Prod.snd

/-- A request that left: the key it was sent under, what went on the wire, and the row of its
step as it left. -/
structure Sent where
  workflow : String
  request : PendingRequest
  key : Option String
  wire : ApertureRequest
  row : Option StepRow

def Sent.leave (workflow : String) (log : StepLog) (journal : Journal Value)
    (staged : PendingRequest) (wire : ApertureRequest) : Sent :=
  ⟨workflow, staged, derivedKey staged journal, wire, log.row staged.step⟩

/-- One step of a workflow. The credentials of a source are attached to a request last. -/
inductive Advance (codec : Codec Value) (attach : ApertureRequest → Except String ApertureRequest)
    (body : Body Value) (workflow : String) :
    StepLog → Activity Value → Option Sent → StepLog → Activity Value → Prop
  /-- A run under another build than its log's ends before its first pass. -/
  | resume {log : StepLog} (buildId : String)
      (hbuild : ((log.load codec workflow).getD (.new workflow buildId)).buildId = buildId) :
      Advance codec attach body workflow log .idle none log
        (.running ((log.load codec workflow).getD (.new workflow buildId)))
  /-- The process dies, the body ended, or a pass was refused. -/
  | stop {log : StepLog} (activity : Activity Value) :
      Advance codec attach body workflow log activity none log .idle
  | pass {log : StepLog} {journal : Journal Value} (pending : List PendingRequest)
      (hpass : body.pass journal.answers = .suspended pending) (hprogress : pending ≠ []) :
      Advance codec attach body workflow log (.running journal) none log
        (.beginning journal pending pending)
  | begin {log : StepLog} {journal : Journal Value} {pending : List PendingRequest}
      (staged : PendingRequest) (rest : List PendingRequest) (now : ℤ) :
      Advance codec attach body workflow log (.beginning journal pending (staged :: rest)) none
        (log.beginCall journal.buildId now staged) (.beginning journal pending rest)
  | issue {log : StepLog} {journal : Journal Value} {pending : List PendingRequest} :
      Advance codec attach body workflow log (.beginning journal pending []) none log
        (.sending journal pending pending)
  | send {log : StepLog} {journal : Journal Value} {pending left : List PendingRequest}
      {wire : ApertureRequest} (staged : PendingRequest) (hleft : staged ∈ left)
      (hwire : attach (wireRequest staged journal) = .ok wire) :
      Advance codec attach body workflow log (.sending journal pending left)
        (some (.leave workflow log journal staged wire)) log
        (.sending journal pending (left.erase staged))
  /-- A request that may not leave fails without being sent. -/
  | refuse {log : StepLog} {journal : Journal Value} {pending left : List PendingRequest}
      (staged : PendingRequest) (hleft : staged ∈ left) :
      Advance codec attach body workflow log (.sending journal pending left) none log
        (.sending journal pending (left.erase staged))
  | answered {log : StepLog} {journal : Journal Value} {pending : List PendingRequest}
      (calls : List (Call Value)) (hcalls : calls.map Call.request = pending) :
      Advance codec attach body workflow log (.sending journal pending []) none log
        (.settling journal calls)
  | settle {log : StepLog} {journal journal' : Journal Value} (call : Call Value)
      (calls : List (Call Value)) (hok : journal.settleCall call = .ok journal') :
      Advance codec attach body workflow log (.settling journal (call :: calls)) none
        (log.settleStep codec call.request.step call.outcome call.now) (.settling journal' calls)
  /-- The log has the answer before the journal refuses it. -/
  | fail {log : StepLog} {journal : Journal Value} {err : JournalError} (call : Call Value)
      (calls : List (Call Value)) (herr : journal.settleCall call = .error err) :
      Advance codec attach body workflow log (.settling journal (call :: calls)) none
        (log.settleStep codec call.request.step call.outcome call.now) .idle
  | settled {log : StepLog} {journal : Journal Value} :
      Advance codec attach body workflow log (.settling journal []) none log (.running journal)

/-- The logs, what every workflow is doing, and all that was ever sent. -/
structure Dispatcher (Value : Type) where
  ledger : String → StepLog
  activity : String → Activity Value
  sent : List Sent

def Dispatcher.empty : Dispatcher Value := ⟨fun _ => .empty, fun _ => .idle, []⟩

def Dispatcher.moved (dispatcher : Dispatcher Value) (workflow : String) (log : StepLog)
    (activity : Activity Value) (sent : Option Sent) : Dispatcher Value where
  ledger := Function.update dispatcher.ledger workflow log
  activity := Function.update dispatcher.activity workflow activity
  sent := sent.toList ++ dispatcher.sent

section Moved

variable (dispatcher : Dispatcher Value) {workflow own : String} (log : StepLog)
  (activity : Activity Value) (sent : Option Sent)

theorem Dispatcher.moved_ledger_self :
    (dispatcher.moved own log activity sent).ledger own = log :=
  Function.update_self _ _ _

theorem Dispatcher.moved_activity_self :
    (dispatcher.moved own log activity sent).activity own = activity :=
  Function.update_self _ _ _

theorem Dispatcher.moved_ledger_of_ne (h : workflow ≠ own) :
    (dispatcher.moved own log activity sent).ledger workflow = dispatcher.ledger workflow :=
  Function.update_of_ne h _ _

theorem Dispatcher.moved_activity_of_ne (h : workflow ≠ own) :
    (dispatcher.moved own log activity sent).activity workflow = dispatcher.activity workflow :=
  Function.update_of_ne h _ _

end Moved

section Dispatch

variable (codec : Codec Value) (attach : ApertureRequest → Except String ApertureRequest)
  (bodies : String → Body Value)

inductive DispatchStep : Dispatcher Value → Dispatcher Value → Prop
  | advance {dispatcher : Dispatcher Value} {workflow : String} {log : StepLog}
      {activity : Activity Value} {sent : Option Sent}
      (hadvance : Advance codec attach (bodies workflow) workflow (dispatcher.ledger workflow)
        (dispatcher.activity workflow) sent log activity) :
      DispatchStep dispatcher (dispatcher.moved workflow log activity sent)

/-- Any number of workflows run, end anywhere, and are resumed. -/
def Dispatches : Dispatcher Value → Dispatcher Value → Prop :=
  Relation.ReflTransGen (DispatchStep codec attach bodies)

end Dispatch

/-! ### A pass that is not disturbed -/

section Undisturbed

variable {codec : Codec Value} {attach : ApertureRequest → Except String ApertureRequest}
  {body : Body Value} {workflow : String}

def Moves (codec : Codec Value) (attach : ApertureRequest → Except String ApertureRequest)
    (body : Body Value) (workflow : String) (a b : StepLog × Activity Value) : Prop :=
  ∃ sent, Advance codec attach body workflow a.1 a.2 sent b.1 b.2

theorem moves_begin (log : StepLog) (journal : Journal Value) (pending rest : List PendingRequest)
    (started : ℤ) :
    Relation.ReflTransGen (Moves codec attach body workflow) (log, .beginning journal pending rest)
      (rest.foldl (fun log staged => log.beginCall journal.buildId started staged) log,
        .beginning journal pending []) := by
  induction rest generalizing log with
  | nil => exact .refl
  | cons staged rest ih => exact .head ⟨none, .begin staged rest started⟩ (ih _)

theorem moves_send (log : StepLog) (journal : Journal Value) (pending left : List PendingRequest) :
    Relation.ReflTransGen (Moves codec attach body workflow) (log, .sending journal pending left)
      (log, .sending journal pending []) := by
  induction left with
  | nil => exact .refl
  | cons staged left ih =>
      have hnext : Moves codec attach body workflow
          (log, .sending journal pending (staged :: left))
          (log, .sending journal pending ((staged :: left).erase staged)) := by
        cases hwire : attach (wireRequest staged journal) with
        | ok wire => exact ⟨_, .send staged List.mem_cons_self hwire⟩
        | error refusal => exact ⟨none, .refuse staged List.mem_cons_self⟩
      rw [List.erase_cons_head] at hnext
      exact .head hnext ih

/-- Where a pass leaves its run: with the journal, or over where the journal refused an answer. -/
def landing : Except JournalError (Journal Value) → Activity Value
  | .ok journal => .running journal
  | .error _ => .idle

theorem moves_settle (log : StepLog) (journal : Journal Value) (calls : List (Call Value)) :
    Relation.ReflTransGen (Moves codec attach body workflow) (log, .settling journal calls)
      ((settleCalls codec log journal calls).1,
        landing (settleCalls codec log journal calls).2) := by
  induction calls generalizing log journal with
  | nil => exact .single ⟨none, .settled⟩
  | cons call calls ih =>
      rw [settleCalls]
      cases hcall : journal.settleCall call with
      | error err => exact .single ⟨none, .fail call calls hcall⟩
      | ok journal₁ => exact .head ⟨none, .settle call calls hcall⟩ (ih _ journal₁)

/-- Resolving what a pass staged is one path of the steps a workflow may take, however its journal
takes the answers. -/
theorem moves_resolve {log : StepLog} {journal : Journal Value} (started : ℤ)
    {calls : List (Call Value)} (hprogress : calls.map Call.request ≠ [])
    (hpass : body.pass journal.answers = .suspended (calls.map Call.request)) :
    Relation.ReflTransGen (Moves codec attach body workflow) (log, .running journal)
      ((resolvePending codec log journal journal.buildId started calls).1,
        landing (resolvePending codec log journal journal.buildId started calls).2) := by
  let pending := calls.map Call.request
  let begunLog := pending.foldl (fun log staged => log.beginCall journal.buildId started staged) log
  have hstart : Moves codec attach body workflow (log, .running journal)
      (log, .beginning journal pending pending) := ⟨none, .pass _ hpass hprogress⟩
  have hissue : Moves codec attach body workflow (begunLog, .beginning journal pending [])
      (begunLog, .sending journal pending pending) := ⟨none, .issue⟩
  have hanswered : Moves codec attach body workflow (begunLog, .sending journal pending [])
      (begunLog, .settling journal calls) := ⟨none, .answered calls rfl⟩
  exact (((moves_begin log journal pending pending started).head hstart).tail hissue).trans
    (((moves_send begunLog journal pending pending).tail hanswered).trans
      (moves_settle begunLog journal calls))

end Undisturbed

/-! ### The steps of a log, and what the body asked for -/

/-- The first so many steps of a log have answers, and each is a call the body asked for. -/
structure Sound (body : Body Value) (answers : List (Recorded Value)) (steps : List (Step Value)) :
    Prop where
  numbered : Numbered steps
  fits : steps.length ≤ defaultStepCap
  answered : body.Answered answers
  slots : ∃ m, steps.map Step.toScriptValue = answers.map some ++ List.replicate m none
  asked : ∀ k step, steps[k]? = some step →
    ∃ r, body.Asked answers r ∧ r.step = k ∧ r.digest = step.requestDigest

variable {body : Body Value} {answers : List (Recorded Value)} {steps : List (Step Value)}

theorem Sound.nil (body : Body Value) : Sound body [] [] where
  numbered := rfl
  fits := Nat.zero_le _
  answered := .nil
  slots := ⟨0, rfl⟩
  asked := by
    intro k step hstep
    cases hstep

theorem Sound.length_le (h : Sound body answers steps) : answers.length ≤ steps.length := by
  obtain ⟨m, hslots⟩ := h.slots
  have hlength := congrArg List.length hslots
  simp only [List.length_map, List.length_append, List.length_replicate] at hlength
  omega

theorem Sound.staged (h : Sound body answers steps) {journal : Journal Value}
    (hsteps : journal.steps = steps) {pending : List PendingRequest}
    (hpass : body.pass journal.answers = .suspended pending) : body.staged answers = pending := by
  have hanswers : journal.answers = fun k => answers[k]? := by
    funext k
    obtain ⟨m, hslots⟩ := h.slots
    rw [Journal.answers, Journal.toScriptValue, hsteps, hslots, List.getElem?_append,
      List.length_map]
    split_ifs with hlt
    · rw [List.getElem?_map, List.getElem?_eq_getElem hlt]
      rfl
    · rw [List.getElem?_replicate, List.getElem?_eq_none (Nat.not_lt.mp hlt)]
      split_ifs <;> rfl
  rw [Body.staged, ← hanswers, hpass]

theorem Sound.open_step (h : Sound body answers steps) (hstable : body.Stable)
    {r : PendingRequest} (hasked : body.Asked answers r) (hopen : answers.length ≤ r.step)
    (hlt : r.step < steps.length) : ∃ step, steps[r.step]? = some step ∧
      step.outcome = .unknown ∧ step.requestDigest = r.digest := by
  have hstep := List.getElem?_eq_getElem hlt
  refine ⟨_, hstep, ?_, ?_⟩
  · obtain ⟨m, hslots⟩ := h.slots
    have hslot : (steps.map Step.toScriptValue)[r.step]? =
        some (steps[r.step]).toScriptValue := by rw [List.getElem?_map, hstep]; rfl
    rw [hslots, List.getElem?_append_right (by rwa [List.length_map]),
      List.getElem?_replicate] at hslot
    split_ifs at hslot
    have hmiss := (Option.some.inj hslot).symm
    unfold Step.toScriptValue at hmiss
    split at hmiss
    · cases hmiss
    · cases hmiss
    · assumption
  · obtain ⟨r', hasked', hstep', hdigest⟩ := h.asked _ _ hstep
    rw [← hdigest]
    exact (hstable.sameCall hasked' hasked hstep').1

theorem Sound.begin (h : Sound body answers steps) {staged : PendingRequest}
    (hasked : body.Asked answers staged) (hstep : staged.step ≤ steps.length)
    (hcap : staged.step < defaultStepCap) : Sound body answers (begun steps [staged]) := by
  simp only [begun]
  split_ifs with hold
  · exact h
  · have hnext : staged.step = steps.length := Nat.le_antisymm hstep (Nat.not_lt.mp hold)
    refine ⟨h.numbered.append rfl, ?_, h.answered, ?_, ?_⟩
    · rw [List.length_append, List.length_singleton, ← hnext]
      exact hcap
    · obtain ⟨m, hslots⟩ := h.slots
      refine ⟨m + 1, ?_⟩
      rw [List.map_append, hslots, List.replicate_succ', List.append_assoc]
      rfl
    · intro k step hk
      rcases Nat.lt_trichotomy k steps.length with hlt | heq | hgt
      · rw [List.getElem?_append_left hlt] at hk
        exact h.asked k step hk
      · subst heq
        rw [List.getElem?_concat_length] at hk
        obtain rfl := Option.some.inj hk
        exact ⟨staged, hasked, hnext, rfl⟩
      · rw [List.getElem?_eq_none (by rw [List.length_append, List.length_singleton]; omega)] at hk
        cases hk

def Call.recorded (call : Call Value) : Recorded Value := ⟨call.request.digest, call.answer⟩

theorem Step.toScriptValue_settled (step : Step Value) {call : Call Value}
    (hdigest : step.requestDigest = call.request.digest) :
    ({ step with outcome := call.outcome } : Step Value).toScriptValue = some call.recorded := by
  unfold Step.toScriptValue Call.outcome Call.recorded
  cases call.answer with
  | ok value => simp [hdigest]
  | error message => simp [hdigest]

theorem Sound.settle (h : Sound body answers steps) {call : Call Value} {step : Step Value}
    (hstep : steps[answers.length]? = some step) (hdigest : step.requestDigest = call.request.digest)
    (hanswered : body.Answered (answers ++ [call.recorded])) :
    Sound body (answers ++ [call.recorded])
      (steps.set answers.length { step with outcome := call.outcome }) := by
  have hlt := (List.getElem?_eq_some_iff.mp hstep).choose
  refine ⟨h.numbered.set hstep rfl, ?_, hanswered, ?_, ?_⟩
  · rw [List.length_set]
    exact h.fits
  · obtain ⟨m, hslots⟩ := h.slots
    have hlength := congrArg List.length hslots
    simp only [List.length_map, List.length_append, List.length_replicate] at hlength
    obtain ⟨m, rfl⟩ : ∃ m', m = m' + 1 := ⟨m - 1, by omega⟩
    refine ⟨m, ?_⟩
    rw [List.map_set, step.toScriptValue_settled hdigest, hslots, List.replicate_succ,
      List.set_append_right _ _ (Nat.le_of_eq (List.length_map _)), List.length_map, Nat.sub_self,
      List.set_cons_zero, List.map_append, List.append_assoc]
    rfl
  · intro k step' hk
    rw [List.getElem?_set] at hk
    split_ifs at hk with heq
    · subst heq
      obtain rfl := Option.some.inj hk
      obtain ⟨r, hasked, hr⟩ := h.asked _ _ hstep
      exact ⟨r, hasked.mono (List.prefix_append _ _), hr⟩
    · obtain ⟨r, hasked, hr⟩ := h.asked k step' hk
      exact ⟨r, hasked.mono (List.prefix_append _ _), hr⟩

/-! ### What a run does to the log of its workflow -/

structure Journal.Tracks (journal : Journal Value) (workflow : String)
    (answers : List (Recorded Value)) : Prop where
  workflowId : journal.workflowId = workflow
  numbered : Numbered journal.steps
  reaches : answers.length ≤ journal.steps.length

inductive Follows (body : Body Value) (workflow : String) (answers : List (Recorded Value))
    (steps : List (Step Value)) : Activity Value → Prop
  | idle : Follows body workflow answers steps .idle
  | running {journal : Journal Value} (htracks : journal.Tracks workflow answers)
      (hsteps : steps = journal.steps) : Follows body workflow answers steps (.running journal)
  | beginning {journal : Journal Value} {pending rest : List PendingRequest}
      (done : List PendingRequest) (htracks : journal.Tracks workflow answers)
      (hpending : body.staged answers = pending) (hdone : pending = done ++ rest)
      (hsteps : steps = begun journal.steps done) :
      Follows body workflow answers steps (.beginning journal pending rest)
  | sending {journal : Journal Value} {pending left : List PendingRequest}
      (htracks : journal.Tracks workflow answers) (hpending : body.staged answers = pending)
      (hleft : left ⊆ pending) (hsteps : steps = begun journal.steps pending) :
      Follows body workflow answers steps (.sending journal pending left)
  | settling {journal : Journal Value} {calls : List (Call Value)}
      (before given : List (Recorded Value)) (done : List PendingRequest)
      (htracks : journal.Tracks workflow answers) (hanswers : answers = before ++ given)
      (hbefore : body.Answered before)
      (hpending : body.staged before = done ++ calls.map Call.request)
      (hgiven : given.map Recorded.digest = done.map PendingRequest.digest)
      (hsteps : steps = begun journal.steps (calls.map Call.request)) :
      Follows body workflow answers steps (.settling journal calls)

theorem Journal.Tracks.load {codec : Codec Value} {log : StepLog}
    (h : Sound body answers (log.steps codec)) (workflow buildId : String) :
    ((log.load codec workflow).getD (.new workflow buildId)).Tracks workflow answers ∧
      log.steps codec = ((log.load codec workflow).getD (.new workflow buildId)).steps := by
  by_cases hrows : log.rows = []
  · have hnone : log.load codec workflow = none := by rw [StepLog.load, hrows]
    have hsteps : log.steps codec = [] := by rw [StepLog.steps, hrows]; rfl
    have hlength := h.length_le
    rw [hsteps] at hlength
    rw [hnone, hsteps]
    exact ⟨⟨rfl, rfl, hlength⟩, rfl⟩
  · have hfits := h.fits
    rw [StepLog.length_steps] at hfits
    obtain ⟨buildId', hload⟩ :=
      StepLog.load_dense ((StepLog.numbered_steps codec).mp h.numbered) hrows hfits workflow
    rw [hload]
    exact ⟨⟨rfl, h.numbered, h.length_le⟩, rfl⟩

theorem length_begun {steps : List (Step Value)} {pending : List PendingRequest} {n : ℕ}
    (hpending : pending.map PendingRequest.step = List.range' n pending.length)
    (hn : n ≤ steps.length) : n + pending.length ≤ (begun steps pending).length := by
  induction pending generalizing steps n with
  | nil => exact hn
  | cons staged pending ih =>
      rw [List.map_cons, List.length_cons, List.range'_succ, List.cons.injEq] at hpending
      obtain ⟨hstep, hrest⟩ := hpending
      have hlength : (begun steps [staged]).length = max steps.length (staged.step + 1) :=
        length_begun_single steps (by rwa [hstep])
      have hih : n + 1 + pending.length ≤ (begun (begun steps [staged]) pending).length :=
        ih hrest (by rw [hlength, hstep]; omega)
      rw [← begun_append, List.singleton_append] at hih
      rw [List.length_cons]
      omega

theorem Body.staged_append (body : Body Value) {answers : List (Recorded Value)}
    {done rest : List PendingRequest} (h : body.staged answers = done ++ rest) :
    done.map PendingRequest.step = List.range' answers.length done.length ∧
      rest.map PendingRequest.step = List.range' (answers.length + done.length) rest.length := by
  have hsteps := body.staged_steps answers
  rw [h, List.map_append, List.length_append, ← List.range'_append_1] at hsteps
  exact List.append_inj hsteps (by simp)

structure Sent.Traced (sent : Sent) (body : Body Value) (answers : List (Recorded Value)) :
    Prop where
  asked : body.Asked answers sent.request
  key : sent.key =
    if sent.request.Keyed then some (numbered ':' sent.workflow sent.request.step) else none
  recorded : ∃ row, sent.row = some row ∧ row.state = .unknown ∧
    row.digest = sent.request.digest

theorem Sent.Traced.mono {sent : Sent} {answers' : List (Recorded Value)}
    (h : sent.Traced body answers) (hpre : answers <+: answers') : sent.Traced body answers' :=
  ⟨h.asked.mono hpre, h.key, h.recorded⟩

theorem StepLog.Dense.row {log : StepLog} (hdense : log.Dense) {k : ℕ} {r : ℕ × StepRow}
    (h : log.rows[k]? = some r) : log.row k = some r.2 := by
  unfold StepLog.row
  cases hfind : log.rows.find? (·.1 = k) with
  | none =>
      exact absurd (decide_eq_true (hdense.index h))
        (List.find?_eq_none.mp hfind r (List.mem_of_getElem? h))
  | some r' =>
      obtain ⟨k', hk'⟩ := List.getElem?_of_mem (List.mem_of_find?_eq_some hfind)
      have hindex : r'.1 = k := by simpa using List.find?_some hfind
      rw [hdense.index hk'] at hindex
      rw [← hindex, hk'] at h
      rw [Option.some.inj h]
      rfl

section Step

variable {codec : Codec Value} {workflow : String} {log : StepLog} {journal : Journal Value}
  {pending left rest : List PendingRequest} {staged : PendingRequest}

theorem Sound.advance_begin (h : Sound body answers (log.steps codec)) (hcapped : body.Capped)
    (hfollows : Follows body workflow answers (log.steps codec)
      (.beginning journal pending (staged :: rest))) (now : ℤ) :
    Sound body answers ((log.beginCall journal.buildId now staged).steps codec) ∧
      Follows body workflow answers ((log.beginCall journal.buildId now staged).steps codec)
        (.beginning journal pending rest) := by
  cases hfollows with
  | beginning done htracks hpending hdone hsteps =>
      have hmem : staged ∈ body.staged answers := by
        rw [hpending, hdone]
        exact List.mem_append_right _ List.mem_cons_self
      obtain ⟨hbefore, hafter⟩ := body.staged_append (hpending.trans hdone)
      have hstep : staged.step = answers.length + done.length := by
        rw [List.map_cons, List.length_cons, List.range'_succ] at hafter
        exact (List.cons.inj hafter).1
      have hle : staged.step ≤ log.rows.length := by
        rw [hstep, ← StepLog.length_steps codec, hsteps]
        exact length_begun hbefore htracks.reaches
      have hbegin := StepLog.steps_beginCall codec
        ((StepLog.numbered_steps codec).mp h.numbered) hle journal.buildId now
      rw [hbegin]
      refine ⟨h.begin (h.answered.asked hmem) (by rwa [StepLog.length_steps])
        (hcapped _ h.answered _ hmem), ?_⟩
      refine .beginning (done ++ [staged]) htracks hpending ?_ ?_
      · rw [hdone, List.append_assoc, List.singleton_append]
      · rw [hsteps, ← begun_append]

theorem Sound.advance_send (h : Sound body answers (log.steps codec)) (hstable : body.Stable)
    (hfollows : Follows body workflow answers (log.steps codec) (.sending journal pending left))
    (hleft : staged ∈ left) (wire : ApertureRequest) :
    (Sent.leave workflow log journal staged wire).Traced body answers := by
  cases hfollows with
  | sending htracks hpending hsub hsteps =>
      have hmem : staged ∈ body.staged answers := hpending ▸ hsub hleft
      have hasked := h.answered.asked hmem
      have hlt : staged.step < (log.steps codec).length := by
        obtain ⟨k, hk⟩ := List.getElem?_of_mem hmem
        have hk' := (List.getElem?_eq_some_iff.mp hk).choose
        have hlength := length_begun (hpending ▸ body.staged_steps answers) htracks.reaches
        rw [← hsteps] at hlength
        rw [body.getElem?_staged hk]
        rw [hpending] at hk'
        omega
      obtain ⟨step, hstep, hunknown, hdigest⟩ :=
        h.open_step hstable hasked (body.mem_staged hmem) hlt
      rw [StepLog.steps, List.getElem?_map, Option.map_eq_some_iff] at hstep
      obtain ⟨r, hr, rfl⟩ := hstep
      refine ⟨hasked, ?_, r.2, ((StepLog.numbered_steps codec).mp h.numbered).row hr,
        StepRow.state_of_outcome hunknown, hdigest⟩
      rw [Sent.leave, derivedKey_eq, Journal.idempotencyKey, htracks.workflowId]
      rfl

theorem Sound.advance_settle (h : Sound body answers (log.steps codec)) (hstable : body.Stable)
    {call : Call Value} {calls : List (Call Value)}
    (hfollows : Follows body workflow answers (log.steps codec)
      (.settling journal (call :: calls))) :
    Sound body (answers ++ [call.recorded])
        ((log.settleStep codec call.request.step call.outcome call.now).steps codec) ∧
      ∀ journal', journal.settleCall call = .ok journal' →
        Follows body workflow (answers ++ [call.recorded])
          ((log.settleStep codec call.request.step call.outcome call.now).steps codec)
          (.settling journal' calls) := by
  cases hfollows with
  | settling before given done htracks hanswers hbefore hpending hgiven hsteps =>
      have hmem : call.request ∈ body.staged before := by
        rw [hpending]
        exact List.mem_append_right _ List.mem_cons_self
      have hasked : body.Asked answers call.request :=
        ⟨before, hanswers ▸ List.prefix_append _ _, hbefore, hmem⟩
      have hlength : answers.length = before.length + done.length := by
        have hgivenLength := congrArg List.length hgiven
        rw [List.length_map, List.length_map] at hgivenLength
        rw [hanswers, List.length_append, hgivenLength]
      obtain ⟨-, hrest⟩ := body.staged_append hpending
      rw [← hlength] at hrest
      have hstep : call.request.step = answers.length := by
        rw [List.map_cons, List.map_cons, List.length_cons, List.range'_succ] at hrest
        exact (List.cons.inj hrest).1
      have hlt : call.request.step < (log.steps codec).length := by
        have hreach := length_begun hrest htracks.reaches
        rw [← hsteps, List.map_cons, List.length_cons] at hreach
        omega
      obtain ⟨step, hopen, hunknown, hdigest⟩ :=
        h.open_step hstable hasked (Nat.le_of_eq hstep.symm) hlt
      have hanswered : body.Answered (answers ++ [call.recorded]) := by
        rw [hanswers, List.append_assoc]
        refine .append hbefore ⟨(calls.map Call.request).map PendingRequest.digest, ?_⟩
        rw [hpending, List.map_append, hgiven, List.map_append, List.append_assoc]
        rfl
      have hsettled := ((StepLog.numbered_steps codec).mp h.numbered).steps_settleStep hopen
        hunknown call.outcome_ne_unknown call.now
      constructor
      · rw [hsettled, hstep]
        exact h.settle (hstep ▸ hopen) hdigest hanswered
      · intro journal' hok
        obtain ⟨hnumbered, hagree⟩ := settleCall_agree htracks.numbered hsteps hok
        obtain ⟨-, hlength', hcontinues⟩ := Journal.settleCall_length hok
        refine .settling before (given ++ [call.recorded]) (done ++ [call.request]) ?_ ?_ hbefore
          ?_ ?_ hagree
        · refine ⟨hcontinues.workflowId.trans htracks.workflowId, hnumbered, ?_⟩
          rw [List.length_append, List.length_singleton, hlength', hstep]
          exact Nat.le_max_right _ _
        · rw [hanswers, List.append_assoc]
        · rw [hpending, List.append_assoc]
          rfl
        · rw [List.map_append, List.map_append, hgiven]
          rfl

section Anywhere

variable {attach : ApertureRequest → Except String ApertureRequest} {log' : StepLog}
  {activity activity' : Activity Value} {sent : Option Sent}

theorem Advance.leaves
    (hadvance : Advance codec attach body workflow log activity sent log' activity')
    {x : Sent} (hx : x ∈ sent) : x.workflow = workflow ∧ x.row = log.row x.request.step := by
  cases hadvance with
  | send staged hleft hwire =>
      obtain rfl := Option.some.inj hx
      exact ⟨rfl, rfl⟩
  | _ => cases hx

theorem Advance.mem_rows
    (hadvance : Advance codec attach body workflow log activity sent log' activity')
    {r : ℕ × StepRow} (hr : r ∈ log.rows) (hsettled : r.2.state ≠ .unknown) : r ∈ log'.rows := by
  cases hadvance with
  | begin staged rest now => exact StepLog.mem_beginStep hr _ _ _ _ _
  | settle call calls hok => exact StepLog.mem_settleStep codec hr hsettled _ _ _
  | fail call calls herr => exact StepLog.mem_settleStep codec hr hsettled _ _ _
  | _ => exact hr

/-- A step of a workflow keeps its log sound and its run in step with the log. It adds
answers at the end, and what leaves is recorded. -/
theorem Advance.sound (hstable : body.Stable) (hcapped : body.Capped)
    (hadvance : Advance codec attach body workflow log activity sent log' activity')
    (h : Sound body answers (log.steps codec))
    (hfollows : Follows body workflow answers (log.steps codec) activity) :
    ∃ answers', answers <+: answers' ∧ Sound body answers' (log'.steps codec) ∧
      Follows body workflow answers' (log'.steps codec) activity' ∧
      ∀ x ∈ sent, x.Traced body answers' := by
  have hquiet : ∀ answers', ∀ x ∈ (none : Option Sent), x.Traced body answers' := by
    intro answers' x hx
    cases hx
  cases hadvance with
  | resume buildId hbuild =>
      obtain ⟨htracks, hsteps⟩ := Journal.Tracks.load h workflow buildId
      exact ⟨answers, List.prefix_rfl, h, .running htracks hsteps, hquiet _⟩
  | stop activity => exact ⟨answers, List.prefix_rfl, h, .idle, hquiet _⟩
  | pass pending hpass hprogress =>
      cases hfollows with
      | running htracks hsteps =>
          exact ⟨answers, List.prefix_rfl, h,
            .beginning [] htracks (h.staged hsteps.symm hpass) rfl hsteps, hquiet _⟩
  | begin staged rest now =>
      obtain ⟨h', hfollows'⟩ := h.advance_begin hcapped hfollows now
      exact ⟨answers, List.prefix_rfl, h', hfollows', hquiet _⟩
  | issue =>
      cases hfollows with
      | beginning done htracks hpending hdone hsteps =>
          rw [List.append_nil] at hdone
          exact ⟨answers, List.prefix_rfl, h,
            .sending htracks hpending (List.Subset.refl _) (hdone ▸ hsteps), hquiet _⟩
  | send staged hleft hwire =>
      have htraced := h.advance_send hstable hfollows hleft
      cases hfollows with
      | sending htracks hpending hsub hsteps =>
          refine ⟨answers, List.prefix_rfl, h,
            .sending htracks hpending (fun r hr => hsub (List.mem_of_mem_erase hr)) hsteps, ?_⟩
          intro x hx
          obtain rfl := Option.some.inj hx
          exact htraced _
  | refuse staged hleft =>
      cases hfollows with
      | sending htracks hpending hsub hsteps =>
          exact ⟨answers, List.prefix_rfl, h,
            .sending htracks hpending (fun r hr => hsub (List.mem_of_mem_erase hr)) hsteps, hquiet _⟩
  | answered calls hcalls =>
      cases hfollows with
      | sending htracks hpending hsub hsteps =>
          subst hcalls
          exact ⟨answers, List.prefix_rfl, h,
            .settling answers [] [] htracks (List.append_nil _).symm h.answered hpending rfl
              hsteps, hquiet _⟩
  | settle call calls hok =>
      obtain ⟨h', hfollows'⟩ := h.advance_settle hstable hfollows
      exact ⟨_, List.prefix_append _ _, h', hfollows' _ hok, hquiet _⟩
  | fail call calls herr =>
      obtain ⟨h', -⟩ := h.advance_settle hstable hfollows
      exact ⟨_, List.prefix_append _ _, h', .idle, hquiet _⟩
  | settled =>
      cases hfollows with
      | settling before given done htracks hanswers hbefore hpending hgiven hsteps =>
          exact ⟨answers, List.prefix_rfl, h, .running htracks hsteps, hquiet _⟩

end Anywhere

end Step

end Albedo.Aperture
