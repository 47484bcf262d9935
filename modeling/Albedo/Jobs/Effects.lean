import Albedo.Forge.Atomicity
import Albedo.Jobs.Queue
import Albedo.Jobs.Schedule
import Albedo.Library.Trim

/-!
# What a job body leaves behind

A body records its effects, and the runner applies them when it has returned: the durable writes
in one transaction, then the new queue rows one by one, each after its own checks. An error on the
way is recorded as a failure, and the row runs again.
-/
namespace Albedo.Jobs
open Json (Value)

/-! ### What may be queued -/

inductive Builtin where
  | expireSessions
  | sendEmail

def Builtin.all : List Builtin := [.expireSessions, .sendEmail]

def Builtin.name : Builtin → String
  | .expireSessions => "albedo:expire_sessions"
  | .sendEmail => "albedo:send_email"

def Builtin.maxAttempts : Builtin → UInt32
  | .expireSessions => 3
  | .sendEmail => 13

/-- Whether app code may put this on the queue. -/
def Builtin.isEnqueueable : Builtin → Bool
  | .sendEmail => true
  | .expireSessions => false

def Builtin.fromName (name : String) : Option Builtin :=
  Builtin.all.find? fun builtin => builtin.name = name

/-- One call of `enqueue`, as a body records it. -/
structure EnqueueIntent where
  name : String
  args : Value
  id : Option String
  delay : Option String

/-- The jobs an app declares with the attempts each gets, and whether it sends mail. -/
structure JobHandle where
  decl : Option (List (String × UInt32))
  email : Bool

def JobHandle.maxAttemptsFor (handle : JobHandle) (name : String) : Option UInt32 :=
  handle.decl.bind fun decl => decl.lookup name

/-- Read an argument as a message, and write a message as the argument of a row. -/
structure MailRules (Message : Type) where
  fromAuthored : Value → Except String Message
  encode : Message → Except String String

/-- What one row hears from outside: a random number for its id, whether the uploads attached to a
message may be sent, and whether the insert is refused. -/
structure Answer (Message : Type) where
  draw : UInt64
  attachments : Option String → Message → Except String Unit
  refusal : Option String

variable {Message : Type}

/-- The attempts a row gets, and its argument. -/
def EnqueueIntent.job (intent : EnqueueIntent) (mail : MailRules Message) (handle : JobHandle)
    (answer : Answer Message) (principal : Option String) : Except String (UInt32 × String) :=
  match Builtin.fromName intent.name with
  | some builtin =>
      if builtin.isEnqueueable then
        if handle.email then do
          let message ← (mail.fromAuthored intent.args).mapError fun err => "sendEmail(): " ++ err
          answer.attachments principal message
          let args ← mail.encode message
          return (builtin.maxAttempts, args)
        else
          .error ("sendEmail() needs an `email` block in albedo.config — e.g. " ++
            "`email: \x7b from: \"App <no-reply@example.com>\", provider: \"log\" \x7d` " ++
            "for local development")
      else .error s!"enqueue('{intent.name}') names a framework job that runs on its own schedule"
  | none =>
      match handle.maxAttemptsFor intent.name with
      | some maxAttempts => .ok (maxAttempts, String.ofList intent.args.encode)
      | none => .error s!"enqueue('{intent.name}') names a job that src/jobs.ts does not declare"

def unitMs (unit : String) : Option ℤ :=
  if unit = "ms" then some 1
  else if unit ∈ ["s", "sec", "secs", "second", "seconds"] then some 1000
  else if unit ∈ ["m", "min", "mins", "minute", "minutes"] then some 60000
  else if unit ∈ ["h", "hr", "hrs", "hour", "hours"] then some 3600000
  else if unit ∈ ["d", "day", "days"] then some 86400000
  else none

def decimal (digits : List Char) : ℕ := digits.foldl (fun n c => 10 * n + (c.toNat - 48)) 0

def parseDelayMs (value : String) : Option ℤ := do
  let value := Trim.trim value.toList
  let number := value.takeWhile Char.isDigit
  let unit := value.dropWhile Char.isDigit
  guard (number ≠ [] ∧ unit ≠ [])
  let number ← checked (decimal number)
  let scale ← unitMs (String.ofList (Trim.trim unit))
  checked (number * scale)

def EnqueueIntent.delayMs (intent : EnqueueIntent) : Except String ℤ :=
  match intent.delay with
  | none => .ok 0
  | some written =>
      match parseDelayMs written with
      | some delay => .ok delay
      | none =>
          .error (s!"enqueue('{intent.name}') has an unreadable delay `{written}`; write a " ++
            "number and a unit, like \"30s\" or \"5m\"")

def hex16 (n : UInt64) : String := String.ofList ((Nat.toDigits 16 n.toNat).leftpad 16 '0')

def EnqueueIntent.request (intent : EnqueueIntent) (mail : MailRules Message) (handle : JobHandle)
    (answer : Answer Message) (principal : Option String) (now : ℤ) : Except String Enqueue := do
  let (maxAttempts, args) ← intent.job mail handle answer principal
  let delay ← intent.delayMs
  return {
    id := intent.id.getD (intent.name ++ ":" ++ hex16 answer.draw)
    name := intent.name
    args := args
    principal := principal
    runAt := saturatingAdd now delay
    maxAttempts := maxAttempts
    fanout := false }

def writeEnqueue (mail : MailRules Message) (handle : JobHandle) (answer : Answer Message)
    (intent : EnqueueIntent) (principal : Option String) (now : ℤ) (jobs : Table) :
    Except String Unit × Table :=
  match intent.request mail handle answer principal now with
  | .error message => (.error message, jobs)
  | .ok request =>
      match answer.refusal with
      | some err => (.error s!"enqueue('{intent.name}') failed: {err}", jobs)
      | none => (.ok (), (jobs.enqueue request).2)

/-! ### Applying what was recorded -/

inductive HandlerEffect where
  | slotSet (slotId : UInt64) (value : List UInt8)
  | broadcast (topic : String) (slotId : UInt64) (value : List UInt8)
  | forgeAppend (collection : String) (record : Forge.Record)
  | forgeUpdate (collection : String) (key : Value) (fields : Forge.Record)
  | forgeDelete (collection : String) (key : Value)
  | enqueue (intent : EnqueueIntent)

/-- The durable writes and the new rows, each in the order they were recorded. -/
structure Recorded where
  writes : List Forge.ForgeWrite
  enqueues : List EnqueueIntent

def recorded : List HandlerEffect → Except String Recorded
  | [] => .ok ⟨[], []⟩
  | .slotSet _ _ :: _ | .broadcast _ _ _ :: _ =>
      .error "recorded a slot effect, which a job body has no way to produce"
  | .forgeAppend collection record :: effects => do
      let rest ← recorded effects
      return { rest with writes := .append collection record :: rest.writes }
  | .forgeUpdate collection key fields :: effects => do
      let rest ← recorded effects
      return { rest with writes := .update collection key fields :: rest.writes }
  | .forgeDelete collection key :: effects => do
      let rest ← recorded effects
      return { rest with writes := .delete collection key :: rest.writes }
  | .enqueue intent :: effects => do
      let rest ← recorded effects
      return { rest with enqueues := intent :: rest.enqueues }

/-- How applying ends, when it does not succeed. -/
inductive Ended where
  | failed (message : String)
  | panicked
  deriving DecidableEq

/-- The data and its topics, and the queue. -/
structure Site where
  world : Forge.World
  jobs : Table

structure JobRunner (Message : Type) where
  schema : Forge.ForgeSchema
  handle : JobHandle
  mail : MailRules Message

/-- One attempt: the row that was claimed, what its body came to, the substrate and the topics it
is applied through, and where it begins. -/
structure Attempt (Message : Type) where
  job : ClaimedJob
  ran : Except String (List HandlerEffect)
  substrate : Forge.Substrate
  wire : Broadcast.Wire
  projector : Option Forge.RowProjector
  answers : ℕ → Answer Message
  now : ℤ
  jitter : ℤ → ℤ
  before : Site

def ClaimedJob.actor (job : ClaimedJob) : Except String (Option Forge.PrincipalId) :=
  match job.principal with
  | none => .ok none
  | some raw =>
      if h : Broadcast.isValidPartitionKey raw = true then .ok (some ⟨raw, h⟩)
      else
        .error (s!"the row's principal is unusable: `{raw}` is not a usable principal id — " ++
          "an id becomes a topic namespace the moment a component reads `user.id`, so it must " ++
          "match [A-Za-z0-9_-]\x7b1,64\x7d. A provider's own subject (Auth0's " ++
          "`google-oauth2|…`, an email address) does not qualify and is never the id: store it " ++
          "on the `accounts` row and mint a principal id beside it")

def Attempt.write (a : Attempt Message) (runner : JobRunner Message)
    (writes : List Forge.ForgeWrite) : Except Ended Unit × Forge.World :=
  if writes = [] then (.ok (), a.before.world)
  else
    match a.job.actor with
    | .error message => (.error (.failed message), a.before.world)
    | .ok principal =>
        let outcome := Forge.applyWrites a.substrate a.wire runner.schema writes a.projector
          principal a.before.world
        match outcome.result with
        | .ok _ => (.ok (), outcome.world)
        | .error (.error err) =>
            (.error (.failed s!"FORGE write failed: {err.message}"), outcome.world)
        | .error .panicked => (.error .panicked, outcome.world)

/-- The new rows, one by one. They inherit the principal of the run. -/
def writeEnqueues (runner : JobRunner Message) (principal : Option String) (now : ℤ) :
    (ℕ → Answer Message) → List EnqueueIntent → Table → Except Ended Unit × Table
  | _, [], jobs => (.ok (), jobs)
  | answers, intent :: rest, jobs =>
      match writeEnqueue runner.mail runner.handle (answers 0) intent principal now jobs with
      | (.error message, jobs) => (.error (.failed message), jobs)
      | (.ok (), jobs) =>
          writeEnqueues runner principal now (fun n => answers (n + 1)) rest jobs

def Attempt.applyEffects (a : Attempt Message) (runner : JobRunner Message)
    (effects : List HandlerEffect) : Except Ended Unit × Site :=
  match recorded effects with
  | .error message => (.error (.failed message), a.before)
  | .ok recorded =>
      match a.write runner recorded.writes with
      | (.error ended, world) => (.error ended, { a.before with world := world })
      | (.ok (), world) =>
          let (result, jobs) := writeEnqueues runner a.job.principal a.now a.answers
            recorded.enqueues a.before.jobs
          (result, ⟨world, jobs⟩)

def Attempt.outcome (a : Attempt Message) (runner : JobRunner Message) : Except Ended Unit × Site :=
  match a.ran with
  | .error message => (.error (.failed message), a.before)
  | .ok effects => a.applyEffects runner effects

def Attempt.execute (a : Attempt Message) (runner : JobRunner Message) : Site :=
  match a.outcome runner with
  | (.ok (), site) => { site with jobs := site.jobs.complete a.job.id a.now }
  | (.error (.failed message), site) =>
      { site with jobs := (site.jobs.fail a.job a.now message a.jitter).2 }
  | (.error .panicked, site) => site

/-! ### What an attempt leaves -/

def Attempt.Applied (a : Attempt Message) (runner : JobRunner Message) : Prop :=
  ¬ ((a.outcome runner).2.world.db = a.before.world.db ∧ (a.outcome runner).2.jobs = a.before.jobs)

def Attempt.Atomic (a : Attempt Message) (runner : JobRunner Message) : Prop :=
  ∀ message, (a.outcome runner).1 = .error (.failed message) → ¬ a.Applied runner

/-- The row is written: its checks pass, and the insert is not refused. -/
def EnqueueIntent.Accepted (intent : EnqueueIntent) (runner : JobRunner Message)
    (answer : Answer Message) (principal : Option String) (now : ℤ) (request : Enqueue) : Prop :=
  intent.request runner.mail runner.handle answer principal now = .ok request ∧
    answer.refusal = none

def AllAccepted (runner : JobRunner Message) (principal : Option String) (now : ℤ) :
    (ℕ → Answer Message) → List EnqueueIntent → Prop
  | _, [] => True
  | answers, intent :: rest =>
      (∃ request, intent.Accepted runner (answers 0) principal now request) ∧
        AllAccepted runner principal now (fun n => answers (n + 1)) rest

/-- Every row that is written ahead of the first that is not is on the queue already. -/
def NoneNew (runner : JobRunner Message) (principal : Option String) (now : ℤ) (jobs : Table) :
    (ℕ → Answer Message) → List EnqueueIntent → Prop
  | _, [] => True
  | answers, intent :: rest =>
      ∀ request, intent.Accepted runner (answers 0) principal now request →
        (∃ row, jobs.lookup request.id = some row) ∧
          NoneNew runner principal now jobs (fun n => answers (n + 1)) rest

/-- Writes are committed, with what they touch: there are none, or their actor can be read and
their transaction goes through. -/
def Attempt.Commits (a : Attempt Message) (runner : JobRunner Message)
    (writes : List Forge.ForgeWrite) (touched : List Forge.Touched) (db : Forge.Db) : Prop :=
  writes = [] ∧ touched = [] ∧ db = a.before.world.db ∨
    writes ≠ [] ∧ ∃ principal, a.job.actor = .ok principal ∧
      Forge.commitWrites a.substrate runner.schema writes principal a.before.world.db =
        .ok (touched, db)

/-- Where the writes are committed, all that follows goes through as well; or the writes changed
nothing, and neither does a row that is written ahead of what is refused. -/
def Attempt.Foreseen (a : Attempt Message) (runner : JobRunner Message) : Prop :=
  ∀ effects plan touched db, a.ran = .ok effects → recorded effects = .ok plan →
    a.Commits runner plan.writes touched db →
    Forge.ReadsSucceed a.substrate db a.before.world.broadcast touched ∧
        AllAccepted runner a.job.principal a.now a.answers plan.enqueues ∨
      db = a.before.world.db ∧
        (Forge.ReadsSucceed a.substrate db a.before.world.broadcast touched →
          NoneNew runner a.job.principal a.now a.before.jobs a.answers plan.enqueues)

section
variable {runner : JobRunner Message} {principal : Option String} {now : ℤ}
variable {answers : ℕ → Answer Message} {intents : List EnqueueIntent} {jobs : Table}

theorem writeEnqueue_cases (runner : JobRunner Message) (answer : Answer Message)
    (intent : EnqueueIntent) (principal : Option String) (now : ℤ) (jobs : Table) :
    (∃ request, intent.Accepted runner answer principal now request ∧
      writeEnqueue runner.mail runner.handle answer intent principal now jobs =
        (.ok (), (jobs.enqueue request).2)) ∨
    (∀ request, ¬ intent.Accepted runner answer principal now request) ∧
      ∃ message, writeEnqueue runner.mail runner.handle answer intent principal now jobs =
        (.error message, jobs) := by
  unfold writeEnqueue EnqueueIntent.Accepted
  cases hrequest : intent.request runner.mail runner.handle answer principal now with
  | error message => exact Or.inr ⟨fun request h => (nomatch h.1), message, rfl⟩
  | ok request =>
      cases hrefusal : answer.refusal with
      | some err => exact Or.inr ⟨fun request h => (nomatch h.2), _, rfl⟩
      | none => exact Or.inl ⟨request, ⟨rfl, rfl⟩, rfl⟩

theorem EnqueueIntent.Accepted.unique {intent : EnqueueIntent} {answer : Answer Message}
    {request request' : Enqueue} (h : intent.Accepted runner answer principal now request)
    (h' : intent.Accepted runner answer principal now request') : request = request' :=
  Except.ok.inj (h.1.symm.trans h'.1)

theorem Table.enqueue_present {request : Enqueue} {row : JobRow}
    (h : jobs.lookup request.id = some row) : (jobs.enqueue request).2 = jobs := by
  unfold Table.enqueue
  rw [h]

theorem writeEnqueues_lookup (runner : JobRunner Message) (principal : Option String) (now : ℤ)
    (answers : ℕ → Answer Message) (intents : List EnqueueIntent) {x : String} {row : JobRow}
    (h : jobs.lookup x = some row) :
    (writeEnqueues runner principal now answers intents jobs).2.lookup x = some row := by
  induction intents generalizing answers jobs with
  | nil => exact h
  | cons intent rest ih =>
      unfold writeEnqueues
      obtain ⟨request, -, hwrite⟩ | ⟨-, message, hwrite⟩ :=
        writeEnqueue_cases runner (answers 0) intent principal now jobs
      · rw [hwrite]
        refine ih _ ?_
        rw [Table.lookup_enqueue, if_neg fun hx => ?_, h]
        rw [← hx.1, h] at hx
        exact nomatch hx.2
      · rw [hwrite]
        exact h

theorem writeEnqueues_ok_iff (jobs : Table) :
    (writeEnqueues runner principal now answers intents jobs).1 = .ok () ↔
      AllAccepted runner principal now answers intents := by
  induction intents generalizing answers jobs with
  | nil => exact iff_of_true rfl trivial
  | cons intent rest ih =>
      unfold writeEnqueues AllAccepted
      obtain ⟨request, haccepted, hwrite⟩ | ⟨hrefused, message, hwrite⟩ :=
        writeEnqueue_cases runner (answers 0) intent principal now jobs
      · rw [hwrite]
        exact (ih _).trans ⟨fun h => ⟨⟨request, haccepted⟩, h⟩, And.right⟩
      · rw [hwrite]
        exact iff_of_false (fun h => nomatch h) fun ⟨⟨request, h⟩, _⟩ => hrefused request h

theorem writeEnqueues_not_panicked (runner : JobRunner Message) (principal : Option String)
    (now : ℤ) (answers : ℕ → Answer Message) (intents : List EnqueueIntent) (jobs : Table) :
    (writeEnqueues runner principal now answers intents jobs).1 ≠ .error .panicked := by
  induction intents generalizing answers jobs with
  | nil => exact fun h => nomatch h
  | cons intent rest ih =>
      unfold writeEnqueues
      obtain ⟨request, -, hwrite⟩ | ⟨-, message, hwrite⟩ :=
        writeEnqueue_cases runner (answers 0) intent principal now jobs
      · rw [hwrite]
        exact ih _ _
      · rw [hwrite]
        exact fun h => nomatch h

theorem writeEnqueues_same_iff :
    (writeEnqueues runner principal now answers intents jobs).2 = jobs ↔
      NoneNew runner principal now jobs answers intents := by
  induction intents generalizing answers with
  | nil => exact iff_of_true rfl trivial
  | cons intent rest ih =>
      unfold writeEnqueues NoneNew
      obtain ⟨request, haccepted, hwrite⟩ | ⟨hrefused, message, hwrite⟩ :=
        writeEnqueue_cases runner (answers 0) intent principal now jobs
      · rw [hwrite]
        dsimp only
        cases hrow : jobs.lookup request.id with
        | some row =>
            rw [Table.enqueue_present hrow, ih]
            constructor
            · intro h request' haccepted'
              obtain rfl := haccepted.unique haccepted'
              exact ⟨⟨row, hrow⟩, h⟩
            · exact fun h => (h request haccepted).2
        | none =>
            -- the new row is still there at the end
            refine iff_of_false (fun h => ?_) fun h => ?_
            · have hfresh : (jobs.enqueue request).2.lookup request.id = some request.row := by
                rw [Table.lookup_enqueue, if_pos ⟨rfl, hrow⟩]
              have hkept := writeEnqueues_lookup runner principal now
                (fun n => answers (n + 1)) rest hfresh
              rw [h, hrow] at hkept
              cases hkept
            · obtain ⟨⟨row, hpresent⟩, -⟩ := h request haccepted
              rw [hrow] at hpresent
              cases hpresent
      · rw [hwrite]
        exact iff_of_true rfl fun request h => absurd h (hrefused request)

end

section
variable {runner : JobRunner Message} {a : Attempt Message} {writes : List Forge.ForgeWrite}
variable {touched touched' : List Forge.Touched} {db db' : Forge.Db}

theorem Attempt.Commits.unique (h : a.Commits runner writes touched db)
    (h' : a.Commits runner writes touched' db') : touched = touched' ∧ db = db' := by
  obtain ⟨rfl, rfl, rfl⟩ | ⟨hne, principal, hactor, hcommit⟩ := h
  · obtain ⟨-, rfl, rfl⟩ | ⟨hne, -⟩ := h'
    · exact ⟨rfl, rfl⟩
    · exact absurd rfl hne
  · obtain ⟨hnil, -⟩ | ⟨-, principal', hactor', hcommit'⟩ := h'
    · exact absurd hnil hne
    · obtain rfl := Except.ok.inj (hactor.symm.trans hactor')
      have heq := Except.ok.inj (hcommit.symm.trans hcommit')
      exact ⟨congrArg Prod.fst heq, congrArg Prod.snd heq⟩

inductive Attempt.Wrote (a : Attempt Message) (runner : JobRunner Message)
    (writes : List Forge.ForgeWrite) : Except Ended Unit × Forge.World → Prop
  | refused (message : String) (hnone : ∀ touched db, ¬ a.Commits runner writes touched db) :
      a.Wrote runner writes (.error (.failed message), a.before.world)
  | panicked (hnone : ∀ touched db, ¬ a.Commits runner writes touched db) :
      a.Wrote runner writes (.error .panicked, a.before.world)
  | unread (message : String) {touched : List Forge.Touched} (world : Forge.World)
      (hcommits : a.Commits runner writes touched world.db)
      (hreads : ¬ Forge.ReadsSucceed a.substrate world.db a.before.world.broadcast touched) :
      a.Wrote runner writes (.error (.failed message), world)
  | done {touched : List Forge.Touched} (world : Forge.World)
      (hcommits : a.Commits runner writes touched world.db)
      (hreads : Forge.ReadsSucceed a.substrate world.db a.before.world.broadcast touched) :
      a.Wrote runner writes (.ok (), world)

theorem Attempt.write_wrote (a : Attempt Message) (runner : JobRunner Message)
    (writes : List Forge.ForgeWrite) (hd : runner.schema.Deployed a.before.world.db) :
    a.Wrote runner writes (a.write runner writes) := by
  unfold Attempt.write
  by_cases hnil : writes = []
  · rw [if_pos hnil]
    exact .done _ (Or.inl ⟨hnil, rfl, rfl⟩) fun t ht => by cases ht
  rw [if_neg hnil]
  cases hactor : a.job.actor with
  | error message =>
      refine .refused message fun touched db h => ?_
      obtain ⟨h, -⟩ | ⟨-, principal, h, -⟩ := h
      · exact hnil h
      · exact nomatch hactor.symm.trans h
  | ok principal =>
      dsimp only
      unfold Forge.applyWrites
      rw [if_neg hnil]
      cases hcommit : Forge.commitWrites a.substrate runner.schema writes principal
          a.before.world.db with
      | error failure =>
          have hnone : ∀ touched db, ¬ a.Commits runner writes touched db := by
            rintro touched db (⟨h, -⟩ | ⟨-, principal', h, hcommit'⟩)
            · exact hnil h
            · obtain rfl := Except.ok.inj (hactor.symm.trans h)
              exact nomatch hcommit.symm.trans hcommit'
          cases failure with
          | panicked => exact .panicked hnone
          | error err => exact .refused _ hnone
      | ok committed =>
          obtain ⟨touched, db⟩ := committed
          have hcommits : a.Commits runner writes touched db :=
            Or.inr ⟨hnil, principal, hactor, hcommit⟩
          obtain ⟨-, hran⟩ := Forge.commitWrites_ran hd hcommit
          have hspec := Forge.fanOut_spec a.substrate a.wire a.projector db
            (hran.channels_nodup (by simp)) a.before.world.broadcast
          dsimp only
          cases hresult : Forge.fanOut a.substrate a.wire a.projector db
              a.before.world.broadcast touched with
          | mk published rest =>
              obtain ⟨broadcast, err⟩ := rest
              rw [hresult] at hspec
              have hreads := hspec.error.trans Forge.readsSucceed_iff.symm
              cases err with
              | some err => exact .unread _ _ hcommits fun h => nomatch hreads.mpr h
              | none => exact .done _ hcommits (hreads.mp rfl)

theorem Attempt.foreseen_iff_of_commits {effects : List HandlerEffect} {plan : Recorded}
    (hran : a.ran = .ok effects) (hplan : recorded effects = .ok plan)
    (hcommits : a.Commits runner plan.writes touched db) : a.Foreseen runner ↔
      Forge.ReadsSucceed a.substrate db a.before.world.broadcast touched ∧
          AllAccepted runner a.job.principal a.now a.answers plan.enqueues ∨
        db = a.before.world.db ∧
          (Forge.ReadsSucceed a.substrate db a.before.world.broadcast touched →
            NoneNew runner a.job.principal a.now a.before.jobs a.answers plan.enqueues) := by
  refine ⟨fun h => h effects plan touched db hran hplan hcommits, ?_⟩
  intro h effects' plan' touched' db' hran' hplan' hcommits'
  obtain rfl := Except.ok.inj (hran.symm.trans hran')
  obtain rfl := Except.ok.inj (hplan.symm.trans hplan')
  obtain ⟨rfl, rfl⟩ := hcommits.unique hcommits'
  exact h

theorem Attempt.foreseen_of_none {effects : List HandlerEffect} {plan : Recorded}
    (hran : a.ran = .ok effects) (hplan : recorded effects = .ok plan)
    (hnone : ∀ touched db, ¬ a.Commits runner plan.writes touched db) : a.Foreseen runner := by
  intro effects' plan' touched db hran' hplan' hcommits
  obtain rfl := Except.ok.inj (hran.symm.trans hran')
  obtain rfl := Except.ok.inj (hplan.symm.trans hplan')
  exact absurd hcommits (hnone touched db)

theorem Attempt.atomic_iff_foreseen (hd : runner.schema.Deployed a.before.world.db) :
    a.Atomic runner ↔ a.Foreseen runner := by
  unfold Attempt.Atomic Attempt.Applied Attempt.outcome
  cases hran : a.ran with
  | error message =>
      refine iff_of_true (fun _ _ happlied => happlied ⟨rfl, rfl⟩) ?_
      exact fun effects _ _ _ h => nomatch hran.symm.trans h
  | ok effects =>
      unfold Attempt.applyEffects
      dsimp only
      cases hplan : recorded effects with
      | error message =>
          refine iff_of_true (fun _ _ happlied => happlied ⟨rfl, rfl⟩) ?_
          intro effects' plan touched db hran' hplan'
          obtain rfl := Except.ok.inj (hran.symm.trans hran')
          exact nomatch hplan.symm.trans hplan'
      | ok plan =>
          dsimp only
          have hwrote := a.write_wrote runner plan.writes hd
          generalize a.write runner plan.writes = result at hwrote
          cases hwrote with
          | refused message hnone =>
              exact iff_of_true (fun _ _ happlied => happlied ⟨rfl, rfl⟩)
                (a.foreseen_of_none hran hplan hnone)
          | panicked hnone =>
              exact iff_of_true (fun _ h => nomatch h) (a.foreseen_of_none hran hplan hnone)
          | unread message world hcommits hreads =>
              rw [a.foreseen_iff_of_commits hran hplan hcommits]
              constructor
              · intro h
                have hsame := not_not.mp (h message rfl)
                exact Or.inr ⟨hsame.1, fun hread => absurd hread hreads⟩
              · rintro (⟨hread, -⟩ | ⟨hdb, -⟩)
                · exact absurd hread hreads
                · exact fun _ _ happlied => happlied ⟨hdb, rfl⟩
          | done world hcommits hreads =>
              rw [a.foreseen_iff_of_commits hran hplan hcommits,
                ← writeEnqueues_ok_iff a.before.jobs, ← writeEnqueues_same_iff]
              dsimp only
              have hpanic := writeEnqueues_not_panicked runner a.job.principal a.now a.answers
                plan.enqueues a.before.jobs
              generalize writeEnqueues runner a.job.principal a.now a.answers plan.enqueues
                a.before.jobs = written at hpanic
              obtain ⟨result, jobs⟩ := written
              cases result with
              | ok done => exact iff_of_true (fun _ h => nomatch h) (Or.inl ⟨hreads, rfl⟩)
              | error ended =>
                  cases ended with
                  | panicked => exact absurd rfl hpanic
                  | failed message =>
                      constructor
                      · intro h
                        have hsame := not_not.mp (h message rfl)
                        exact Or.inr ⟨hsame.1, fun _ => hsame.2⟩
                      · rintro (⟨-, hok⟩ | ⟨hdb, hjobs⟩)
                        · exact nomatch hok
                        · exact fun _ _ happlied => happlied ⟨hdb, hjobs hreads⟩

/-! ### Attempt after attempt -/

/-- The life of one row: attempts at it, each claimed and recorded, between all that happens
elsewhere. Of a claim that is lost nothing is recorded, whatever its body did. -/
inductive Attempts (runner : JobRunner Message) (id : String) :
    Site → List (Attempt Message) → Site → Prop where
  | begin {site : Site} : Attempts runner id site [] site
  | elsewhere {site site' site'' : Site} {attempts : List (Attempt Message)}
      (h : Attempts runner id site attempts site')
      (hrow : site''.jobs.lookup id = site'.jobs.lookup id) :
      Attempts runner id site attempts site''
  | lost {site site' : Site} {attempts : List (Attempt Message)} {now lease : ℤ}
      {tie : String → ℕ} {job : ClaimedJob} {claimed : Table}
      (h : Attempts runner id site attempts site')
      (hclaim : site'.jobs.claimDue now lease tie = (some job, claimed)) :
      Attempts runner id site attempts { site' with jobs := claimed }
  | attempt {site site' : Site} {attempts : List (Attempt Message)} {now lease : ℤ}
      {tie : String → ℕ} {claimed : Table} {a : Attempt Message}
      (h : Attempts runner id site attempts site')
      (hclaim : site'.jobs.claimDue now lease tie = (some a.job, claimed)) (hid : a.job.id = id)
      (hbefore : a.before.jobs.lookup id = claimed.lookup id)
      (hrecorded : (a.outcome runner).1 ≠ .error .panicked) :
      Attempts runner id site (attempts ++ [a]) (a.execute runner)

theorem Attempt.outcome_lookup (a : Attempt Message) (runner : JobRunner Message) {x : String}
    {row : JobRow} (h : a.before.jobs.lookup x = some row) :
    (a.outcome runner).2.jobs.lookup x = some row := by
  unfold Attempt.outcome Attempt.applyEffects
  cases a.ran with
  | error message => exact h
  | ok effects =>
      dsimp only
      cases recorded effects with
      | error message => exact h
      | ok plan =>
          dsimp only
          cases hwrite : a.write runner plan.writes with
          | mk result world =>
              cases result with
              | error ended => exact h
              | ok done =>
                  exact writeEnqueues_lookup runner a.job.principal a.now a.answers
                    plan.enqueues h

theorem Attempt.execute_cases (a : Attempt Message) (runner : JobRunner Message) {row : JobRow}
    (hrow : a.before.jobs.lookup a.job.id = some row)
    (hrecorded : (a.outcome runner).1 ≠ .error .panicked) :
    (∃ message, (a.outcome runner).1 = .error (.failed message)) ∨
      ∃ row', (a.execute runner).jobs.lookup a.job.id = some row' ∧ row'.state = .done := by
  have hkept := a.outcome_lookup runner hrow
  unfold Attempt.execute
  generalize a.outcome runner = outcome at hkept hrecorded
  obtain ⟨result, site⟩ := outcome
  cases result with
  | error ended =>
      cases ended with
      | panicked => exact absurd rfl hrecorded
      | failed message => exact Or.inl ⟨message, rfl⟩
  | ok done =>
      refine Or.inr ⟨row.complete a.now, ?_, rfl⟩
      dsimp only at hkept ⊢
      unfold Table.complete
      rw [Table.lookup_update, if_pos rfl, hkept]
      rfl

theorem Attempts.failed_or_done {id : String} {site site' : Site}
    {attempts : List (Attempt Message)} (h : Attempts runner id site attempts site') :
    (∀ a ∈ attempts, ∃ message, (a.outcome runner).1 = .error (.failed message)) ∨
      ∃ row, site'.jobs.lookup id = some row ∧ row.state = .done := by
  induction h with
  | begin => exact Or.inl fun _ ha => nomatch ha
  | elsewhere h hrow ih => rwa [hrow]
  | lost h hclaim ih =>
      refine ih.imp_right ?_
      rintro ⟨row, hrow, hdone⟩
      obtain ⟨claimed, -, hlook, hrunnable, -, rfl⟩ := Table.claimDue_some hclaim
      refine ⟨row, ?_, hdone⟩
      rw [Table.lookup_insert_eq, if_neg fun hx => ?_, hrow]
      -- a row that is done is not claimed
      rw [hx, hlook] at hrow
      obtain rfl := Option.some.inj hrow
      rw [JobRow.not_runnable (Or.inl hdone)] at hrunnable
      cases hrunnable
  | @attempt site' attempts now lease tie claimed a h hclaim hid hbefore hrecorded ih =>
      subst hid
      obtain ⟨row, -, hlook, hrunnable, -, rfl⟩ := Table.claimDue_some hclaim
      rw [Table.lookup_insert_eq, if_pos rfl] at hbefore
      refine (a.execute_cases runner hbefore hrecorded).imp_left fun hfailed => ?_
      refine List.forall_mem_append.mpr ⟨ih.resolve_right ?_, by simpa using hfailed⟩
      rintro ⟨row', hrow', hdone⟩
      obtain rfl := Option.some.inj (hlook.symm.trans hrow')
      rw [JobRow.not_runnable (Or.inl hdone)] at hrunnable
      cases hrunnable

theorem Attempts.applied_once {id : String} {site site' : Site}
    {attempts : List (Attempt Message)} (h : Attempts runner id site attempts site')
    (hatomic : ∀ a ∈ attempts, a.Atomic runner) :
    attempts.Pairwise fun a b => ¬ (a.Applied runner ∧ b.Applied runner) := by
  induction h with
  | begin => exact List.Pairwise.nil
  | elsewhere h hrow ih => exact ih hatomic
  | lost h hclaim ih => exact ih hatomic
  | @attempt site' attempts now lease tie claimed a h hclaim hid hbefore hrecorded ih =>
      obtain ⟨hbefore', -⟩ := List.forall_mem_append.mp hatomic
      refine List.pairwise_append.mpr ⟨ih hbefore', List.pairwise_singleton _ _, ?_⟩
      intro b hb c hc hboth
      have hfailed := h.failed_or_done.resolve_right ?_
      · obtain ⟨message, hmessage⟩ := hfailed b hb
        exact hbefore' b hb message hmessage hboth.1
      · rintro ⟨row', hrow', hdone⟩
        subst hid
        obtain ⟨row, -, hlook, hrunnable, -, -⟩ := Table.claimDue_some hclaim
        obtain rfl := Option.some.inj (hlook.symm.trans hrow')
        rw [JobRow.not_runnable (Or.inl hdone)] at hrunnable
        cases hrunnable

end

def greeter : JobRunner Unit where
  schema := Forge.guestbookSchema
  handle := ⟨some [("greet", 3)], false⟩
  mail := ⟨fun _ => .error "no message", fun _ => .error "no message"⟩

/-- A body that signs the guestbook, and queues a job whose name it gets wrong. -/
def misspelt : Attempt Unit where
  job := ⟨"1", "greet", "{}", none, 1, 3, none, false⟩
  ran := .ok [.forgeAppend "guestbook" (.single "author" (.string "ada")),
    .enqueue ⟨"gret", .null, none, none⟩]
  substrate := .plain
  wire := .plain
  projector := none
  answers := fun _ => ⟨0, fun _ _ => .ok (), none⟩
  now := 0
  jitter := id
  before := ⟨.quiet Forge.guestbookDb, ∅⟩

end Albedo.Jobs
