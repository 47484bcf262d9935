import Mathlib.Data.Finset.Sort
import Mathlib.Logic.Function.Basic
import Mathlib.Logic.Relation
import Albedo.Forge.Statement
import Albedo.Jobs.Queue

/-!
# Runners on one queue

Any number of runners drain one queue, each on its own clock. A runner claims a row and
runs its body, or expands it a page of principals at a time; it reports once, or dies
first. Every statement is one step, so runners interleave between any two of them. A
statement the substrate refuses leaves the queue as it was: the runner goes on as if it
had died there, and only a refused child is passed over.
-/
namespace Albedo.Jobs
open Forge

/-! ### States -/

abbrev RunnerId := ℕ

def principalsAfter (users : Finset String) (after : Option String) (limit : ℕ) : List String :=
  ((users.filter fun p => after.getD "" < p).sort).take limit

/-- A claim as its runner holds it: the job, the lease it was given, and which claim of its
row it is. -/
structure Hold where
  job : ClaimedJob
  leaseUntil : ℤ
  ticket : ℕ

/-- What a runner is doing: nothing, what it claimed, or the children of a page. -/
inductive Activity where
  | idle
  | holding (hold : Hold)
  | inserting (hold : Hold) (exhausted : Bool) (last : Option String) (rest : List String)

def Activity.hold : Activity → Option Hold
  | .idle => none
  | .holding hold => some hold
  | .inserting hold _ _ _ => some hold

structure Runner where
  clock : ℤ
  activity : Activity

/-- What happened so far. No runner reads it. -/
structure Log where
  /-- How often each row was handed out. -/
  claims : String → ℕ
  /-- The rows that were put on the queue to be expanded. -/
  fires : List String
  /-- The principals that were there all the time since a row was first handed out. -/
  steady : String → Finset String
  /-- The rows that expansions inserted, by fire and principal. -/
  inserted : List (String × String)

structure World where
  jobs : Table
  users : Finset String
  runners : RunnerId → Runner
  log : Log

def Log.empty : Log := ⟨fun _ => 0, [], fun _ => ∅, []⟩

structure World.Fresh (w : World) : Prop where
  jobs : w.jobs = ∅
  users : w.users = ∅
  idle : ∀ r, (w.runners r).activity = .idle
  log : w.log = .empty

def Log.enqueued (log : Log) (jobs : Table) (request : Enqueue) : Log :=
  { log with
    fires := if jobs.lookup request.id = none ∧ request.fanout = true then request.id :: log.fires
      else log.fires }

def Log.deleted (log : Log) (principal : String) : Log :=
  { log with steady := fun id => (log.steady id).erase principal }

def Log.claimed (log : Log) (id : String) (users : Finset String) : Log :=
  { log with
    claims := Function.update log.claims id (log.claims id + 1)
    steady := if log.claims id = 0 then Function.update log.steady id users else log.steady }

def Log.queued (log : Log) (jobs : Table) (fire principal : String) : Log :=
  { log with
    inserted := if jobs.lookup (fanoutChildId fire principal) = none then
      (fire, principal) :: log.inserted else log.inserted }

def World.setRunner (w : World) (r : RunnerId) (clock : ℤ) (activity : Activity) : World :=
  { w with runners := Function.update w.runners r ⟨clock, activity⟩ }

def ClaimedJob.child (job : ClaimedJob) (principal : String) (maxAttempts : UInt32) (now : ℤ) :
    Enqueue where
  id := fanoutChildId job.id principal
  name := job.name
  args := "\x7b\x7d"
  principal := some principal
  runAt := now
  maxAttempts := maxAttempts
  fanout := false

def ClaimedJob.exhausted (job : ClaimedJob) : ClaimedJob := { job with attempts := job.maxAttempts }

/-! ### Steps -/

inductive Event where
  | enqueue (request : Enqueue)
  | register (principal : PrincipalId)
  | delete (principal : PrincipalId)
  | tick (r : RunnerId) (now : ℤ)
  | crash (r : RunnerId)
  | claim (r : RunnerId) (now lease : ℤ) (tie : String → ℕ)
  | complete (r : RunnerId) (now : ℤ)
  | fail (r : RunnerId) (now : ℤ) (terminal : Bool) (error : String) (jitter : ℤ → ℤ)
  | readPage (r : RunnerId)
  | queueChild (r : RunnerId) (now : ℤ) (maxAttempts : UInt32) (accepted : Bool)
  | advance (r : RunnerId) (now : ℤ)

/-- One step of the queue and its runners. `batch` is the page size. -/
inductive Step (batch : ℕ) : Event → World → World → Prop where
  | enqueue {w : World} (request : Enqueue) :
      Step batch (.enqueue request) w
        { w with jobs := (w.jobs.enqueue request).2, log := w.log.enqueued w.jobs request }
  | register {w : World} (principal : PrincipalId) :
      Step batch (.register principal) w { w with users := insert principal.id w.users }
  | delete {w : World} (principal : PrincipalId) :
      Step batch (.delete principal) w
        { w with users := w.users.erase principal.id, log := w.log.deleted principal.id }
  /-- Time passes for a runner that pauses. -/
  | tick {w : World} {r : RunnerId} {now : ℤ} (hclock : (w.runners r).clock ≤ now) :
      Step batch (.tick r now) w (w.setRunner r now (w.runners r).activity)
  /-- A runner dies, or the report it makes is refused. -/
  | crash {w : World} (r : RunnerId) :
      Step batch (.crash r) w (w.setRunner r (w.runners r).clock .idle)
  | claim {w : World} {r : RunnerId} {now lease : ℤ} {tie : String → ℕ} {job : ClaimedJob}
      {jobs : Table} (hidle : (w.runners r).activity = .idle) (hclock : (w.runners r).clock ≤ now)
      (hclaim : w.jobs.claimDue now lease tie = (some job, jobs)) :
      Step batch (.claim r now lease tie) w
        (World.setRunner { w with jobs, log := w.log.claimed job.id w.users } r now
          (.holding ⟨job, saturatingAdd now lease, w.log.claims job.id + 1⟩))
  /-- A body ran, and its effects were applied. -/
  | complete {w : World} {r : RunnerId} {now : ℤ} {hold : Hold}
      (hactivity : (w.runners r).activity = .holding hold) (hbody : hold.job.isFanout = false)
      (hclock : (w.runners r).clock ≤ now) :
      Step batch (.complete r now) w
        (World.setRunner { w with jobs := w.jobs.complete hold.job.id now } r now .idle)
  /-- A body failed, a page could not be read, or the job is not declared any more. -/
  | fail {w : World} {r : RunnerId} {now : ℤ} {terminal : Bool} {error : String} {jitter : ℤ → ℤ}
      {hold : Hold} (hactivity : (w.runners r).activity = .holding hold)
      (hclock : (w.runners r).clock ≤ now) :
      Step batch (.fail r now terminal error jitter) w
        (World.setRunner { w with
          jobs := (w.jobs.fail (if terminal then hold.job.exhausted else hold.job) now error
            jitter).2 } r now .idle)
  | readPage {w : World} {r : RunnerId} {hold : Hold} {page : List String}
      (hactivity : (w.runners r).activity = .holding hold) (hfanout : hold.job.isFanout = true)
      (hpage : page = principalsAfter w.users hold.job.cursor batch) :
      Step batch (.readPage r) w (w.setRunner r (w.runners r).clock
        (.inserting hold (page.length < batch) page.getLast? page))
  /-- Queue the next child of a page, or pass it over when that is refused. -/
  | queueChild {w : World} {r : RunnerId} {now : ℤ} {maxAttempts : UInt32} {accepted : Bool}
      {hold : Hold} {exhausted : Bool} {last : Option String} {principal : String}
      {rest : List String}
      (hactivity : (w.runners r).activity = .inserting hold exhausted last (principal :: rest))
      (hclock : (w.runners r).clock ≤ now) :
      Step batch (.queueChild r now maxAttempts accepted) w
        (World.setRunner
          (if accepted then
            { w with
              jobs := (w.jobs.enqueue (hold.job.child principal maxAttempts now)).2
              log := w.log.queued w.jobs hold.job.id principal }
          else w) r now (.inserting hold exhausted last rest))
  | advance {w : World} {r : RunnerId} {now : ℤ} {hold : Hold} {exhausted : Bool}
      {last : Option String} (hactivity : (w.runners r).activity = .inserting hold exhausted last [])
      (hclock : (w.runners r).clock ≤ now) :
      Step batch (.advance r now) w
        (World.setRunner { w with
          jobs := w.jobs.advanceFanout hold.job.id (if exhausted then none else last) now }
          r now .idle)

def Next (batch : ℕ) (Meets : Event → World → Prop) (w w' : World) : Prop :=
  ∃ event, Step batch event w w' ∧ Meets event w

/-- The states a run reaches whose steps all meet a condition. -/
abbrev Reaches (batch : ℕ) (Meets : Event → World → Prop) : World → World → Prop :=
  Relation.ReflTransGen (Next batch Meets)

theorem Reaches.invariant {batch : ℕ} {Meets : Event → World → Prop} {P : World → Prop}
    {w w' : World} (hrun : Reaches batch Meets w w') (hw : P w)
    (hstep : ∀ {event w w'}, Step batch event w w' → Meets event w → P w → P w') : P w' := by
  induction hrun with
  | refl => exact hw
  | tail _ hnext ih =>
      obtain ⟨event, hevent, hmeets⟩ := hnext
      exact hstep hevent hmeets ih

/-! ### What a step leaves -/

def World.held (w : World) (r : RunnerId) : Option Hold := (w.runners r).activity.hold

section SetRunner

variable (w : World) (r s : RunnerId) (clock : ℤ) (activity : Activity)

@[simp] theorem World.jobs_setRunner : (w.setRunner r clock activity).jobs = w.jobs := rfl

@[simp] theorem World.users_setRunner : (w.setRunner r clock activity).users = w.users := rfl

@[simp] theorem World.log_setRunner : (w.setRunner r clock activity).log = w.log := rfl

theorem World.runners_setRunner : (w.setRunner r clock activity).runners s =
    if s = r then ⟨clock, activity⟩ else w.runners s := by
  unfold World.setRunner
  split_ifs with h
  · rw [h]
    exact Function.update_self _ _ _
  · exact Function.update_of_ne h _ _

theorem World.held_setRunner : (w.setRunner r clock activity).held s =
    if s = r then activity.hold else w.held s := by
  unfold World.held
  rw [World.runners_setRunner]
  split_ifs <;> rfl

theorem World.held_of_setRunner {hold : Hold}
    (h : (w.setRunner r clock activity).held s = some hold) :
    (s = r ∧ activity.hold = some hold) ∨ w.held s = some hold := by
  rw [World.held_setRunner] at h
  by_cases hs : s = r
  · rw [if_pos hs] at h
    exact Or.inl ⟨hs, h⟩
  · rw [if_neg hs] at h
    exact Or.inr h

theorem World.activity_of_setRunner {activity' : Activity}
    (h : ((w.setRunner r clock activity).runners s).activity = activity') :
    (s = r ∧ activity = activity') ∨ (w.runners s).activity = activity' := by
  rw [World.runners_setRunner] at h
  by_cases hs : s = r
  · rw [if_pos hs] at h
    exact Or.inl ⟨hs, h⟩
  · rw [if_neg hs] at h
    exact Or.inr h

end SetRunner

variable {batch : ℕ} {event : Event} {w w' : World}

theorem World.held_of_holding {r : RunnerId} {hold : Hold}
    (h : (w.runners r).activity = .holding hold) : w.held r = some hold := by
  rw [World.held, h]
  rfl

theorem World.held_of_inserting {r : RunnerId} {hold : Hold} {exhausted : Bool}
    {last : Option String} {rest : List String}
    (h : (w.runners r).activity = .inserting hold exhausted last rest) : w.held r = some hold := by
  rw [World.held, h]
  rfl

theorem Table.isSome_update {jobs : Table} {id x : String} {f : JobRow → JobRow} :
    ((jobs.update id f).lookup x).isSome ↔ (jobs.lookup x).isSome := by
  rw [Table.lookup_update]
  split_ifs with hx
  · rw [Option.isSome_map, hx]
  · rfl

theorem Table.isSome_enqueue {jobs : Table} {request : Enqueue} {x : String}
    (h : (jobs.lookup x).isSome) : ((jobs.enqueue request).2.lookup x).isSome := by
  rw [Table.lookup_enqueue]
  split_ifs
  · rfl
  · exact h

theorem Step.isSome (hstep : Step batch event w w') {x : String} (h : (w.jobs.lookup x).isSome) :
    (w'.jobs.lookup x).isSome := by
  cases hstep with
  | enqueue request => exact Table.isSome_enqueue h
  | claim hidle hclock hclaim =>
      obtain ⟨row, -, -, -, -, rfl⟩ := Table.claimDue_some hclaim
      rw [World.jobs_setRunner, Table.lookup_insert_eq]
      split_ifs
      · rfl
      · exact h
  | complete hactivity hbody hclock => exact Table.isSome_update.mpr h
  | fail hactivity hclock => exact Table.isSome_update.mpr h
  | @queueChild _ r now maxAttempts accepted hold exhausted last principal rest hactivity hclock =>
      cases accepted with
      | false => exact h
      | true => exact Table.isSome_enqueue h
  | advance hactivity hclock => exact Table.isSome_update.mpr h
  | _ => exact h

def NotClaimed (event : Event) (w : World) (x : String) : Prop :=
  ∀ r now lease tie job jobs, event = .claim r now lease tie →
    w.jobs.claimDue now lease tie = (some job, jobs) → x ≠ job.id

inductive RowStep (w : World) (event : Event) (x : String) (row' : JobRow) : Prop where
  | same (hclaim : NotClaimed event w x) (h : w.jobs.lookup x = some row')
  | put (request : Enqueue) (hevent : event = .enqueue request ∨
        ∃ r now maxAttempts, event = .queueChild r now maxAttempts true ∧
          request.fanout = false ∧ request.maxAttempts = maxAttempts)
      (hid : x = request.id) (hnone : w.jobs.lookup x = none) (hrow' : row' = request.row)
  | claim (r : RunnerId) (now lease : ℤ) (tie : String → ℕ) (job : ClaimedJob) (jobs : Table)
      (row : JobRow) (hevent : event = .claim r now lease tie)
      (hclaim : w.jobs.claimDue now lease tie = (some job, jobs))
      (holdest : w.jobs.oldest now tie = some ⟨x, row⟩) (hid : x = job.id)
      (hrow : w.jobs.lookup x = some row) (hrunnable : row.runnable now = true)
      (hjob : job = row.handOut x) (hrow' : row' = row.claim now lease)
  | complete (r : RunnerId) (now : ℤ) (hold : Hold) (row : JobRow)
      (hevent : event = .complete r now) (hactivity : (w.runners r).activity = .holding hold)
      (hbody : hold.job.isFanout = false) (hid : x = hold.job.id)
      (hrow : w.jobs.lookup x = some row) (hrow' : row' = row.complete now)
  | fail (r : RunnerId) (now : ℤ) (terminal : Bool) (error : String) (jitter : ℤ → ℤ)
      (hold : Hold) (row : JobRow) (hevent : event = .fail r now terminal error jitter)
      (hactivity : (w.runners r).activity = .holding hold) (hid : x = hold.job.id)
      (hrow : w.jobs.lookup x = some row)
      (hrow' : row' = row.fail ((if terminal then hold.job.exhausted else hold.job).retryAt now
        jitter) now error)
  | advance (r : RunnerId) (now : ℤ) (hold : Hold) (exhausted : Bool) (last : Option String)
      (row : JobRow) (hevent : event = .advance r now)
      (hactivity : (w.runners r).activity = .inserting hold exhausted last [])
      (hid : x = hold.job.id) (hrow : w.jobs.lookup x = some row)
      (hrow' : row' = row.advance (if exhausted then none else last) now)

theorem Step.row (hstep : Step batch event w w') {x : String} {row' : JobRow}
    (h : w'.jobs.lookup x = some row') : RowStep w event x row' := by
  cases hstep with
  | enqueue request =>
      rcases Table.lookup_enqueue_cases h with h | ⟨hid, hnone, hrow'⟩
      · exact .same (fun _ _ _ _ _ _ hevent => nomatch hevent) h
      · exact .put request (Or.inl rfl) hid hnone hrow'
  | claim hidle hclock hclaim =>
      obtain ⟨row, holdest, hrow, hrunnable, hjob, rfl⟩ := Table.claimDue_some hclaim
      rw [World.jobs_setRunner, Table.lookup_insert_eq] at h
      split_ifs at h with hx
      · subst hx
        exact .claim _ _ _ _ _ _ row rfl hclaim holdest rfl hrow hrunnable hjob (Option.some.inj h).symm
      · refine .same (fun _ _ _ _ _ _ hevent hclaim' => ?_) h
        cases hevent
        cases hclaim.symm.trans hclaim'
        assumption
  | complete hactivity hbody hclock =>
      rcases Table.lookup_update_cases h with h | ⟨hid, row, hrow, hrow'⟩
      · exact .same (fun _ _ _ _ _ _ hevent => nomatch hevent) h
      · exact .complete _ _ _ row rfl hactivity hbody hid (hid ▸ hrow) hrow'
  | @fail _ r now terminal error jitter hold hactivity hclock =>
      rcases Table.lookup_update_cases h with h | ⟨hid, row, hrow, hrow'⟩
      · exact .same (fun _ _ _ _ _ _ hevent => nomatch hevent) h
      · have hjob : (if terminal then hold.job.exhausted else hold.job).id = hold.job.id := by
          cases terminal <;> rfl
        rw [hjob] at hid hrow
        exact .fail _ _ _ _ _ _ row rfl hactivity hid (hid ▸ hrow) hrow'
  | @queueChild _ r now maxAttempts accepted hold exhausted last principal rest hactivity hclock =>
      cases accepted with
      | false => exact .same (fun _ _ _ _ _ _ hevent => nomatch hevent) h
      | true =>
          rcases Table.lookup_enqueue_cases h with h | ⟨hid, hnone, hrow'⟩
          · exact .same (fun _ _ _ _ _ _ hevent => nomatch hevent) h
          · exact .put _ (Or.inr ⟨r, now, maxAttempts, rfl, rfl, rfl⟩) hid hnone hrow'
  | advance hactivity hclock =>
      rcases Table.lookup_update_cases h with h | ⟨hid, row, hrow, hrow'⟩
      · exact .same (fun _ _ _ _ _ _ hevent => nomatch hevent) h
      · exact .advance _ _ _ _ _ row rfl hactivity hid (hid ▸ hrow) hrow'
  | _ => exact .same (fun _ _ _ _ _ _ hevent => nomatch hevent) h

/-- Every held row is on the queue, and was handed out as often as its claim says; only
fan-outs are expanded. -/
structure Held (w : World) : Prop where
  present : ∀ r hold, w.held r = some hold → (w.jobs.lookup hold.job.id).isSome
  counted : ∀ r hold, w.held r = some hold →
    0 < hold.ticket ∧ hold.ticket ≤ w.log.claims hold.job.id
  expanding : ∀ r hold exhausted last rest,
    (w.runners r).activity = .inserting hold exhausted last rest → hold.job.isFanout = true

theorem World.Fresh.held_ne (hw : w.Fresh) (r : RunnerId) (hold : Hold) : w.held r ≠ some hold := by
  intro h
  rw [World.held, hw.idle] at h
  cases h

theorem World.Fresh.lookup (hw : w.Fresh) (x : String) : w.jobs.lookup x = none := by
  rw [hw.jobs]
  exact AList.lookup_empty x

theorem World.Fresh.lookup_ne (hw : w.Fresh) (x : String) (row : JobRow) :
    w.jobs.lookup x ≠ some row := by
  rw [hw.lookup]
  simp

theorem Held.fresh (hw : w.Fresh) : Held w := by
  refine ⟨fun r hold h => absurd h (hw.held_ne r hold), fun r hold h => absurd h (hw.held_ne r hold),
    ?_⟩
  intro r hold exhausted last rest h
  exact absurd (World.held_of_inserting h) (hw.held_ne r hold)

theorem Step.held_cases (hstep : Step batch event w w') {r : RunnerId} {hold : Hold}
    (h : w'.held r = some hold) : w.held r = some hold ∨
      ∃ now lease tie jobs, event = .claim r now lease tie ∧
        w.jobs.claimDue now lease tie = (some hold.job, jobs) ∧
        hold.leaseUntil = saturatingAdd now lease ∧
        hold.ticket = w.log.claims hold.job.id + 1 := by
  cases hstep with
  | tick hclock =>
      rcases World.held_of_setRunner _ _ _ _ _ h with ⟨rfl, hhold⟩ | hhold
      · exact Or.inl hhold
      · exact Or.inl hhold
  | crash s =>
      rcases World.held_of_setRunner _ _ _ _ _ h with ⟨-, hhold⟩ | hhold
      · exact nomatch hhold
      · exact Or.inl hhold
  | @claim _ s now lease tie job jobs hidle hclock hclaim =>
      rcases World.held_of_setRunner _ _ _ _ _ h with ⟨rfl, hhold⟩ | hhold
      · obtain rfl := Option.some.inj hhold
        exact Or.inr ⟨now, lease, tie, jobs, rfl, hclaim, rfl, rfl⟩
      · exact Or.inl hhold
  | complete hactivity hbody hclock =>
      rcases World.held_of_setRunner _ _ _ _ _ h with ⟨-, hhold⟩ | hhold
      · exact nomatch hhold
      · exact Or.inl hhold
  | fail hactivity hclock =>
      rcases World.held_of_setRunner _ _ _ _ _ h with ⟨-, hhold⟩ | hhold
      · exact nomatch hhold
      · exact Or.inl hhold
  | readPage hactivity hfanout hpage =>
      rcases World.held_of_setRunner _ _ _ _ _ h with ⟨rfl, hhold⟩ | hhold
      · exact Or.inl ((World.held_of_holding hactivity).trans hhold)
      · exact Or.inl hhold
  | @queueChild _ s now maxAttempts accepted hold exhausted last principal rest hactivity hclock =>
      rcases World.held_of_setRunner _ _ _ _ _ h with ⟨rfl, hhold⟩ | hhold
      · exact Or.inl ((World.held_of_inserting hactivity).trans hhold)
      · cases accepted <;> exact Or.inl hhold
  | advance hactivity hclock =>
      rcases World.held_of_setRunner _ _ _ _ _ h with ⟨-, hhold⟩ | hhold
      · exact nomatch hhold
      · exact Or.inl hhold
  | _ => exact Or.inl h

theorem Step.inserting_cases (hstep : Step batch event w w') {s : RunnerId} {hold : Hold}
    {exhausted : Bool} {last : Option String} {rest : List String}
    (hs : (w'.runners s).activity = .inserting hold exhausted last rest) :
    (w.runners s).activity = .inserting hold exhausted last rest ∨
      (event = .readPage s ∧ (w.runners s).activity = .holding hold ∧
        hold.job.isFanout = true ∧ rest = principalsAfter w.users hold.job.cursor batch ∧
        exhausted = decide (rest.length < batch) ∧ last = rest.getLast?) ∨
      ∃ now maxAttempts accepted principal, event = .queueChild s now maxAttempts accepted ∧
        (w.runners s).activity = .inserting hold exhausted last (principal :: rest) ∧
        (accepted = true → w'.log = w.log.queued w.jobs hold.job.id principal) := by
  cases hstep with
  | tick hclock =>
      rcases World.activity_of_setRunner _ _ _ _ _ hs with ⟨rfl, hown⟩ | hother
      · exact Or.inl hown
      · exact Or.inl hother
  | crash r =>
      rcases World.activity_of_setRunner _ _ _ _ _ hs with ⟨-, hown⟩ | hother
      · exact nomatch hown
      · exact Or.inl hother
  | claim hidle hclock hclaim =>
      rcases World.activity_of_setRunner _ _ _ _ _ hs with ⟨-, hown⟩ | hother
      · exact nomatch hown
      · exact Or.inl hother
  | complete hactivity hbody hclock =>
      rcases World.activity_of_setRunner _ _ _ _ _ hs with ⟨-, hown⟩ | hother
      · exact nomatch hown
      · exact Or.inl hother
  | fail hactivity hclock =>
      rcases World.activity_of_setRunner _ _ _ _ _ hs with ⟨-, hown⟩ | hother
      · exact nomatch hown
      · exact Or.inl hother
  | readPage hactivity hfanout hpage =>
      rcases World.activity_of_setRunner _ _ _ _ _ hs with ⟨rfl, hown⟩ | hother
      · cases hown
        exact Or.inr (Or.inl ⟨rfl, hactivity, hfanout, hpage, rfl, rfl⟩)
      · exact Or.inl hother
  | @queueChild _ r now maxAttempts accepted held exhausted' last' principal rest' hactivity hclock =>
      rcases World.activity_of_setRunner _ _ _ _ _ hs with ⟨rfl, hown⟩ | hother
      · cases hown
        refine Or.inr (Or.inr ⟨now, maxAttempts, accepted, principal, rfl, hactivity, ?_⟩)
        rintro rfl
        rfl
      · cases accepted <;> exact Or.inl hother
  | advance hactivity hclock =>
      rcases World.activity_of_setRunner _ _ _ _ _ hs with ⟨-, hown⟩ | hother
      · exact nomatch hown
      · exact Or.inl hother
  | _ => exact Or.inl hs

theorem Step.claims_eq (hstep : Step batch event w w') :
    w'.log.claims = w.log.claims ∨ ∃ r now lease tie job jobs, event = .claim r now lease tie ∧
      w.jobs.claimDue now lease tie = (some job, jobs) ∧
      w'.log.claims = Function.update w.log.claims job.id (w.log.claims job.id + 1) := by
  cases hstep with
  | claim hidle hclock hclaim => exact Or.inr ⟨_, _, _, _, _, _, rfl, hclaim, rfl⟩
  | @queueChild _ s now maxAttempts accepted hold exhausted last principal rest hactivity hclock =>
      cases accepted <;> exact Or.inl rfl
  | _ => exact Or.inl rfl

theorem Step.claims_claim {r : RunnerId} {now lease : ℤ} {tie : String → ℕ} {job : ClaimedJob}
    {jobs : Table} (hstep : Step batch (.claim r now lease tie) w w')
    (hclaim : w.jobs.claimDue now lease tie = (some job, jobs)) :
    w'.log.claims = Function.update w.log.claims job.id (w.log.claims job.id + 1) := by
  cases hstep with
  | claim hidle hclock hclaim' =>
      cases hclaim.symm.trans hclaim'
      rfl

theorem Step.claims_same (hstep : Step batch event w w') {x : String}
    (h : NotClaimed event w x) : w'.log.claims x = w.log.claims x := by
  rcases hstep.claims_eq with hclaims | ⟨r, now, lease, tie, job, jobs, hevent, hclaim, hclaims⟩
  · rw [hclaims]
  · rw [hclaims, Function.update_of_ne (h r now lease tie job jobs hevent hclaim)]

theorem Step.claims_le (hstep : Step batch event w w') (id : String) :
    w.log.claims id ≤ w'.log.claims id := by
  rcases hstep.claims_eq with h | ⟨_, _, _, _, job, _, _, _, h⟩
  · rw [h]
  · rw [h, Function.update_apply]
    split_ifs with hid
    · rw [hid]
      exact Nat.le_succ _
    · exact le_rfl

theorem Held.step (h : Held w) (hstep : Step batch event w w') : Held w' := by
  constructor
  · intro r hold hheld
    rcases hstep.held_cases hheld with hold' | ⟨now, lease, tie, jobs, -, hclaim, -, -⟩
    · exact hstep.isSome (h.present r hold hold')
    · obtain ⟨row, -, hrow, -⟩ := Table.claimDue_some hclaim
      exact hstep.isSome (by rw [hrow]; rfl)
  · intro r hold hheld
    rcases hstep.held_cases hheld with hold' | ⟨now, lease, tie, jobs, hevent, hclaim, -, hticket⟩
    · obtain ⟨hpos, hle⟩ := h.counted r hold hold'
      exact ⟨hpos, hle.trans (hstep.claims_le _)⟩
    · subst hevent
      rw [hstep.claims_claim hclaim, Function.update_self, hticket]
      exact ⟨Nat.succ_pos _, le_rfl⟩
  · intro r hold exhausted last rest hs
    rcases hstep.inserting_cases hs with hs | ⟨-, -, hfanout, -⟩ | ⟨_, _, _, _, -, hs, -⟩
    · exact h.expanding r hold exhausted last rest hs
    · exact hfanout
    · exact h.expanding r hold exhausted last _ hs

theorem Step.fires_cases (hstep : Step batch event w w') {f : String} (hf : f ∈ w'.log.fires) :
    f ∈ w.log.fires ∨ ∃ request, event = .enqueue request ∧ f = request.id ∧
      w.jobs.lookup f = none ∧ w'.jobs.lookup f = some request.row ∧ request.fanout = true := by
  cases hstep with
  | enqueue request =>
      simp only [Log.enqueued] at hf
      split_ifs at hf with hnew
      · rcases List.mem_cons.mp hf with rfl | hf
        · refine Or.inr ⟨request, rfl, rfl, hnew.1, ?_, hnew.2⟩
          rw [Table.lookup_enqueue, if_pos ⟨rfl, hnew.1⟩]
        · exact Or.inl hf
      · exact Or.inl hf
  | queueChild hactivity hclock =>
      split_ifs at hf <;> exact Or.inl hf
  | _ => exact Or.inl hf

theorem Step.fires_subset (hstep : Step batch event w w') : w.log.fires ⊆ w'.log.fires := by
  cases hstep with
  | enqueue request =>
      simp only [Log.enqueued]
      split_ifs
      · exact List.subset_cons_self _ _
      · exact List.Subset.refl _
  | @queueChild _ r now maxAttempts accepted hold exhausted last principal rest hactivity hclock =>
      cases accepted <;> exact List.Subset.refl _
  | _ => exact List.Subset.refl _

theorem Step.mem_fires {request : Enqueue} (hstep : Step batch (.enqueue request) w w')
    (hnone : w.jobs.lookup request.id = none) (hfanout : request.fanout = true) :
    request.id ∈ w'.log.fires := by
  cases hstep with
  | enqueue _ => simp [Log.enqueued, hnone, hfanout]

/-! ### A daily digest -/

/-- A queue and runners nothing happened to yet. -/
def World.empty : World := ⟨∅, ∅, fun _ => ⟨0, .idle⟩, .empty⟩

theorem World.fresh_empty : World.empty.Fresh := ⟨rfl, rfl, fun _ => rfl, rfl⟩

theorem Reaches.next {Meets : Event → World → Prop} {w₀ : World}
    (hrun : Reaches batch Meets w₀ w) (event : Event) (hstep : Step batch event w w')
    (hmeets : Meets event w) : Reaches batch Meets w₀ w' :=
  hrun.tail ⟨event, hstep, hmeets⟩

def digest : Enqueue where
  id := "digest@2026-09-17T00:00:00Z"
  name := "digest"
  args := "{}"
  principal := none
  runAt := 0
  maxAttempts := 1
  fanout := true

/-- A job one user's sign-up put on the queue. -/
def welcome : Enqueue where
  id := "welcome:1"
  name := "welcome"
  args := "{}"
  principal := some "ada"
  runAt := 0
  maxAttempts := 3
  fanout := false

/-- The engine returns rows that came due together in no particular order. -/
def anyOrder : String → ℕ := fun _ => 0

/-- The queue with the job on it, and with the job claimed. -/
def welcomeDue : Table := (Table.enqueue ∅ welcome).2

def welcomeClaimed : Table := welcomeDue.insert welcome.id (welcome.row.claim 0 defaultLeaseMs)

theorem oldest_welcomeDue : welcomeDue.oldest 0 anyOrder = some ⟨welcome.id, welcome.row⟩ := by
  decide

theorem oldest_welcomeClaimed : welcomeClaimed.oldest defaultLeaseMs anyOrder =
    some ⟨welcome.id, welcome.row.claim 0 defaultLeaseMs⟩ := by
  decide

end Albedo.Jobs
