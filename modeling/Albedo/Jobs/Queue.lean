import Mathlib.Algebra.Group.Int.Defs
import Mathlib.Data.List.AList
import Mathlib.Data.List.MinMax
import Mathlib.Data.Prod.Lex
import Mathlib.Data.String.Basic

/-!
# The durable job queue

One table, and the statements that put work in, take it out under a lease and report on
it. A claim is one transaction and every other statement is atomic, so each is one
function of the table.
-/
namespace Albedo.Jobs

/-! ### Rows -/

inductive JobState where
  | pending
  | fanout
  | claimed
  | done
  | failed
  deriving DecidableEq

/-- A row of `albedo_jobs`, its primary key apart. -/
structure JobRow where
  name : String
  args : String
  principal : Option String
  state : JobState
  runAt : ℤ
  attempts : ℤ
  maxAttempts : ℤ
  leaseUntil : Option ℤ
  cursor : Option String
  lastError : Option String
  createdAt : ℤ
  updatedAt : ℤ
  deriving DecidableEq

abbrev Table := AList fun _ : String => JobRow

structure ClaimedJob where
  id : String
  name : String
  args : String
  principal : Option String
  attempts : UInt32
  maxAttempts : UInt32
  cursor : Option String
  isFanout : Bool
  deriving DecidableEq

structure Enqueue where
  id : String
  name : String
  args : String
  principal : Option String
  runAt : ℤ
  maxAttempts : UInt32
  fanout : Bool

def defaultLeaseMs : ℤ := 5 * 60 * 1000

def backoffBaseMs : ℤ := 1000

def backoffMaxMs : ℤ := 60 * 60 * 1000

/-! ### Numbers -/

def toI64 (n : ℤ) : ℤ := max (-2 ^ 63) (min (2 ^ 63 - 1) n)

def saturatingAdd (a b : ℤ) : ℤ := toI64 (a + b)

def toU32 (n : ℤ) : UInt32 := if 0 ≤ n ∧ n < 2 ^ 32 then UInt32.ofNat n.toNat else 0xFFFFFFFF

theorem toU32_toNat {n : ℤ} (h : 0 ≤ n) (hlt : n < 2 ^ 32) : ((toU32 n).toNat : ℤ) = n := by
  rw [toU32, if_pos ⟨h, hlt⟩]
  simp only [UInt32.toNat_ofNat']
  omega

theorem saturatingAdd_one {n : ℤ} (h : 0 ≤ n) (hlt : n < 2 ^ 32) : saturatingAdd n 1 = n + 1 := by
  unfold saturatingAdd toI64
  omega

/-- How long to wait before the next attempt. `jitter` scales the capped delay: the
product of two floats, cut to an integer. -/
def backoffMs (attempts : UInt32) (jitter : ℤ → ℤ) : ℤ :=
  let shift := min (attempts.toNat - 1) 32
  let raw := toI64 (backoffBaseMs * 2 ^ shift)
  let capped := min raw backoffMaxMs
  max (jitter capped) (min backoffBaseMs capped)

def takeBytes : ℕ → List Char → List Char
  | _, [] => []
  | room, c :: cs => if c.utf8Size ≤ room then c :: takeBytes (room - c.utf8Size) cs else []

def truncateError (error : String) : String :=
  if error.utf8ByteSize ≤ 2000 then error
  else String.ofList (takeBytes 2000 error.toList) ++ "…"

/-! ### Statements -/

def Table.update (jobs : Table) (id : String) (f : JobRow → JobRow) : Table :=
  match jobs.lookup id with
  | some row => jobs.insert id (f row)
  | none => jobs

def Enqueue.row (request : Enqueue) : JobRow where
  name := request.name
  args := request.args
  principal := request.principal
  state := if request.fanout then .fanout else .pending
  runAt := request.runAt
  attempts := 0
  maxAttempts := request.maxAttempts.toNat
  leaseUntil := none
  cursor := none
  lastError := none
  createdAt := request.runAt
  updatedAt := request.runAt

def Table.enqueue (jobs : Table) (request : Enqueue) : Bool × Table :=
  match jobs.lookup request.id with
  | some _ => (false, jobs)
  | none => (true, jobs.insert request.id request.row)

def JobRow.runnable (row : JobRow) (now : ℤ) : Bool :=
  match row.state with
  | .pending | .fanout => row.runAt ≤ now
  | .claimed =>
      match row.leaseUntil with
      | some leaseUntil => leaseUntil ≤ now
      | none => false
  | .done | .failed => false

/-- By the instants rows came due, then as the engine orders them. -/
instance dueOrder : Preorder (ℤ ×ₗ ℕ) :=
  (@Prod.Lex.instLinearOrder ℤ ℕ Int.instLinearOrder Nat.instLinearOrder).toPreorder

/-- The oldest runnable row. `tie` is how the engine orders rows that came due together. -/
def Table.oldest (jobs : Table) (now : ℤ) (tie : String → ℕ) :
    Option (Sigma fun _ : String => JobRow) :=
  (jobs.entries.filter fun e => e.2.runnable now).argmin fun e => toLex (e.2.runAt, tie e.1)

def JobRow.claim (row : JobRow) (now lease : ℤ) : JobRow :=
  { row with
    state := .claimed
    leaseUntil := some (saturatingAdd now lease)
    attempts := saturatingAdd row.attempts 1
    updatedAt := now }

def JobRow.handOut (row : JobRow) (id : String) : ClaimedJob where
  id := id
  name := row.name
  args := row.args
  principal := row.principal
  attempts := toU32 (saturatingAdd row.attempts 1)
  maxAttempts := toU32 row.maxAttempts
  cursor := row.cursor
  isFanout := row.state = .fanout

def Table.claimDue (jobs : Table) (now lease : ℤ) (tie : String → ℕ) : Option ClaimedJob × Table :=
  match jobs.oldest now tie with
  | none => (none, jobs)
  | some ⟨id, row⟩ =>
      match jobs.lookup id with
      | some found =>
          if found.state = row.state then
            (some (row.handOut id), jobs.insert id (found.claim now lease))
          else (none, jobs)
      | none => (none, jobs)

def JobRow.complete (row : JobRow) (now : ℤ) : JobRow :=
  { row with state := .done, leaseUntil := none, lastError := none, updatedAt := now }

def Table.complete (jobs : Table) (id : String) (now : ℤ) : Table :=
  jobs.update id fun row => row.complete now

def ClaimedJob.retryAt (job : ClaimedJob) (now : ℤ) (jitter : ℤ → ℤ) : Option ℤ :=
  if job.maxAttempts ≤ job.attempts then none
  else some (saturatingAdd now (backoffMs job.attempts jitter))

def JobRow.fail (row : JobRow) (retryAt : Option ℤ) (now : ℤ) (error : String) : JobRow :=
  { row with
    state := if retryAt.isNone then .failed else .pending
    runAt := retryAt.getD now
    leaseUntil := none
    lastError := some (truncateError error)
    updatedAt := now }

/-- Record a failed attempt: back to pending with a delay, or failed for good. -/
def Table.fail (jobs : Table) (job : ClaimedJob) (now : ℤ) (error : String) (jitter : ℤ → ℤ) :
    Option ℤ × Table :=
  let retryAt := job.retryAt now jitter
  (retryAt, jobs.update job.id fun row => row.fail retryAt now error)

def JobRow.advance (row : JobRow) (nextCursor : Option String) (now : ℤ) : JobRow :=
  { row with
    state := if nextCursor.isSome then .fanout else .done
    cursor := nextCursor
    leaseUntil := none
    runAt := now
    updatedAt := now }

/-- Advance a fan-out row after a batch of children. Without a cursor it is done. -/
def Table.advanceFanout (jobs : Table) (id : String) (nextCursor : Option String) (now : ℤ) :
    Table :=
  jobs.update id fun row => row.advance nextCursor now

/-- Delete finished rows that were last touched before an instant. -/
def Table.sweepDone (jobs : Table) (before : ℤ) : Table :=
  (jobs.entries.filter fun e => e.2.state = .done ∧ e.2.updatedAt < before).foldl
    (fun jobs e => jobs.erase e.1) jobs

def fanoutChildId (fire principal : String) : String := fire ++ "#" ++ principal

/-! ### What each statement does to a row -/

variable {jobs : Table} {id x : String}

theorem Table.lookup_insert_eq (jobs : Table) (id x : String) (row : JobRow) :
    (jobs.insert id row).lookup x = if x = id then some row else jobs.lookup x := by
  split_ifs with h
  · rw [h, AList.lookup_insert]
  · rw [AList.lookup_insert_ne h]

theorem Table.lookup_update (jobs : Table) (id x : String) (f : JobRow → JobRow) :
    (jobs.update id f).lookup x = if x = id then (jobs.lookup id).map f else jobs.lookup x := by
  unfold Table.update
  cases h : jobs.lookup id with
  | none =>
      split_ifs with hx
      · rw [hx, h]
        rfl
      · rfl
  | some row => exact jobs.lookup_insert_eq id x (f row)

theorem Table.lookup_update_cases {f : JobRow → JobRow} {row' : JobRow}
    (h : (jobs.update id f).lookup x = some row') : jobs.lookup x = some row' ∨
      (x = id ∧ ∃ row, jobs.lookup id = some row ∧ row' = f row) := by
  rw [Table.lookup_update] at h
  split_ifs at h with hx
  · obtain ⟨row, hrow, rfl⟩ := Option.map_eq_some_iff.mp h
    exact Or.inr ⟨hx, row, hrow, rfl⟩
  · exact Or.inl h

theorem Table.lookup_oldest {now : ℤ} {tie : String → ℕ} {row : JobRow}
    (h : jobs.oldest now tie = some ⟨id, row⟩) :
    jobs.lookup id = some row ∧ row.runnable now = true := by
  obtain ⟨hentry, hrunnable⟩ := List.mem_filter.mp (List.argmin_mem (Option.mem_def.mpr h))
  exact ⟨AList.mem_lookup_iff.mpr hentry, hrunnable⟩

theorem Table.claimDue_of_oldest {now : ℤ} {tie : String → ℕ} {row : JobRow}
    (h : jobs.oldest now tie = some ⟨id, row⟩) (lease : ℤ) : jobs.claimDue now lease tie =
      (some (row.handOut id), jobs.insert id (row.claim now lease)) := by
  have hlook := (Table.lookup_oldest h).1
  unfold Table.claimDue
  rw [h]
  simp only [hlook, if_true]

theorem Table.claimDue_some {jobs' : Table} {now lease : ℤ} {tie : String → ℕ} {job : ClaimedJob}
    (h : jobs.claimDue now lease tie = (some job, jobs')) : ∃ row,
      jobs.oldest now tie = some ⟨job.id, row⟩ ∧ jobs.lookup job.id = some row ∧
      row.runnable now = true ∧ job = row.handOut job.id ∧
      jobs' = jobs.insert job.id (row.claim now lease) := by
  cases holdest : jobs.oldest now tie with
  | none =>
      rw [Table.claimDue, holdest] at h
      exact nomatch h
  | some e =>
      obtain ⟨id, row⟩ := e
      rw [Table.claimDue_of_oldest holdest] at h
      cases h
      obtain ⟨hrow, hrunnable⟩ := Table.lookup_oldest holdest
      exact ⟨row, rfl, hrow, hrunnable, rfl, rfl⟩

theorem Table.lookup_enqueue (jobs : Table) (request : Enqueue) (x : String) :
    (jobs.enqueue request).2.lookup x =
      if x = request.id ∧ jobs.lookup request.id = none then some request.row
      else jobs.lookup x := by
  unfold Table.enqueue
  cases h : jobs.lookup request.id with
  | none => simpa using jobs.lookup_insert_eq request.id x request.row
  | some row => simp

theorem Table.lookup_enqueue_cases {request : Enqueue} {row' : JobRow}
    (h : (jobs.enqueue request).2.lookup x = some row') : jobs.lookup x = some row' ∨
      (x = request.id ∧ jobs.lookup x = none ∧ row' = request.row) := by
  rw [Table.lookup_enqueue] at h
  split_ifs at h with hx
  · exact Or.inr ⟨hx.1, hx.1 ▸ hx.2, (Option.some.inj h).symm⟩
  · exact Or.inl h

theorem JobRow.not_runnable {row : JobRow} (h : row.state = .done ∨ row.state = .failed) (now : ℤ) :
    row.runnable now = false := by
  unfold JobRow.runnable
  rcases h with h | h <;> rw [h]

end Albedo.Jobs
