import Mathlib.Data.List.MinMax
import Albedo.Jobs.Fires

/-!
# How long a runner sleeps

A pass queues the fires that came due, claims and runs what is due at the instant it began, and
then sleeps until the next instant it knows of. The sleep is computed from a later reading of the
clock than the claims were, and only from rows that are still to come due.
-/
namespace Albedo.Jobs

def maxSleep : ℤ := 300 * 1000

def JobRow.queued (row : JobRow) : Bool :=
  match row.state with
  | .pending | .fanout => true
  | .claimed | .done | .failed => false

/-- The instant the earliest row that is not yet due comes due. -/
def Table.nextDueAfter (jobs : Table) (now : ℤ) : Option ℤ :=
  ((jobs.entries.filter fun e => e.2.queued && now < e.2.runAt).map fun e => e.2.runAt).min?

def earliest : Option ℤ → Option ℤ → Option ℤ
  | some a, some b => some (min a b)
  | some a, none | none, some a => some a
  | none, none => none

/-- How long to sleep at `now`. The queue is not read when the substrate refuses it. -/
def sleepFor (nextFire : List (Option ℤ)) (jobs : Table) (answered : Bool) (now : ℤ) : ℤ :=
  let nextSchedule := (nextFire.filterMap fun fire => fire).min?
  let nextQueued := if answered then jobs.nextDueAfter now else none
  match earliest nextSchedule nextQueued with
  | none => maxSleep
  | some instant => min (max (toI64 (instant - now)) 0) maxSleep

/-! ### Passes -/

/-- The instants each schedule waits for afterwards, and the queue with the fires that came
due. The substrate accepts some of them. -/
def materializeDueFires (stamp : Stamp) (now : ℤ) (accepts : String → Bool) :
    List (Scheduled × Option ℤ) → Table → List (Option ℤ) × Table
  | [], jobs => ([], jobs)
  | (_, none) :: rest, jobs =>
      let (waits, jobs) := materializeDueFires stamp now accepts rest jobs
      (none :: waits, jobs)
  | (entry, some fireAt) :: rest, jobs =>
      let (wait, jobs) :=
        if now < fireAt then (some fireAt, jobs)
        else entry.materialize stamp (accepts (fireId stamp entry.name fireAt)) fireAt jobs
      let (waits, jobs) := materializeDueFires stamp now accepts rest jobs
      (wait :: waits, jobs)

inductive Statement : Table → Table → Prop where
  | enqueue {jobs : Table} (request : Enqueue) : Statement jobs (jobs.enqueue request).2
  | claim {jobs : Table} (now lease : ℤ) (tie : String → ℕ) :
      Statement jobs (jobs.claimDue now lease tie).2
  | complete {jobs : Table} (id : String) (now : ℤ) : Statement jobs (jobs.complete id now)
  | fail {jobs : Table} (job : ClaimedJob) (now : ℤ) (error : String) (jitter : ℤ → ℤ) :
      Statement jobs (jobs.fail job now error jitter).2
  | advance {jobs : Table} (id : String) (cursor : Option String) (now : ℤ) :
      Statement jobs (jobs.advanceFanout id cursor now)
  | sweep {jobs : Table} (before : ℤ) : Statement jobs (jobs.sweepDone before)

/-- Claims at one instant, each with whatever happens to the queue while the job runs and is
reported. It is finished when a claim found nothing, and not when a claim was refused. -/
inductive Drain (now : ℤ) : Bool → Table → Table → Prop where
  | refused (jobs : Table) : Drain now false jobs jobs
  | finished {jobs : Table} {tie : String → ℕ}
      (hclaim : (jobs.claimDue now defaultLeaseMs tie).1 = none) : Drain now true jobs jobs
  | ran {finished : Bool} {jobs jobs' claimed ran : Table} {tie : String → ℕ} {job : ClaimedJob}
      (hclaim : jobs.claimDue now defaultLeaseMs tie = (some job, claimed))
      (hrun : Relation.ReflTransGen Statement claimed ran) (hrest : Drain now finished ran jobs') :
      Drain now finished jobs jobs'

/-- A pass that began at an instant: what each schedule waits for afterwards, and the queue. -/
inductive Pass (stamp : Stamp) (began : ℤ) (finished : Bool) :
    List (Scheduled × Option ℤ) → Table → List (Option ℤ) → Table → Prop where
  | plain {waits : List (Scheduled × Option ℤ)} {jobs jobs' : Table} (accepts : String → Bool)
      (hdrain : Drain began finished (materializeDueFires stamp began accepts waits jobs).2 jobs') :
      Pass stamp began finished waits jobs
        (materializeDueFires stamp began accepts waits jobs).1 jobs'
  | swept {waits : List (Scheduled × Option ℤ)} {jobs jobs' : Table} (accepts : String → Bool)
      (before : ℤ)
      (hdrain : Drain began finished (materializeDueFires stamp began accepts waits jobs).2 jobs') :
      Pass stamp began finished waits jobs
        (materializeDueFires stamp began accepts waits jobs).1 (jobs'.sweepDone before)

/-! ### What a sleep owes -/

/-- The runner is awake in time for every row: at once for one that is due, and by the instant at
which a row comes due or a lease ends. -/
structure InTime (jobs : Table) (began now sleep : ℤ) : Prop where
  due : ∀ id row, jobs.lookup id = some row → row.queued = true → row.runAt ≤ now → sleep ≤ 0
  soon : ∀ id row, jobs.lookup id = some row → row.queued = true →
    ¬ (now < row.runAt ∧ row.runAt < now + sleep)
  leases : ∀ id row leaseUntil, jobs.lookup id = some row → row.state = .claimed →
    row.leaseUntil = some leaseUntil → ¬ (now < leaseUntil ∧ leaseUntil < now + sleep)
  /-- A row waits no longer than its instant and the length of the pass. -/
  waits : ∀ id row, jobs.lookup id = some row → row.queued = true → began ≤ row.runAt →
    now + sleep ≤ row.runAt + (now - began)

def Sees (nextFire : List (Option ℤ)) (jobs : Table) (answered : Bool) (now instant : ℤ) : Prop :=
  some instant ∈ nextFire ∨ answered = true ∧ ∃ id row, jobs.lookup id = some row ∧
    row.queued = true ∧ now < row.runAt ∧ row.runAt = instant

def Awake (nextFire : List (Option ℤ)) (jobs : Table) (answered : Bool) (now instant : ℤ) : Prop :=
  now + maxSleep ≤ instant ∨ ∃ seen, Sees nextFire jobs answered now seen ∧ seen ≤ instant

def CameDue (row : JobRow) (finished : Bool) (began now : ℤ) : Prop :=
  row.queued = true ∧ row.runAt ≤ now ∧ (finished = true → began < row.runAt)

/-- A fire is due by now; or no row came due during the pass, and the runner sees an instant
before each lease ends, and before each row comes due that is read from the queue. -/
def Foreseen (nextFire : List (Option ℤ)) (jobs : Table) (finished answered : Bool)
    (began now : ℤ) : Prop :=
  (∃ fire, some fire ∈ nextFire ∧ fire ≤ now) ∨
    (∀ id row, jobs.lookup id = some row → ¬ CameDue row finished began now) ∧
    (∀ id row leaseUntil, jobs.lookup id = some row → row.state = .claimed →
      row.leaseUntil = some leaseUntil → now < leaseUntil →
      Awake nextFire jobs answered now leaseUntil) ∧
    (answered = false → ∀ id row, jobs.lookup id = some row → row.queued = true →
      now < row.runAt → Awake nextFire jobs answered now row.runAt)

/-! ### The earliest instant -/

variable {nextFire : List (Option ℤ)} {jobs jobs' : Table} {answered finished : Bool}
variable {began now instant : ℤ}

theorem Table.lookup_iff_mem {id : String} {row : JobRow} :
    jobs.lookup id = some row ↔ (⟨id, row⟩ : Sigma fun _ : String => JobRow) ∈ jobs.entries :=
  AList.mem_lookup_iff

def Table.instantsAfter (jobs : Table) (now : ℤ) : List ℤ :=
  (jobs.entries.filter fun e => e.2.queued && now < e.2.runAt).map fun e => e.2.runAt

theorem Table.mem_instantsAfter : instant ∈ jobs.instantsAfter now ↔ ∃ id row,
    jobs.lookup id = some row ∧ row.queued = true ∧ now < row.runAt ∧ row.runAt = instant := by
  unfold Table.instantsAfter
  rw [List.mem_map]
  constructor
  · rintro ⟨⟨id, row⟩, hmem, hrun⟩
    obtain ⟨hentry, hboth⟩ := List.mem_filter.mp hmem
    rw [Bool.and_eq_true, decide_eq_true_eq] at hboth
    exact ⟨id, row, Table.lookup_iff_mem.mpr hentry, hboth.1, hboth.2, hrun⟩
  · rintro ⟨id, row, hrow, hqueued, hlater, hrun⟩
    refine ⟨⟨id, row⟩, List.mem_filter.mpr ⟨Table.lookup_iff_mem.mp hrow, ?_⟩, hrun⟩
    rw [Bool.and_eq_true, decide_eq_true_eq]
    exact ⟨hqueued, hlater⟩

theorem earliest_none {as bs : List ℤ} (h : earliest as.min? bs.min? = none) :
    as = [] ∧ bs = [] := by
  cases ha : as.min? with
  | some a => cases hb : bs.min? <;> rw [ha, hb] at h <;> cases h
  | none =>
      cases hb : bs.min? with
      | some b => rw [ha, hb] at h; cases h
      | none => exact ⟨List.min?_eq_none_iff.mp ha, List.min?_eq_none_iff.mp hb⟩

theorem earliest_some {as bs : List ℤ} {e : ℤ} (h : earliest as.min? bs.min? = some e) :
    (e ∈ as ∨ e ∈ bs) ∧ (∀ a ∈ as, e ≤ a) ∧ ∀ b ∈ bs, e ≤ b := by
  cases ha : as.min? with
  | none =>
      obtain rfl := List.min?_eq_none_iff.mp ha
      cases hb : bs.min? with
      | none => rw [ha, hb] at h; cases h
      | some b =>
          rw [ha, hb] at h
          obtain rfl := Option.some.inj h
          obtain ⟨hmem, hle⟩ := List.min?_eq_some_iff.mp hb
          exact ⟨Or.inr hmem, by simp, hle⟩
  | some a =>
      obtain ⟨hmem, hle⟩ := List.min?_eq_some_iff.mp ha
      cases hb : bs.min? with
      | none =>
          obtain rfl := List.min?_eq_none_iff.mp hb
          rw [ha, hb] at h
          obtain rfl := Option.some.inj h
          exact ⟨Or.inl hmem, hle, by simp⟩
      | some b =>
          obtain ⟨hmem', hle'⟩ := List.min?_eq_some_iff.mp hb
          rw [ha, hb] at h
          obtain rfl := Option.some.inj h
          refine ⟨?_, fun x hx => (min_le_left a b).trans (hle x hx),
            fun x hx => (min_le_right a b).trans (hle' x hx)⟩
          rcases min_choice a b with hmin | hmin
          · exact Or.inl (hmin.symm ▸ hmem)
          · exact Or.inr (hmin.symm ▸ hmem')

theorem sees_iff : Sees nextFire jobs answered now instant ↔
    instant ∈ (nextFire.filterMap fun fire => fire) ∨
      instant ∈ (if answered then jobs.instantsAfter now else []) := by
  refine or_congr (by simp) ?_
  cases answered with
  | false => simp
  | true => simpa using Table.mem_instantsAfter.symm

theorem sleepFor_eq (nextFire : List (Option ℤ)) (jobs : Table) (answered : Bool) (now : ℤ) :
    sleepFor nextFire jobs answered now =
      match earliest (nextFire.filterMap fun fire => fire).min?
        (if answered then jobs.instantsAfter now else []).min? with
      | none => maxSleep
      | some instant => min (max (toI64 (instant - now)) 0) maxSleep := by
  cases answered <;> rfl

theorem sleepFor_nonneg (nextFire : List (Option ℤ)) (jobs : Table) (answered : Bool) (now : ℤ) :
    0 ≤ sleepFor nextFire jobs answered now := by
  unfold sleepFor maxSleep
  dsimp only
  split <;> omega

/-- What a sleep does: the runner wakes by an instant just when it sees one no later, or when that
is as far off as the longest sleep. -/
theorem sleepFor_le_iff (hlater : now ≤ instant) :
    now + sleepFor nextFire jobs answered now ≤ instant ↔
      Awake nextFire jobs answered now instant := by
  unfold Awake
  rw [sleepFor_eq]
  cases hearliest : earliest (nextFire.filterMap fun fire => fire).min?
      (if answered then jobs.instantsAfter now else []).min? with
  | none =>
      obtain ⟨hfires, hrows⟩ := earliest_none hearliest
      refine ⟨Or.inl, fun h => h.resolve_right ?_⟩
      rintro ⟨seen, hseen, -⟩
      rw [sees_iff, hfires, hrows] at hseen
      simp at hseen
  | some e =>
      obtain ⟨hmem, hfires, hrows⟩ := earliest_some hearliest
      have hleast : (∃ seen, Sees nextFire jobs answered now seen ∧ seen ≤ instant) ↔
          e ≤ instant := by
        constructor
        · rintro ⟨seen, hseen, hle⟩
          rcases sees_iff.mp hseen with h | h
          · exact (hfires seen h).trans hle
          · exact (hrows seen h).trans hle
        · exact fun hle => ⟨e, sees_iff.mpr hmem, hle⟩
      have hclamp : min (max (toI64 (e - now)) 0) maxSleep = min (max (e - now) 0) maxSleep := by
        unfold toI64 maxSleep
        omega
      rw [hleast]
      dsimp only
      rw [hclamp]
      unfold maxSleep
      omega

/-! ### What a pass leaves -/

theorem Table.not_runnable_of_claimDue {lease : ℤ} {tie : String → ℕ}
    (h : (jobs.claimDue now lease tie).1 = none) {id : String} {row : JobRow}
    (hrow : jobs.lookup id = some row) : row.runnable now = false := by
  refine Bool.eq_false_iff.mpr fun hrunnable => ?_
  have hentry : (⟨id, row⟩ : Sigma fun _ : String => JobRow) ∈
      jobs.entries.filter fun e => e.2.runnable now :=
    List.mem_filter.mpr ⟨Table.lookup_iff_mem.mp hrow, hrunnable⟩
  cases holdest : jobs.oldest now tie with
  | none => exact List.ne_nil_of_mem hentry (List.argmin_eq_none.mp holdest)
  | some e =>
      obtain ⟨id', row'⟩ := e
      rw [Table.claimDue_of_oldest holdest] at h
      cases h

theorem JobRow.runnable_of_queued {row : JobRow} (hqueued : row.queued = true)
    (hdue : row.runAt ≤ now) : row.runnable now = true := by
  unfold JobRow.queued at hqueued
  unfold JobRow.runnable
  cases hstate : row.state <;> rw [hstate] at hqueued <;> simp_all

theorem Drain.came_due (h : Drain began true jobs jobs') {id : String} {row : JobRow}
    (hrow : jobs'.lookup id = some row) (hqueued : row.queued = true) : began < row.runAt := by
  generalize hfinished : true = finished at h
  induction h with
  | refused => cases hfinished
  | finished hclaim =>
      by_contra hle
      have hrunnable := JobRow.runnable_of_queued hqueued (not_lt.mp hle)
      rw [Table.not_runnable_of_claimDue hclaim hrow] at hrunnable
      cases hrunnable
  | ran _ _ _ ih => exact ih hrow hfinished

theorem Pass.came_due {stamp : Stamp} {waits : List (Scheduled × Option ℤ)}
    (h : Pass stamp began true waits jobs nextFire jobs') {id : String} {row : JobRow}
    (hrow : jobs'.lookup id = some row) (hqueued : row.queued = true) : began < row.runAt := by
  cases h with
  | plain _ hdrain => exact hdrain.came_due hrow hqueued
  | swept _ _ hdrain => exact hdrain.came_due (Table.lookup_of_sweepDone hrow) hqueued

theorem sleepFor_le_zero_iff : sleepFor nextFire jobs answered now ≤ 0 ↔
    ∃ fire, some fire ∈ nextFire ∧ fire ≤ now := by
  have hawake : now + sleepFor nextFire jobs answered now ≤ now ↔
      Awake nextFire jobs answered now now := sleepFor_le_iff (le_refl now)
  have hshift : sleepFor nextFire jobs answered now ≤ 0 ↔
      now + sleepFor nextFire jobs answered now ≤ now := by omega
  rw [hshift, hawake]
  constructor
  · rintro (hfar | ⟨seen, hfire | ⟨-, id, row, -, -, hlater, rfl⟩, hle⟩)
    · unfold maxSleep at hfar
      omega
    · exact ⟨seen, hfire, hle⟩
    · omega
  · rintro ⟨fire, hfire, hle⟩
    exact Or.inr ⟨fire, Or.inl hfire, hle⟩

/-- After a pass the runner is awake in time just when that could be foreseen. -/
theorem in_time_iff_foreseen {stamp : Stamp} {waits : List (Scheduled × Option ℤ)}
    (hpass : Pass stamp began finished waits jobs nextFire jobs') (answered : Bool)
    (hnow : began ≤ now) :
    InTime jobs' began now (sleepFor nextFire jobs' answered now) ↔
      Foreseen nextFire jobs' finished answered began now := by
  have hzero : sleepFor nextFire jobs' answered now ≤ 0 ↔
      ∃ fire, some fire ∈ nextFire ∧ fire ≤ now := sleepFor_le_zero_iff
  have hnonneg := sleepFor_nonneg nextFire jobs' answered now
  constructor
  · intro h
    by_cases hfire : ∃ fire, some fire ∈ nextFire ∧ fire ≤ now
    · exact Or.inl hfire
    · refine Or.inr ⟨fun id row hrow hdue => ?_,
        fun id row leaseUntil hrow hstate hlease hlater => ?_,
        fun _ id row hrow hqueued hlater => ?_⟩
      · exact hfire (hzero.mp (h.due id row hrow hdue.1 hdue.2.1))
      · have hend := h.leases id row leaseUntil hrow hstate hlease
        exact (sleepFor_le_iff hlater.le).mp (not_lt.mp fun hlt => hend ⟨hlater, hlt⟩)
      · have hsoon := h.soon id row hrow hqueued
        exact (sleepFor_le_iff hlater.le).mp (not_lt.mp fun hlt => hsoon ⟨hlater, hlt⟩)
  · rintro (hfire | ⟨hdue, hleases, hunread⟩)
    · have hawake := hzero.mpr hfire
      refine ⟨fun _ _ _ _ _ => hawake, fun _ _ _ _ => ?_, fun _ _ _ _ _ _ => ?_,
        fun _ _ _ _ _ => ?_⟩ <;> omega
    · -- a queued row that is left is still to come
      have hlater : ∀ id row, jobs'.lookup id = some row → row.queued = true → now < row.runAt := by
        intro id row hrow hqueued
        by_contra hle
        refine hdue id row hrow ⟨hqueued, not_lt.mp hle, fun hfinished => ?_⟩
        subst hfinished
        exact hpass.came_due hrow hqueued
      have hsoon : ∀ id row, jobs'.lookup id = some row → row.queued = true →
          now + sleepFor nextFire jobs' answered now ≤ row.runAt := by
        intro id row hrow hqueued
        have hlt := hlater id row hrow hqueued
        refine (sleepFor_le_iff hlt.le).mpr ?_
        cases answered with
        | false => exact hunread rfl id row hrow hqueued hlt
        | true =>
            exact Or.inr ⟨row.runAt, Or.inr ⟨rfl, id, row, hrow, hqueued, hlt, rfl⟩, le_rfl⟩
      refine ⟨fun id row hrow hqueued hle => ?_, fun id row hrow hqueued hboth => ?_,
        fun id row leaseUntil hrow hstate hlease hboth => ?_, fun id row hrow hqueued hbegan => ?_⟩
      · exact absurd hle (not_le.mpr (hlater id row hrow hqueued))
      · exact absurd hboth.2 (not_lt.mpr (hsoon id row hrow hqueued))
      · have hend := (sleepFor_le_iff hboth.1.le).mpr
          (hleases id row leaseUntil hrow hstate hlease hboth.1)
        exact absurd hboth.2 (not_lt.mpr hend)
      · have hend := hsoon id row hrow hqueued
        omega

/-! ### A pass that is too long -/

def digestAt (runAt : ℤ) : JobRow where
  name := "digest"
  args := "\x7b\x7d"
  principal := none
  state := .pending
  runAt := runAt
  attempts := 0
  maxAttempts := 3
  leaseUntil := none
  cursor := none
  lastError := none
  createdAt := 0
  updatedAt := 0

/-- A row that is due, and one that is due half a second later. -/
def twoDigests : Table :=
  ((∅ : Table).insert "late" (digestAt 500)).insert "first" (digestAt 0)

def firstDone : Table := (twoDigests.claimDue 0 defaultLeaseMs fun _ => 0).2.complete "first" 0

theorem pass_twoDigests : Pass firstMinute 0 true [] twoDigests [] firstDone := by
  have hclaim : twoDigests.claimDue 0 defaultLeaseMs (fun _ => 0) =
      (some ((digestAt 0).handOut "first"),
        (twoDigests.claimDue 0 defaultLeaseMs fun _ => 0).2) :=
    Prod.ext (by decide +kernel) rfl
  have hnone : (firstDone.claimDue 0 defaultLeaseMs fun _ => 0).1 = none := by decide +kernel
  exact Pass.plain (fun _ => true) (Drain.ran hclaim
    (Relation.ReflTransGen.single (Statement.complete "first" 0)) (Drain.finished hnone))

theorem in_time_iff_foreseen_twoDigests :
    InTime firstDone 0 400 (sleepFor [] firstDone true 400) ↔
      Foreseen [] firstDone true true 0 400 :=
  in_time_iff_foreseen pass_twoDigests true (by decide)

/-- The first job runs for a second. The row that came due meanwhile is left, and the runner sleeps
as long as it ever does. -/
theorem row_is_slept_over :
    ∃ (jobs' : Table) (nextFire : List (Option ℤ)),
      Pass firstMinute 0 true [] twoDigests nextFire jobs' ∧
      ¬ InTime jobs' 0 1000 (sleepFor nextFire jobs' true 1000) := by
  refine ⟨firstDone, [], pass_twoDigests, fun h => ?_⟩
  have hdue := h.due "late" (digestAt 500) (by decide +kernel) rfl (by decide)
  have hsleep : sleepFor [] firstDone true 1000 = 300000 := by decide +kernel
  rw [hsleep] at hdue
  exact absurd hdue (by decide)

end Albedo.Jobs
