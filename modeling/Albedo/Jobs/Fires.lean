import Mathlib.Logic.Equiv.Nat
import Albedo.Jobs.Runners
import Albedo.Jobs.Schedule
import Albedo.Library.Separator

/-!
# Scheduled fires

Any number of processes wait for the next instant of each declared schedule and queue a
fire when it came due. A fire is named by its job and its instant, so every process computes
the same id and the queue keeps one row of it. A process forgets what it waits for when it
stops, and rows that are done are swept.
-/
namespace Albedo.Jobs
open Separator

/-! ### Fires and their names -/

/-- How an instant is written into an id, in UTC and to the second. -/
structure Stamp where
  render : ℤ → String
  injective : ∀ t u, t % 1000 = 0 → u % 1000 = 0 → render t = render u → t = u
  plain : ∀ t, '#' ∉ (render t).toList

/-- A job that is due on its own. Its name is an identifier, or one of the framework's. -/
structure Scheduled where
  name : String
  schedule : Schedule
  maxAttempts : UInt32
  fanout : Bool
  plain : '@' ∉ name.toList

abbrev Fire := String × ℤ

def fireId (stamp : Stamp) (name : String) (tick : ℤ) : String := name ++ "@" ++ stamp.render tick

def Scheduled.fire (entry : Scheduled) (stamp : Stamp) (fireAt : ℤ) : Enqueue where
  id := fireId stamp entry.name fireAt
  name := entry.name
  args := "\x7b\x7d"
  principal := none
  runAt := fireAt
  maxAttempts := entry.maxAttempts
  fanout := entry.fanout

def Declared (scheduled : List Scheduled) (f : Fire) : Prop :=
  ∃ entry ∈ scheduled, entry.name = f.1 ∧ entry.schedule.Instant f.2

theorem fireId_toList (stamp : Stamp) (name : String) (tick : ℤ) :
    (fireId stamp name tick).toList = name.toList ++ '@' :: (stamp.render tick).toList := by
  simp [fireId]

variable {scheduled : List Scheduled} {stamp : Stamp}

theorem Declared.plain {f : Fire} (h : Declared scheduled f) : '@' ∉ f.1.toList := by
  obtain ⟨entry, -, hname, -⟩ := h
  exact hname ▸ entry.plain

theorem Declared.seconds {f : Fire} (h : Declared scheduled f) : f.2 % 1000 = 0 := by
  obtain ⟨_, -, -, hinstant⟩ := h
  exact hinstant.seconds

theorem fireId_inj {f g : Fire} (hf : Declared scheduled f) (hg : Declared scheduled g)
    (h : fireId stamp f.1 f.2 = fireId stamp g.1 g.2) : f = g := by
  have hlist := congrArg String.toList h
  rw [fireId_toList, fireId_toList] at hlist
  obtain ⟨hname, hstamp⟩ := append_separator_inj hf.plain hg.plain hlist
  exact Prod.ext (String.toList_inj.mp hname)
    (stamp.injective _ _ hf.seconds hg.seconds (String.toList_inj.mp hstamp))

theorem fireId_ne_child {f g : Fire} (hf : Declared scheduled f) (hg : Declared scheduled g)
    (principal : String) : fireId stamp f.1 f.2 ≠ fanoutChildId (fireId stamp g.1 g.2) principal := by
  intro h
  have hlist := congrArg String.toList h
  simp only [fanoutChildId, String.toList_append, fireId_toList, List.append_assoc,
    List.cons_append] at hlist
  obtain ⟨-, hstamp⟩ := append_separator_inj hf.plain hg.plain hlist
  refine stamp.plain f.2 ?_
  rw [hstamp]
  simp

/-! ### Processes -/

abbrev ProcessId := ℕ

structure Wait where
  fireAt : Option ℤ
  since : ℤ
  deriving DecidableEq

/-- A fire that came due on a process, and since when the process had waited for it. -/
structure Due where
  fire : Fire
  since : ℤ

structure Cluster where
  world : World
  processes : ProcessId → Option (List Wait)
  /-- The ids under which application code put a row on the queue. No process reads it. -/
  authored : String → Bool
  /-- The fires whose rows were put on the queue. No process reads it. -/
  born : List Fire
  /-- The fires that came due. No process reads it. -/
  passed : List Due

structure Cluster.Fresh (c : Cluster) : Prop where
  world : c.world.Fresh
  processes : ∀ p, c.processes p = none
  authored : ∀ id, c.authored id = false
  born : c.born = []
  passed : c.passed = []

/-- One schedule of a pass: queue the fire that came due, unless the substrate refuses it,
and wait for the next instant. -/
def Scheduled.materialize (entry : Scheduled) (stamp : Stamp) (accepted : Bool) (fireAt : ℤ)
    (jobs : Table) : Option ℤ × Table :=
  (entry.schedule.nextAfter fireAt,
    if accepted then (jobs.enqueue (entry.fire stamp fireAt)).2 else jobs)

/-- The ids application code used, after a step of the queue. -/
def Event.author (event : Event) (jobs : Table) (authored : String → Bool) : String → Bool :=
  match event with
  | .enqueue request =>
      if jobs.lookup request.id = none then Function.update authored request.id true else authored
  | _ => authored

inductive ClusterEvent where
  | queue (event : Event)
  | sweep (before : ℤ)
  | boot (p : ProcessId) (now : ℤ)
  | stop (p : ProcessId)
  | fire (p : ProcessId) (i : ℕ) (now : ℤ) (accepted : Bool)

def Cluster.setProcess (c : Cluster) (p : ProcessId) (waits : Option (List Wait)) : Cluster :=
  { c with processes := Function.update c.processes p waits }

def Cluster.fired (c : Cluster) (entry : Scheduled) (stamp : Stamp) (p : ProcessId)
    (waits : List Wait) (i : ℕ) (now : ℤ) (accepted : Bool) (fireAt since : ℤ) : Cluster :=
  let request := entry.fire stamp fireAt
  let inserted := accepted = true ∧ c.world.jobs.lookup request.id = none
  let next := entry.materialize stamp accepted fireAt c.world.jobs
  { world :=
      { c.world with
        jobs := next.2
        log := if accepted then c.world.log.enqueued c.world.jobs request else c.world.log }
    processes := Function.update c.processes p (some (waits.set i ⟨next.1, now⟩))
    authored := if inserted then Function.update c.authored request.id false else c.authored
    born := if inserted then (entry.name, fireAt) :: c.born else c.born
    passed := ⟨(entry.name, fireAt), since⟩ :: c.passed }

inductive ClusterStep (scheduled : List Scheduled) (stamp : Stamp) (batch : ℕ) :
    ClusterEvent → Cluster → Cluster → Prop where
  | queue {c : Cluster} {event : Event} {world : World}
      (hplain : ∀ request, event = .enqueue request → request.fanout = false)
      (hstep : Step batch event c.world world) :
      ClusterStep scheduled stamp batch (.queue event) c
        { c with world, authored := event.author c.world.jobs c.authored }
  | sweep {c : Cluster} (before : ℤ) :
      ClusterStep scheduled stamp batch (.sweep before) c
        { c with world := { c.world with jobs := c.world.jobs.sweepDone before } }
  | boot {c : Cluster} (p : ProcessId) (now : ℤ) :
      ClusterStep scheduled stamp batch (.boot p now) c
        (c.setProcess p (some (scheduled.map fun entry => ⟨entry.schedule.nextAfter now, now⟩)))
  | stop {c : Cluster} (p : ProcessId) :
      ClusterStep scheduled stamp batch (.stop p) c
        (c.setProcess p none)
  | fire {c : Cluster} {p : ProcessId} {waits : List Wait} {i : ℕ} {entry : Scheduled}
      {now fireAt since : ℤ} (accepted : Bool) (hprocess : c.processes p = some waits)
      (hentry : scheduled[i]? = some entry) (hwait : waits[i]? = some ⟨some fireAt, since⟩)
      (hdue : fireAt ≤ now) :
      ClusterStep scheduled stamp batch (.fire p i now accepted) c
        (c.fired entry stamp p waits i now accepted fireAt since)

abbrev ClusterReaches (scheduled : List Scheduled) (stamp : Stamp) (batch : ℕ)
    (Meets : ClusterEvent → Cluster → Prop) : Cluster → Cluster → Prop :=
  Relation.ReflTransGen fun c c' =>
    ∃ event, ClusterStep scheduled stamp batch event c c' ∧ Meets event c

/-! ### Rows that are expanded -/

variable {batch : ℕ} {event : Event} {w w' : World}

theorem Step.isSome_cases (hstep : Step batch event w w') {x : String}
    (h : (w'.jobs.lookup x).isSome) : (w.jobs.lookup x).isSome ∨
      (w.jobs.lookup x = none ∧ ∃ request, event = .enqueue request ∧ x = request.id) ∨
      ∃ r hold exhausted last principal rest,
        (w.runners r).activity = .inserting hold exhausted last (principal :: rest) ∧
        x = fanoutChildId hold.job.id principal := by
  obtain ⟨row', hrow'⟩ := Option.isSome_iff_exists.mp h
  cases hstep with
  | enqueue request =>
      rcases Table.lookup_enqueue_cases hrow' with hrow | ⟨hid, hnone, -⟩
      · exact Or.inl (Option.isSome_iff_exists.mpr ⟨row', hrow⟩)
      · exact Or.inr (Or.inl ⟨hnone, request, rfl, hid⟩)
  | claim hidle hclock hclaim =>
      obtain ⟨row, -, hrow, -, -, rfl⟩ := Table.claimDue_some hclaim
      rw [World.jobs_setRunner, Table.lookup_insert_eq] at hrow'
      split_ifs at hrow' with hx
      · exact Or.inl (Option.isSome_iff_exists.mpr ⟨row, hx ▸ hrow⟩)
      · exact Or.inl (Option.isSome_iff_exists.mpr ⟨row', hrow'⟩)
  | complete hactivity hbody hclock => exact Or.inl (Table.isSome_update.mp h)
  | fail hactivity hclock => exact Or.inl (Table.isSome_update.mp h)
  | @queueChild _ r now maxAttempts accepted hold exhausted last principal rest hactivity hclock =>
      cases accepted with
      | false => exact Or.inl h
      | true =>
          rcases Table.lookup_enqueue_cases hrow' with hrow | ⟨hid, -, -⟩
          · exact Or.inl (Option.isSome_iff_exists.mpr ⟨row', hrow⟩)
          · exact Or.inr (Or.inr ⟨r, hold, exhausted, last, principal, rest, hactivity, hid⟩)
  | advance hactivity hclock => exact Or.inl (Table.isSome_update.mp h)
  | _ => exact Or.inl h

structure Expanded (w : World) : Prop where
  rows : ∀ x row, w.jobs.lookup x = some row → row.state = .fanout → x ∈ w.log.fires
  held : ∀ r hold, w.held r = some hold → hold.job.isFanout = true → hold.job.id ∈ w.log.fires
  expanding : ∀ r hold exhausted last rest,
    (w.runners r).activity = .inserting hold exhausted last rest → hold.job.isFanout = true

theorem Expanded.fresh (hw : w.Fresh) : Expanded w := by
  refine ⟨fun x row hrow => absurd hrow (hw.lookup_ne x row),
    fun r hold h => absurd h (hw.held_ne r hold), fun r hold exhausted last rest h => ?_⟩
  exact absurd (World.held_of_inserting h) (hw.held_ne r hold)

theorem Expanded.step_row (h : Expanded w) (hstep : Step batch event w w') {x : String}
    {row' : JobRow} (hrow' : w'.jobs.lookup x = some row') (hstate : row'.state = .fanout) :
    x ∈ w'.log.fires := by
  cases hstep.row hrow' with
  | same hclaim hrow => exact hstep.fires_subset (h.rows x row' hrow hstate)
  | put request hevent hid hnone hput =>
      have hfanout : request.fanout = true := by
        by_contra hplain
        rw [Bool.not_eq_true] at hplain
        simp [hput, Enqueue.row, hplain] at hstate
      rcases hevent with rfl | ⟨_, _, _, -, hplain, -⟩
      · exact hid ▸ hstep.mem_fires (hid ▸ hnone) hfanout
      · rw [hfanout] at hplain
        cases hplain
  | claim _ _ _ _ _ _ _ _ _ _ _ _ _ _ hclaim => simp [hclaim, JobRow.claim] at hstate
  | complete _ _ _ _ _ _ _ _ _ hdone => simp [hdone, JobRow.complete] at hstate
  | fail _ _ terminal _ jitter hold _ _ _ _ _ hfail =>
      rw [hfail, JobRow.fail] at hstate
      split_ifs at hstate
  | advance r _ hold _ _ _ _ hactivity hid _ _ =>
      have hheld := World.held_of_inserting hactivity
      exact hstep.fires_subset (hid ▸ h.held r hold hheld (h.expanding r hold _ _ _ hactivity))

theorem Expanded.step (h : Expanded w) (hstep : Step batch event w w') : Expanded w' := by
  constructor
  · exact fun x row hrow hstate => h.step_row hstep hrow hstate
  · intro r hold hhold hfanout
    rcases hstep.held_cases hhold with hold' | ⟨now, lease, tie, jobs, rfl, hclaim, -, -⟩
    · exact hstep.fires_subset (h.held r hold hold' hfanout)
    · obtain ⟨row, -, hrow, -, hjob, -⟩ := Table.claimDue_some hclaim
      rw [hjob] at hfanout
      exact hstep.fires_subset (h.rows _ row hrow (of_decide_eq_true hfanout))
  · intro r hold exhausted last rest hs
    rcases hstep.inserting_cases hs with hs | ⟨-, -, hfanout, -⟩ | ⟨_, _, _, _, -, hs, -⟩
    · exact h.expanding r hold exhausted last rest hs
    · exact hfanout
    · exact h.expanding r hold exhausted last _ hs

theorem Table.lookup_of_sweepDone {jobs : Table} {before : ℤ} {x : String} {row : JobRow}
    (h : (jobs.sweepDone before).lookup x = some row) : jobs.lookup x = some row := by
  unfold Table.sweepDone at h
  generalize jobs.entries.filter _ = swept at h
  induction swept generalizing jobs with
  | nil => exact h
  | cons e swept ih =>
      have hrow := ih h
      rw [AList.lookup_erase_ne] at hrow
      · exact hrow
      · rintro rfl
        rw [AList.lookup_erase] at hrow
        cases hrow

theorem Expanded.sweep (h : Expanded w) (before : ℤ) :
    Expanded { w with jobs := w.jobs.sweepDone before } :=
  ⟨fun x row hrow => h.rows x row (Table.lookup_of_sweepDone hrow), h.held, h.expanding⟩

/-! ### Names on the queue -/

/-- A row on the queue that application code did not put there is one of a fire, or a share
of one, and what a process waits for is an instant of the schedule. -/
structure Named (scheduled : List Scheduled) (stamp : Stamp) (c : Cluster) : Prop where
  expanded : Expanded c.world
  declared : ∀ f ∈ c.born, Declared scheduled f
  rows : ∀ x, (c.world.jobs.lookup x).isSome → c.authored x = false → ∃ f ∈ c.born,
    x = fireId stamp f.1 f.2 ∨ ∃ principal, x = fanoutChildId (fireId stamp f.1 f.2) principal
  fires : ∀ x ∈ c.world.log.fires, ∃ f ∈ c.born, x = fireId stamp f.1 f.2
  waits : ∀ p (waits : List Wait) (i : ℕ) fireAt since, c.processes p = some waits →
    waits[i]? = some ⟨some fireAt, since⟩ →
    ∃ entry, scheduled[i]? = some entry ∧ entry.schedule.Instant fireAt

variable {c c' : Cluster}

theorem Named.fresh (hc : c.Fresh) : Named scheduled stamp c := by
  constructor
  · exact .fresh hc.world
  · rw [hc.born]
    exact List.forall_mem_nil _
  · intro x hx
    rw [hc.world.lookup] at hx
    cases hx
  · rw [hc.world.log]
    exact List.forall_mem_nil _
  · intro p waits i fireAt since hp
    rw [hc.processes] at hp
    cases hp

theorem Event.author_false {jobs : Table} {authored : String → Bool} {x : String}
    (h : event.author jobs authored x = false) : authored x = false := by
  unfold Event.author at h
  split at h
  · split_ifs at h
    · rw [Function.update_apply] at h
      split_ifs at h
      exact h
    · exact h
  · exact h

theorem Event.author_enqueue {jobs : Table} {authored : String → Bool} {request : Enqueue}
    (h : jobs.lookup request.id = none) :
    (Event.enqueue request).author jobs authored request.id = true := by
  simp only [Event.author, h, if_true, Function.update_self]

theorem Named.child (h : Named scheduled stamp c) {r : RunnerId} {hold : Hold} {exhausted : Bool}
    {last : Option String} {rest : List String}
    (hactivity : (c.world.runners r).activity = .inserting hold exhausted last rest) :
    ∃ f ∈ c.born, hold.job.id = fireId stamp f.1 f.2 :=
  h.fires _ (h.expanded.held r hold (World.held_of_inserting hactivity)
    (h.expanded.expanding r hold _ _ _ hactivity))

theorem Named.queue (h : Named scheduled stamp c) {world : World}
    (hplain : ∀ request, event = .enqueue request → request.fanout = false)
    (hstep : Step batch event c.world world) :
    Named scheduled stamp { c with world, authored := event.author c.world.jobs c.authored } := by
  refine ⟨h.expanded.step hstep, h.declared, fun x hx hauthored => ?_, fun x hx => ?_, h.waits⟩
  · rcases hstep.isSome_cases hx with hx | ⟨hnone, request, rfl, rfl⟩ |
      ⟨r, hold, exhausted, last, principal, rest, hactivity, rfl⟩
    · exact h.rows x hx (Event.author_false hauthored)
    · cases (Event.author_enqueue hnone).symm.trans hauthored
    · obtain ⟨f, hf, hid⟩ := h.child hactivity
      exact ⟨f, hf, Or.inr ⟨principal, by rw [hid]⟩⟩
  · rcases hstep.fires_cases hx with hx | ⟨request, hevent, -, -, -, hfanout⟩
    · exact h.fires x hx
    · rw [hplain request hevent] at hfanout
      cases hfanout

theorem Cluster.processes_setProcess (c : Cluster) (p q : ProcessId)
    (waits : Option (List Wait)) :
    (c.setProcess p waits).processes q = if q = p then waits else c.processes q :=
  Function.update_apply _ _ _ _

theorem Named.setProcess (h : Named scheduled stamp c) {p : ProcessId} {waits : Option (List Wait)}
    (hwaits : ∀ (ws : List Wait) (i : ℕ) fireAt since, waits = some ws → ws[i]? = some ⟨some fireAt, since⟩ →
      ∃ entry, scheduled[i]? = some entry ∧ entry.schedule.Instant fireAt) :
    Named scheduled stamp (c.setProcess p waits) := by
  refine ⟨h.expanded, h.declared, h.rows, h.fires, fun q ws i fireAt since hq => ?_⟩
  rw [Cluster.processes_setProcess] at hq
  split_ifs at hq
  · exact hwaits ws i fireAt since hq
  · exact h.waits q ws i fireAt since hq

theorem Named.sweep (h : Named scheduled stamp c) (before : ℤ) :
    Named scheduled stamp
      { c with world := { c.world with jobs := c.world.jobs.sweepDone before } } := by
  refine ⟨h.expanded.sweep before, h.declared, fun x hx hauthored => ?_, h.fires, h.waits⟩
  obtain ⟨row, hrow⟩ := Option.isSome_iff_exists.mp hx
  exact h.rows x (Option.isSome_iff_exists.mpr ⟨row, Table.lookup_of_sweepDone hrow⟩) hauthored

theorem Cluster.step_fired (c : Cluster) (entry : Scheduled) (stamp : Stamp) (p : ProcessId)
    (waits : List Wait) (i : ℕ) (now fireAt since : ℤ) (batch : ℕ) :
    Step batch (.enqueue (entry.fire stamp fireAt)) c.world
      (c.fired entry stamp p waits i now true fireAt since).world :=
  .enqueue _

theorem Cluster.born_fired_subset (c : Cluster) (entry : Scheduled) (stamp : Stamp) (p : ProcessId)
    (waits : List Wait) (i : ℕ) (now : ℤ) (accepted : Bool) (fireAt since : ℤ) :
    c.born ⊆ (c.fired entry stamp p waits i now accepted fireAt since).born := by
  simp only [Cluster.fired]
  split_ifs
  · exact List.subset_cons_self _ _
  · exact List.Subset.refl _

theorem Cluster.mem_born_fired {c : Cluster} {entry : Scheduled} {stamp : Stamp} {fireAt : ℤ}
    (hnone : c.world.jobs.lookup (fireId stamp entry.name fireAt) = none) (p : ProcessId)
    (waits : List Wait) (i : ℕ) (now since : ℤ) :
    (entry.name, fireAt) ∈ (c.fired entry stamp p waits i now true fireAt since).born := by
  simp [Cluster.fired, Scheduled.fire, hnone]

theorem Cluster.authored_fired {c : Cluster} {x : String} (h : (c.world.jobs.lookup x).isSome)
    (entry : Scheduled) (stamp : Stamp) (p : ProcessId) (waits : List Wait) (i : ℕ) (now : ℤ)
    (accepted : Bool) (fireAt since : ℤ) :
    (c.fired entry stamp p waits i now accepted fireAt since).authored x = c.authored x := by
  simp only [Cluster.fired]
  split_ifs with hinserted
  · refine Function.update_of_ne ?_ _ _
    rintro rfl
    rw [hinserted.2] at h
    cases h
  · rfl

theorem Cluster.waits_fired {c : Cluster} {entry : Scheduled} {stamp : Stamp} {p : ProcessId}
    {waits : List Wait} {i : ℕ} {now : ℤ} {accepted : Bool} {fireAt since : ℤ} {q : ProcessId}
    {waits' : List Wait} {j : ℕ} {wait : Wait} (hprocess : c.processes p = some waits)
    (hq : (c.fired entry stamp p waits i now accepted fireAt since).processes q = some waits')
    (hj : waits'[j]? = some wait) :
    (i = j ∧ wait = ⟨entry.schedule.nextAfter fireAt, now⟩) ∨
      ∃ waits, c.processes q = some waits ∧ waits[j]? = some wait := by
  simp only [Cluster.fired, Function.update_apply] at hq
  split_ifs at hq with hp
  · obtain rfl := Option.some.inj hq
    rw [List.getElem?_set] at hj
    split_ifs at hj with hij hlen
    · exact Or.inl ⟨hij, (Option.some.inj hj).symm⟩
    · exact Or.inr ⟨waits, hp ▸ hprocess, hj⟩
  · exact Or.inr ⟨waits', hq, hj⟩

theorem Named.fire (h : Named scheduled stamp c) {p : ProcessId} {waits : List Wait} {i : ℕ}
    {entry : Scheduled} {now fireAt since : ℤ} (accepted : Bool)
    (hprocess : c.processes p = some waits) (hentry : scheduled[i]? = some entry)
    (hwait : waits[i]? = some ⟨some fireAt, since⟩) :
    Named scheduled stamp (c.fired entry stamp p waits i now accepted fireAt since) := by
  obtain ⟨entry', hentry', hinstant⟩ := h.waits p waits i fireAt since hprocess hwait
  obtain rfl := Option.some.inj (hentry.symm.trans hentry')
  have hdeclared : Declared scheduled (entry.name, fireAt) :=
    ⟨entry, List.mem_of_getElem? hentry, rfl, hinstant⟩
  have hborn := c.born_fired_subset entry stamp p waits i now accepted fireAt since
  have hstep := c.step_fired entry stamp p waits i now fireAt since 0
  constructor
  · cases accepted with
    | false => exact ⟨h.expanded.rows, h.expanded.held, h.expanded.expanding⟩
    | true => exact h.expanded.step hstep
  · intro f hf
    simp only [Cluster.fired] at hf
    split_ifs at hf
    · rcases List.mem_cons.mp hf with rfl | hf
      · exact hdeclared
      · exact h.declared f hf
    · exact h.declared f hf
  · intro x hx hauthored
    have hold : (c.world.jobs.lookup x).isSome → ∃ f ∈ c.born,
        x = fireId stamp f.1 f.2 ∨ ∃ q, x = fanoutChildId (fireId stamp f.1 f.2) q := by
      intro hx
      rw [Cluster.authored_fired hx] at hauthored
      exact h.rows x hx hauthored
    cases accepted with
    | false =>
        obtain ⟨f, hf, hid⟩ := hold hx
        exact ⟨f, hborn hf, hid⟩
    | true =>
        rcases hstep.isSome_cases hx with hx | ⟨hnone, request, hrequest, rfl⟩ |
          ⟨r, hold, exhausted, last, principal, rest, hactivity, rfl⟩
        · obtain ⟨f, hf, hid⟩ := hold hx
          exact ⟨f, hborn hf, hid⟩
        · cases hrequest
          exact ⟨_, Cluster.mem_born_fired hnone p waits i now since, Or.inl rfl⟩
        · obtain ⟨f, hf, hid⟩ := h.child hactivity
          exact ⟨f, hborn hf, Or.inr ⟨principal, by rw [hid]⟩⟩
  · intro x hx
    cases accepted with
    | false =>
        obtain ⟨f, hf, hid⟩ := h.fires x hx
        exact ⟨f, hborn hf, hid⟩
    | true =>
        rcases hstep.fires_cases hx with hx | ⟨request, hrequest, rfl, hnone, -, -⟩
        · obtain ⟨f, hf, hid⟩ := h.fires x hx
          exact ⟨f, hborn hf, hid⟩
        · cases hrequest
          exact ⟨_, Cluster.mem_born_fired hnone p waits i now since, rfl⟩
  · intro q ws j fireAt' since' hq hj
    rcases Cluster.waits_fired hprocess hq hj with ⟨rfl, hnext⟩ | ⟨ws, hq, hj⟩
    · exact ⟨entry, hentry, (Schedule.instant_nextAfter (Wait.mk.inj hnext).1.symm).1⟩
    · exact h.waits q ws j fireAt' since' hq hj

theorem Named.step (h : Named scheduled stamp c) {event : ClusterEvent}
    (hstep : ClusterStep scheduled stamp batch event c c') : Named scheduled stamp c' := by
  cases hstep with
  | queue hplain hstep => exact h.queue hplain hstep
  | sweep before => exact h.sweep before
  | boot p now =>
      refine h.setProcess fun ws i fireAt since hws hi => ?_
      obtain rfl := Option.some.inj hws
      rw [List.getElem?_map] at hi
      obtain ⟨entry, hentry, hwait⟩ := Option.map_eq_some_iff.mp hi
      exact ⟨entry, hentry, (Schedule.instant_nextAfter (Wait.mk.inj hwait).1).1⟩
  | stop p => exact h.setProcess fun ws i fireAt since hws => nomatch hws
  | fire accepted hprocess hentry hwait hdue => exact h.fire accepted hprocess hentry hwait

/-! ### Exactly once -/

/-- A fire that comes due can be queued under its own id: no row of application code has
the id first, and the row of a fire that was queued before is still there. -/
structure OwnId (stamp : Stamp) (entry : Scheduled) (fireAt : ℤ) (c : Cluster) : Prop where
  free : (entry.name, fireAt) ∉ c.born →
    (c.world.jobs.lookup (fireId stamp entry.name fireAt)).isSome →
    c.authored (fireId stamp entry.name fireAt) = false
  kept : (entry.name, fireAt) ∈ c.born →
    (c.world.jobs.lookup (fireId stamp entry.name fireAt)).isSome

/-- Every fire that comes due is queued before the next one is due, the substrate takes it,
and it can be queued under its own id. -/
def Undisturbed (scheduled : List Scheduled) (stamp : Stamp) : ClusterEvent → Cluster → Prop
  | .fire p i now accepted, c => accepted = true ∧ ∀ (waits : List Wait) entry fireAt since,
      c.processes p = some waits → scheduled[i]? = some entry →
      waits[i]? = some ⟨some fireAt, since⟩ →
      (∀ u, entry.schedule.Instant u → fireAt < u → now < u) ∧ OwnId stamp entry fireAt c
  | _, _ => True

/-- Every fire that came due was put on the queue once, and the process that came to it had
waited for it since before it was due. -/
structure Exact (c : Cluster) : Prop where
  nodup : c.born.Nodup
  passed : ∀ due ∈ c.passed, due.fire ∈ c.born ∧ due.since < due.fire.2
  waits : ∀ p (waits : List Wait) (i : ℕ) fireAt since, c.processes p = some waits →
    waits[i]? = some ⟨some fireAt, since⟩ → since < fireAt

theorem Exact.fresh (hc : c.Fresh) : Exact c := by
  constructor
  · rw [hc.born]
    exact List.nodup_nil
  · rw [hc.passed]
    exact List.forall_mem_nil _
  · intro p waits i fireAt since hp
    rw [hc.processes] at hp
    cases hp

theorem Named.lookup_none (h : Named scheduled stamp c) {entry : Scheduled} {fireAt : ℤ}
    (hdeclared : Declared scheduled (entry.name, fireAt)) (hown : OwnId stamp entry fireAt c)
    (hnew : (entry.name, fireAt) ∉ c.born) :
    c.world.jobs.lookup (fireId stamp entry.name fireAt) = none := by
  by_contra hrow
  have hsome := Option.isSome_iff_ne_none.mpr hrow
  obtain ⟨f, hf, hid | ⟨principal, hid⟩⟩ := h.rows _ hsome (hown.free hnew hsome)
  · exact hnew (fireId_inj hdeclared (h.declared f hf) hid ▸ hf)
  · exact fireId_ne_child hdeclared (h.declared f hf) principal hid

theorem Exact.fire (h : Exact c) (hnamed : Named scheduled stamp c) {p : ProcessId}
    {waits : List Wait} {i : ℕ} {entry : Scheduled} {now fireAt since : ℤ}
    (hprocess : c.processes p = some waits) (hentry : scheduled[i]? = some entry)
    (hwait : waits[i]? = some ⟨some fireAt, since⟩)
    (hprompt : ∀ u, entry.schedule.Instant u → fireAt < u → now < u)
    (hown : OwnId stamp entry fireAt c) :
    Exact (c.fired entry stamp p waits i now true fireAt since) := by
  obtain ⟨entry', hentry', hinstant⟩ := hnamed.waits p waits i fireAt since hprocess hwait
  obtain rfl := Option.some.inj (hentry.symm.trans hentry')
  have hdeclared : Declared scheduled (entry.name, fireAt) :=
    ⟨entry, List.mem_of_getElem? hentry, rfl, hinstant⟩
  have hborn := c.born_fired_subset entry stamp p waits i now true fireAt since
  constructor
  · simp only [Cluster.fired]
    split_ifs with hinserted
    · refine List.nodup_cons.mpr ⟨fun hmem => ?_, h.nodup⟩
      have hsome := hown.kept hmem
      rw [show c.world.jobs.lookup (fireId stamp entry.name fireAt) = none from hinserted.2] at hsome
      cases hsome
    · exact h.nodup
  · intro due hdue
    rcases List.mem_cons.mp hdue with rfl | hdue
    · refine ⟨?_, h.waits p waits i fireAt since hprocess hwait⟩
      by_cases hnew : (entry.name, fireAt) ∈ c.born
      · exact hborn hnew
      · exact Cluster.mem_born_fired (hnamed.lookup_none hdeclared hown hnew) p waits i now since
    · exact ⟨hborn (h.passed due hdue).1, (h.passed due hdue).2⟩
  · intro q ws j fireAt' since' hq hj
    rcases Cluster.waits_fired hprocess hq hj with ⟨rfl, hnext⟩ | ⟨ws, hq, hj⟩
    · obtain ⟨hfireAt, rfl⟩ := Wait.mk.inj hnext
      obtain ⟨hlater, hafter⟩ := Schedule.instant_nextAfter hfireAt.symm
      exact hprompt fireAt' hlater hafter
    · exact h.waits q ws j fireAt' since' hq hj

theorem Exact.setProcess (h : Exact c) {p : ProcessId} {waits : Option (List Wait)}
    (hwaits : ∀ (ws : List Wait) (i : ℕ) fireAt since, waits = some ws →
      ws[i]? = some ⟨some fireAt, since⟩ → since < fireAt) : Exact (c.setProcess p waits) := by
  refine ⟨h.nodup, h.passed, fun q ws i fireAt since hq hi => ?_⟩
  rw [Cluster.processes_setProcess] at hq
  split_ifs at hq
  · exact hwaits ws i fireAt since hq hi
  · exact h.waits q ws i fireAt since hq hi

theorem Exact.step (h : Exact c) (hnamed : Named scheduled stamp c) {event : ClusterEvent}
    (hstep : ClusterStep scheduled stamp batch event c c')
    (hmeets : Undisturbed scheduled stamp event c) : Exact c' := by
  cases hstep with
  | queue hplain hstep => exact ⟨h.nodup, h.passed, h.waits⟩
  | sweep before => exact ⟨h.nodup, h.passed, h.waits⟩
  | boot p now =>
      refine h.setProcess fun ws i fireAt since hws hi => ?_
      obtain rfl := Option.some.inj hws
      rw [List.getElem?_map] at hi
      obtain ⟨entry, -, hwait⟩ := Option.map_eq_some_iff.mp hi
      obtain ⟨hnext, rfl⟩ := Wait.mk.inj hwait
      exact (Schedule.instant_nextAfter hnext).2
  | stop p => exact h.setProcess fun ws i fireAt since hws => nomatch hws
  | fire accepted hprocess hentry hwait hdue =>
      obtain ⟨rfl, hmeets⟩ := hmeets
      obtain ⟨hprompt, hown⟩ := hmeets _ _ _ _ hprocess hentry hwait
      exact h.fire hnamed hprocess hentry hwait hprompt hown

theorem ClusterReaches.exact (hc : c.Fresh)
    (hrun : ClusterReaches scheduled stamp batch (Undisturbed scheduled stamp) c c') :
    Named scheduled stamp c' ∧ Exact c' := by
  induction hrun with
  | refl => exact ⟨.fresh hc, .fresh hc⟩
  | tail _ hnext ih =>
      obtain ⟨event, hstep, hmeets⟩ := hnext
      exact ⟨ih.1.step hstep, ih.2.step ih.1 hstep hmeets⟩

/-- What a process did about each schedule is exact. Every instant it had waited for and came
to was put on the queue once, whoever did it, and was still to come when it began to wait. -/
def Cluster.FiresOnce (c : Cluster) : Prop :=
  ∀ due ∈ c.passed, c.born.count due.fire = 1 ∧ due.since < due.fire.2

/-- In a run in which every fire that comes due is queued before the next one is, by an insert
that is not refused, under an id application code did not take and whose row was not swept,
every fire is queued once and none is caught up on. The instants of `every` are the multiples
of its period, and the next one is the least that is still to come. -/
theorem firesOnce_of_undisturbed (hc : c.Fresh)
    (hrun : ClusterReaches scheduled stamp batch (Undisturbed scheduled stamp) c c') :
    c'.FiresOnce ∧
      (∀ period t, (Schedule.every period).Instant t ↔ period.ms ∣ t) ∧
      ∀ period : Period, period.ms ≤ 2 ^ 63 - 1 → ∀ t u, -2 ^ 63 ≤ t →
        ((Schedule.every period).nextAfter t = some u ↔
          IsLeast {v | (Schedule.every period).Instant v ∧ t < v} u ∧ u ≤ 2 ^ 63 - 1) := by
  obtain ⟨-, hexact⟩ := ClusterReaches.exact hc hrun
  refine ⟨fun due hdue => ?_, fun _ _ => Iff.rfl, fun period hperiod t u ht => ?_⟩
  · obtain ⟨hborn, hsince⟩ := hexact.passed due hdue
    exact ⟨List.count_eq_one_of_mem hexact.nodup hborn, hsince⟩
  · exact Schedule.nextAfter_every period hperiod ht u

/-! ### A digest that runs every minute -/

/-- The first minute as it is written into ids, and every other instant as a tally. -/
def firstMinute : Stamp where
  render t :=
    if t = 60000 then "1970-01-01T00:01:00Z"
    else String.ofList (List.replicate (Equiv.intEquivNat t) 'Z')
  injective t u _ _ h := by
    have hne : ∀ n, "1970-01-01T00:01:00Z" ≠ String.ofList (List.replicate n 'Z') := by
      intro n hn
      have hmem : '1' ∈ (String.ofList (List.replicate n 'Z')).toList := hn ▸ by decide
      rw [String.toList_ofList] at hmem
      exact absurd (List.eq_of_mem_replicate hmem) (by decide)
    split_ifs at h with ht hu hu
    · rw [ht, hu]
    · exact absurd h (hne _)
    · exact absurd h.symm (hne _)
    · have hlength := congrArg String.length h
      simp only [String.length_ofList, List.length_replicate] at hlength
      exact Equiv.intEquivNat.injective hlength
  plain t := by
    split_ifs
    · decide
    · rw [String.toList_ofList]
      exact fun hmem => absurd (List.eq_of_mem_replicate hmem) (by decide)

def everyMinute : Scheduled := ⟨"digest", .every ⟨60, by decide⟩, 3, false, by decide⟩

def Cluster.empty : Cluster := ⟨.empty, fun _ => none, fun _ => false, [], []⟩

theorem Cluster.fresh_empty : Cluster.empty.Fresh :=
  ⟨World.fresh_empty, fun _ => rfl, fun _ => rfl, rfl, rfl⟩

theorem everyMinute_nextAfter :
    everyMinute.schedule.nextAfter 0 = some 60000 ∧
      everyMinute.schedule.nextAfter 60000 = some 120000 := by
  decide

/-- A process that waits for a minute, and the state once it came to it. -/
def Cluster.waiting (c : Cluster) (fireAt since : ℤ) : Cluster :=
  c.setProcess 0 (some [⟨some fireAt, since⟩])

def Cluster.minute (c : Cluster) (fireAt since now : ℤ) : Cluster :=
  c.fired everyMinute firstMinute 0 [⟨some fireAt, since⟩] 0 now true fireAt since

theorem Cluster.processes_waiting (c : Cluster) (fireAt since : ℤ) :
    (c.waiting fireAt since).processes 0 = some [⟨some fireAt, since⟩] := by
  rw [Cluster.waiting, Cluster.processes_setProcess, if_pos rfl]

/-- What one process that runs the digest does. -/
abbrev MinuteReaches (Meets : ClusterEvent → Cluster → Prop) : Cluster → Cluster → Prop :=
  ClusterReaches [everyMinute] firstMinute 500 Meets

theorem MinuteReaches.boot {Meets : ClusterEvent → Cluster → Prop} {c₀ : Cluster}
    (hrun : MinuteReaches Meets c₀ c) (hmeets : Meets (.boot 0 0) c) :
    MinuteReaches Meets c₀ (c.waiting 60000 0) := by
  have hstep : ClusterStep [everyMinute] firstMinute 500 (.boot 0 0) c _ := .boot 0 0
  rw [List.map_singleton, everyMinute_nextAfter.1] at hstep
  exact hrun.tail ⟨.boot 0 0, hstep, hmeets⟩

theorem MinuteReaches.fire {Meets : ClusterEvent → Cluster → Prop} {c₀ : Cluster}
    {fireAt since now : ℤ} (hrun : MinuteReaches Meets c₀ c)
    (hprocess : c.processes 0 = some [⟨some fireAt, since⟩]) (hdue : fireAt ≤ now)
    (hmeets : Meets (.fire 0 0 now true) c) : MinuteReaches Meets c₀ (c.minute fireAt since now) :=
  hrun.tail ⟨.fire 0 0 now true, .fire true hprocess rfl rfl hdue, hmeets⟩

/-- The first minute, on a process that comes to it when it is due. -/
theorem firesOnce_of_undisturbed_minute : ∃ c,
    MinuteReaches (Undisturbed [everyMinute] firstMinute) .empty c ∧
      ⟨("digest", 60000), 0⟩ ∈ c.passed ∧ c.FiresOnce := by
  have hprocess := Cluster.empty.processes_waiting 60000 0
  have hmeets : Undisturbed [everyMinute] firstMinute (.fire 0 0 60000 true)
      (Cluster.empty.waiting 60000 0) := by
    refine ⟨rfl, fun waits entry fireAt since hwaits hentry hwait => ?_⟩
    obtain rfl := Option.some.inj (hprocess.symm.trans hwaits)
    obtain rfl := Option.some.inj hentry
    cases hwait
    exact ⟨fun u _ hu => hu, fun _ hrow => absurd hrow (by decide), fun hborn => nomatch hborn⟩
  have hbooted : MinuteReaches (Undisturbed [everyMinute] firstMinute) .empty
      (Cluster.empty.waiting 60000 0) := .boot .refl trivial
  have hrun := hbooted.fire hprocess le_rfl hmeets
  exact ⟨_, hrun, List.mem_cons_self, (firesOnce_of_undisturbed Cluster.fresh_empty hrun).1⟩

def authoredDigest : Enqueue where
  id := "digest@1970-01-01T00:01:00Z"
  name := "digest"
  args := "{}"
  principal := some "ada"
  runAt := 0
  maxAttempts := 3
  fanout := false

def Cluster.authoredFirst : Cluster :=
  { Cluster.empty with
    world := { World.empty with jobs := (Table.enqueue ∅ authoredDigest).2 }
    authored := Function.update (fun _ => false) authoredDigest.id true }

theorem authoredFirst_reaches :
    MinuteReaches (fun _ _ => True) .empty .authoredFirst :=
  .single ⟨.queue (.enqueue authoredDigest),
    .queue (fun _ hrequest => by cases hrequest; rfl) (.enqueue authoredDigest), trivial⟩

/-- A process that is suspended over two minutes queues both when it comes back, and a
digest that application code queues first shuts the first minute out. -/
theorem missed_minutes_caught_up :
    (∃ c, MinuteReaches (fun _ _ => True) .empty c ∧
      ⟨("digest", 120000), 180000⟩ ∈ c.passed ∧ ¬ c.FiresOnce) ∧
    ∃ c, MinuteReaches (fun _ _ => True) .empty c ∧
      ⟨("digest", 60000), 0⟩ ∈ c.passed ∧ c.born = [] ∧ ¬ c.FiresOnce := by
  constructor
  · have hbooted : MinuteReaches (fun _ _ => True) .empty (Cluster.empty.waiting 60000 0) :=
      .boot .refl trivial
    have hfirst : MinuteReaches (fun _ _ => True) .empty _ :=
      hbooted.fire (Cluster.processes_waiting _ _ _) (by decide : (60000 : ℤ) ≤ 180000) trivial
    have hsecond : MinuteReaches (fun _ _ => True) .empty
        (((Cluster.empty.waiting 60000 0).minute 60000 0 180000).minute 120000 180000 180000) :=
      hfirst.fire (by decide) (by decide) trivial
    refine ⟨_, hsecond, List.mem_cons_self, fun honce => ?_⟩
    exact absurd (honce _ List.mem_cons_self).2 (by decide)
  · have hfirst : MinuteReaches (fun _ _ => True) .empty
        ((Cluster.authoredFirst.waiting 60000 0).minute 60000 0 60000) :=
      (authoredFirst_reaches.boot trivial).fire (Cluster.processes_waiting _ _ _) le_rfl trivial
    refine ⟨_, hfirst, List.mem_cons_self, by decide, fun honce => ?_⟩
    exact absurd (honce _ List.mem_cons_self).1 (by decide)

end Albedo.Jobs
