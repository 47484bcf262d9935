import Albedo.Jobs.Runners

/-!
# Who may report on a row

Claims are handed out one at a time, but a report names its row by id alone. As long as no
runner reports on a row that was claimed again, and nobody takes a lease over that its
holder still counts as good, every change of a row is its latest holder's.
-/
namespace Albedo.Jobs

variable {batch : ℕ} {event : Event} {w w' : World}

def Event.reporter : Event → Option RunnerId
  | .complete r _ => some r
  | .fail r _ _ _ _ => some r
  | .advance r _ => some r
  | _ => none

def Latest (x : String) (event : Event) (w : World) : Prop :=
  ∀ r hold, event.reporter = some r → w.held r = some hold → hold.job.id = x →
    hold.ticket = w.log.claims x

/-- Every report is on the latest claim of its row, and a lease is taken over only when it
has run out on the clock of everybody who holds the row. -/
def Timely (event : Event) (w : World) : Prop :=
  (∀ x, Latest x event w) ∧
  ∀ r now lease tie id row, event = .claim r now lease tie → w.jobs.oldest now tie = some ⟨id, row⟩ →
    row.state = .claimed → ∀ s hold, w.held s = some hold → hold.job.id = id →
      hold.leaseUntil ≤ (w.runners s).clock

/-! ### Clocks and holders -/

theorem World.clock_setRunner {r : RunnerId} {clock : ℤ} {activity : Activity}
    (h : (w.runners r).clock ≤ clock) (s : RunnerId) :
    (w.runners s).clock ≤ ((w.setRunner r clock activity).runners s).clock := by
  rw [World.runners_setRunner]
  split_ifs with hs
  · rw [hs]
    exact h
  · exact le_rfl

theorem Step.clock_le (hstep : Step batch event w w') (s : RunnerId) :
    (w.runners s).clock ≤ (w'.runners s).clock := by
  cases hstep with
  | enqueue request => exact le_rfl
  | register principal => exact le_rfl
  | delete principal => exact le_rfl
  | tick hclock => exact World.clock_setRunner hclock s
  | crash r => exact World.clock_setRunner le_rfl s
  | claim hidle hclock hclaim => exact World.clock_setRunner hclock s
  | complete hactivity hbody hclock => exact World.clock_setRunner hclock s
  | fail hactivity hclock => exact World.clock_setRunner hclock s
  | readPage hactivity hfanout hpage => exact World.clock_setRunner le_rfl s
  | @queueChild _ r now maxAttempts accepted hold exhausted last principal rest hactivity hclock =>
      cases accepted <;> exact World.clock_setRunner hclock s
  | advance hactivity hclock => exact World.clock_setRunner hclock s

theorem Step.held_reporter (hstep : Step batch event w w') {r : RunnerId}
    (hr : event.reporter = some r) : w'.held r = none := by
  cases hstep with
  | complete hactivity hbody hclock =>
      cases hr
      rw [World.held_setRunner, if_pos rfl]
      rfl
  | fail hactivity hclock =>
      cases hr
      rw [World.held_setRunner, if_pos rfl]
      rfl
  | advance hactivity hclock =>
      cases hr
      rw [World.held_setRunner, if_pos rfl]
      rfl
  | _ => exact nomatch hr

/-- A row that is there before and after a step was left as it was, was claimed, or was
reported on by a runner that holds it. -/
theorem Step.change (hstep : Step batch event w w') {x : String} {row : JobRow}
    (hrow : w.jobs.lookup x = some row) : w'.jobs.lookup x = some row ∨
      (∃ r now lease tie job jobs, event = .claim r now lease tie ∧
        w.jobs.claimDue now lease tie = (some job, jobs) ∧
        w.jobs.oldest now tie = some ⟨x, row⟩ ∧ x = job.id ∧ row.runnable now = true) ∨
      ∃ r hold, event.reporter = some r ∧ w.held r = some hold ∧ x = hold.job.id := by
  obtain ⟨row', hrow'⟩ := Option.isSome_iff_exists.mp (hstep.isSome (by rw [hrow]; rfl))
  cases hstep.row hrow' with
  | same hclaim h =>
      rw [hrow', ← h, hrow]
      exact Or.inl rfl
  | put request hevent hid hnone hput =>
      rw [hnone] at hrow
      exact nomatch hrow
  | claim r now lease tie job jobs row₀ hevent hclaim holdest hid hrow₀ hrunnable hjob hput =>
      cases hrow.symm.trans hrow₀
      exact Or.inr (Or.inl ⟨r, now, lease, tie, job, jobs, hevent, hclaim, holdest, hid, hrunnable⟩)
  | complete r now hold row₀ hevent hactivity hbody hid hrow₀ hput =>
      exact Or.inr (Or.inr ⟨r, hold, by rw [hevent]; rfl, World.held_of_holding hactivity, hid⟩)
  | fail r now terminal error jitter hold row₀ hevent hactivity hid hrow₀ hput =>
      exact Or.inr (Or.inr ⟨r, hold, by rw [hevent]; rfl, World.held_of_holding hactivity, hid⟩)
  | advance r now hold exhausted last row₀ hevent hactivity hid hrow₀ hput =>
      exact Or.inr (Or.inr ⟨r, hold, by rw [hevent]; rfl, World.held_of_inserting hactivity, hid⟩)

/-! ### The invariant -/

/-- The claims of one row are told apart, and the row is claimed as long as its latest
holder holds it. -/
structure Current (x : String) (w : World) : Prop where
  held : Held w
  distinct : ∀ r s hold hold', r ≠ s → w.held r = some hold → w.held s = some hold' →
    hold.job.id = x → hold'.job.id = x → hold.ticket ≠ hold'.ticket
  current : ∀ r hold, w.held r = some hold → hold.job.id = x → hold.ticket = w.log.claims x →
    ∃ row, w.jobs.lookup x = some row ∧ row.state = .claimed

theorem Current.fresh (hw : w.Fresh) (x : String) : Current x w :=
  ⟨.fresh hw, fun r _ hold _ _ h => absurd h (hw.held_ne r hold),
    fun r hold h => absurd h (hw.held_ne r hold)⟩

theorem Current.step_distinct {x : String} (h : Current x w) (hstep : Step batch event w w')
    {r s : RunnerId} {hold hold' : Hold} (hne : r ≠ s) (hr : w'.held r = some hold)
    (hs : w'.held s = some hold') (hid : hold.job.id = x) (hid' : hold'.job.id = x) :
    hold.ticket ≠ hold'.ticket := by
  rcases hstep.held_cases hr with hr | ⟨_, _, _, _, hevent, -, -, hticket⟩
  · rcases hstep.held_cases hs with hs | ⟨_, _, _, _, -, -, -, hticket⟩
    · exact h.distinct r s hold hold' hne hr hs hid hid'
    · have hcounted := (h.held.counted r hold hr).2
      rw [hid] at hcounted
      rw [hid'] at hticket
      omega
  · rcases hstep.held_cases hs with hs | ⟨_, _, _, _, hevent', -, -, -⟩
    · have hcounted := (h.held.counted s hold' hs).2
      rw [hid'] at hcounted
      rw [hid] at hticket
      omega
    · cases hevent.symm.trans hevent'
      exact absurd rfl hne

theorem Current.step_current {x : String} (h : Current x w) (hstep : Step batch event w w')
    (hlatest : Latest x event w) {r : RunnerId} {hold : Hold} (hr : w'.held r = some hold)
    (hid : hold.job.id = x) (hticket : hold.ticket = w'.log.claims x) :
    ∃ row, w'.jobs.lookup x = some row ∧ row.state = .claimed := by
  rcases hstep.held_cases hr with hr₀ | ⟨now, lease, tie, jobs, hevent, hclaim, -, -⟩
  · have hle := (h.held.counted r hold hr₀).2
    have hle' := hstep.claims_le x
    rw [hid] at hle
    obtain ⟨row, hrow, hstate⟩ := h.current r hold hr₀ hid (by omega)
    rcases hstep.change hrow with hsame | ⟨_, _, _, _, job, _, hevent, hclaim, -, hjob, -⟩ |
      ⟨s, hold', hs, hs₀, hid'⟩
    · exact ⟨row, hsame, hstate⟩
    · subst hevent
      rw [hstep.claims_claim hclaim, hjob, Function.update_self, ← hjob] at hticket
      omega
    · have hticket' := hlatest s hold' hs hs₀ hid'.symm
      by_cases hrs : r = s
      · subst hrs
        rw [hstep.held_reporter hs] at hr
        exact nomatch hr
      · exact absurd (by omega) (h.distinct r s hold hold' hrs hr₀ hs₀ hid hid'.symm)
  · subst hevent
    cases hstep with
    | claim hidle hclock hclaim' =>
        cases hclaim.symm.trans hclaim'
        obtain ⟨row, -, hrow, -, -, rfl⟩ := Table.claimDue_some hclaim
        rw [← hid]
        exact ⟨row.claim now lease, AList.lookup_insert _, rfl⟩

theorem Current.step {x : String} (h : Current x w) (hstep : Step batch event w w')
    (hlatest : Latest x event w) : Current x w' where
  held := h.held.step hstep
  distinct := fun _ _ _ _ hne hr hs hid hid' => h.step_distinct hstep hne hr hs hid hid'
  current := fun _ _ hr hid hticket => h.step_current hstep hlatest hr hid hticket

theorem Current.not_reported {x : String} (h : Current x w) (hlatest : Latest x event w)
    {row : JobRow} (hrow : w.jobs.lookup x = some row) (hstate : row.state ≠ .claimed)
    {r : RunnerId} {hold : Hold} (hr : event.reporter = some r) (hhold : w.held r = some hold) :
    hold.job.id ≠ x := by
  intro hid
  obtain ⟨row', hrow', hstate'⟩ := h.current r hold hhold hid (hlatest r hold hr hhold hid)
  cases hrow.symm.trans hrow'
  exact hstate hstate'

def JobRow.over (row : JobRow) : Prop := row.state = .done ∨ row.state = .failed

theorem Current.over {x : String} (h : Current x w) (hstep : Step batch event w w')
    (hlatest : Latest x event w) {row : JobRow} (hrow : w.jobs.lookup x = some row)
    (hover : row.over) : w'.jobs.lookup x = some row := by
  have hstate : row.state ≠ .claimed := by
    rcases hover with hover | hover <;> rw [hover] <;> decide
  rcases hstep.change hrow with hsame | ⟨_, now, _, _, _, _, -, -, -, -, hrunnable⟩ |
    ⟨r, hold, hr, hr₀, hid⟩
  · exact hsame
  · rw [JobRow.not_runnable hover] at hrunnable
    exact nomatch hrunnable
  · exact absurd hid.symm (h.not_reported hlatest hrow hstate hr hr₀)

/-- The lease of any holder but the latest has run out on its own clock. -/
structure Leased (w : World) : Prop where
  current : ∀ x, Current x w
  expired : ∀ r hold, w.held r = some hold → hold.ticket ≠ w.log.claims hold.job.id →
    hold.leaseUntil ≤ (w.runners r).clock

theorem Leased.fresh (hw : w.Fresh) : Leased w :=
  ⟨.fresh hw, fun r hold h => absurd h (hw.held_ne r hold)⟩

theorem Leased.step_expired (h : Leased w) (hstep : Step batch event w w') (hmeets : Timely event w)
    {r : RunnerId} {hold : Hold} (hr : w'.held r = some hold)
    (hticket : hold.ticket ≠ w'.log.claims hold.job.id) :
    hold.leaseUntil ≤ (w'.runners r).clock := by
  rcases hstep.held_cases hr with hr₀ | ⟨now, lease, tie, jobs, hevent, hclaim, -, hnew⟩
  · refine le_trans ?_ (hstep.clock_le r)
    by_cases hlatest : hold.ticket = w.log.claims hold.job.id
    · obtain ⟨row, hrow, hstate⟩ := (h.current _).current r hold hr₀ rfl hlatest
      rcases hstep.claims_eq with hclaims | ⟨s, now, lease, tie, job, jobs, hevent, hclaim, hclaims⟩
      · rw [hclaims] at hticket
        exact absurd hlatest hticket
      · by_cases hid : hold.job.id = job.id
        · obtain ⟨row', holdest, hrow', -⟩ := Table.claimDue_some hclaim
          rw [hid, hrow'] at hrow
          cases hrow
          exact hmeets.2 s now lease tie job.id row hevent holdest hstate r hold hr₀ hid
        · rw [hclaims, Function.update_of_ne hid] at hticket
          exact absurd hlatest hticket
    · exact h.expired r hold hr₀ hlatest
  · subst hevent
    rw [hstep.claims_claim hclaim, Function.update_self] at hticket
    exact absurd hnew hticket

theorem Leased.step (h : Leased w) (hstep : Step batch event w w') (hmeets : Timely event w) :
    Leased w' where
  current := fun x => (h.current x).step hstep (hmeets.1 x)
  expired := fun _ _ hr hticket => h.step_expired hstep hmeets hr hticket

/-! ### Ownership -/

/-- A step changes a row by claiming it, or as the report of its latest holder; a report on
a claim that was followed by another leaves every row as it was, and so does any step a
row that is over. -/
structure StepOwned (event : Event) (w w' : World) : Prop where
  latest : ∀ x row, w.jobs.lookup x = some row → w'.jobs.lookup x = some row ∨
    (∃ r now lease tie job jobs, event = .claim r now lease tie ∧
      w.jobs.claimDue now lease tie = (some job, jobs) ∧ x = job.id) ∨
    ∃ r hold, event.reporter = some r ∧ w.held r = some hold ∧ x = hold.job.id ∧
      hold.ticket = w.log.claims x
  stale : ∀ r hold, event.reporter = some r → w.held r = some hold →
    hold.ticket ≠ w.log.claims hold.job.id → w'.jobs = w.jobs
  settled : ∀ x row, w.jobs.lookup x = some row → row.over → w'.jobs.lookup x = some row

/-- No two runners hold claims of one row that are both good on their own clocks. -/
def World.Exclusive (w : World) : Prop :=
  ∀ r s hold hold', r ≠ s → w.held r = some hold → w.held s = some hold' →
    hold.job.id = hold'.job.id →
    ¬ ((w.runners r).clock < hold.leaseUntil ∧ (w.runners s).clock < hold'.leaseUntil)

theorem Leased.latest_of_good (h : Leased w) {r : RunnerId} {hold : Hold}
    (hr : w.held r = some hold) (hgood : (w.runners r).clock < hold.leaseUntil) :
    hold.ticket = w.log.claims hold.job.id := by
  by_contra hstale
  exact absurd (h.expired r hold hr hstale) (not_le.mpr hgood)

theorem Leased.exclusive (h : Leased w) : w.Exclusive := by
  rintro r s hold hold' hne hr hs hid ⟨hgood, hgood'⟩
  refine (h.current _).distinct r s hold hold' hne hr hs hid rfl ?_
  rw [h.latest_of_good hr hgood, h.latest_of_good hs hgood', hid]

theorem Leased.owned (h : Leased w) (hstep : Step batch event w w') (hmeets : Timely event w) :
    StepOwned event w w' := by
  constructor
  · intro x row hrow
    rcases hstep.change hrow with hsame | ⟨r, now, lease, tie, job, jobs, hevent, hclaim, -, hid, -⟩ |
      ⟨r, hold, hr, hr₀, hid⟩
    · exact Or.inl hsame
    · exact Or.inr (Or.inl ⟨r, now, lease, tie, job, jobs, hevent, hclaim, hid⟩)
    · exact Or.inr (Or.inr ⟨r, hold, hr, hr₀, hid, hmeets.1 x r hold hr hr₀ hid.symm⟩)
  · exact fun r hold hr hr₀ hstale => absurd (hmeets.1 _ r hold hr hr₀ rfl) hstale
  · exact fun x row hrow hover => (h.current x).over hstep (hmeets.1 x) hrow hover

/-! ### Runs -/

/-- In a run in which nobody reports on a row that was claimed again, and no lease is taken
over while its holder counts it as good, only the latest holder of a row changes it, a row
that is over stays as it is, and no two runners hold it. -/
theorem leaseOwned_of_timely (hw : w.Fresh) (hrun : Reaches batch Timely w w') :
    w'.Exclusive ∧
      (∀ event w'', Step batch event w' w'' → Timely event w' → StepOwned event w' w'') ∧
      ∀ w'', Reaches batch Timely w' w'' → ∀ x row, w'.jobs.lookup x = some row → row.over →
        w''.jobs.lookup x = some row := by
  have hleased : ∀ {w'}, Reaches batch Timely w w' → Leased w' := fun hrun =>
    hrun.invariant (P := Leased) (.fresh hw) fun hstep hmeets h => h.step hstep hmeets
  refine ⟨(hleased hrun).exclusive, fun event w'' hstep hmeets =>
    (hleased hrun).owned hstep hmeets, ?_⟩
  intro w'' hrest x row hrow hover
  induction hrest with
  | refl => exact hrow
  | tail hmid hnext ih =>
      obtain ⟨event, hstep, hmeets⟩ := hnext
      exact ((hleased (hrun.trans hmid)).owned hstep hmeets).settled x row ih hover

theorem Timely.claim_first {r : RunnerId} {now lease : ℤ} {tie : String → ℕ}
    (hnobody : ∀ s, w.held s = none) : Timely (.claim r now lease tie) w := by
  refine ⟨fun _ _ _ hr => (nomatch hr), fun _ _ _ _ _ _ _ _ _ s hold hs => ?_⟩
  rw [hnobody] at hs
  exact nomatch hs

theorem Timely.report {r : RunnerId} {hold : Hold} (hr : event.reporter = some r)
    (hhold : w.held r = some hold) (hticket : hold.ticket = w.log.claims hold.job.id) :
    Timely event w := by
  refine ⟨fun x s hold' hs hhold' hid => ?_, fun s now lease tie id row hevent => ?_⟩
  · cases hr.symm.trans hs
    cases hhold.symm.trans hhold'
    rwa [← hid]
  · rw [hevent] at hr
    exact nomatch hr

/-- One runner claims a job and completes it. -/
theorem leaseOwned_of_timely_welcome : ∃ w', Reaches 500 Timely .empty w' ∧
    (w'.jobs.lookup welcome.id).map JobRow.state = some .done ∧ w'.Exclusive := by
  have hstart : Reaches 500 Timely .empty .empty := .refl
  have hdue := Reaches.next hstart (.enqueue welcome) (.enqueue _)
    ⟨fun _ _ _ hr => (nomatch hr), fun _ _ _ _ _ _ h => (nomatch h)⟩
  have hclaimed := Reaches.next hdue (.claim 0 0 defaultLeaseMs anyOrder)
    (.claim rfl le_rfl (Table.claimDue_of_oldest oldest_welcomeDue defaultLeaseMs))
    (Timely.claim_first fun _ => rfl)
  have hdone := Reaches.next hclaimed (.complete 0 0) (.complete rfl rfl le_rfl)
    (Timely.report rfl rfl rfl)
  exact ⟨_, hdone, by decide +kernel, (leaseOwned_of_timely World.fresh_empty hdone).1⟩

/-- A runner pauses past its lease and another one takes the job over: both hold it as good.
When the second completes it and the first then fails it, the finished job is pending
again. -/
theorem late_report_revives :
    (∃ w, Reaches 500 (fun _ _ => True) .empty w ∧ ¬ w.Exclusive) ∧
    ∃ w w', Reaches 500 (fun _ _ => True) .empty w ∧
      Step 500 (.fail 0 0 false "connection reset" fun ms => ms) w w' ∧
      (w.jobs.lookup welcome.id).map JobRow.state = some .done ∧
      (w'.jobs.lookup welcome.id).map JobRow.state = some .pending := by
  have hstart : Reaches 500 (fun _ _ => True) .empty .empty := .refl
  have hdue := Reaches.next hstart (.enqueue welcome) (.enqueue _) trivial
  have hclaimed := Reaches.next hdue (.claim 0 0 defaultLeaseMs anyOrder)
    (.claim rfl le_rfl (Table.claimDue_of_oldest oldest_welcomeDue defaultLeaseMs)) trivial
  have hagain := Reaches.next hclaimed (.claim 1 defaultLeaseMs defaultLeaseMs anyOrder)
    (.claim rfl (by decide) (Table.claimDue_of_oldest oldest_welcomeClaimed defaultLeaseMs)) trivial
  have hdone := Reaches.next hagain (.complete 1 defaultLeaseMs) (.complete rfl rfl le_rfl) trivial
  constructor
  · exact ⟨_, hagain, fun h => h 0 1 _ _ (by decide) rfl rfl rfl (by decide)⟩
  · exact ⟨_, _, hdone, .fail rfl le_rfl, by decide +kernel, by decide +kernel⟩

end Albedo.Jobs
