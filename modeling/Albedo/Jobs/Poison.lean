import Albedo.Jobs.Lease

/-!
# How often a row is handed out

A claim counts an attempt and only a reported failure reads the count. A row is handed out
no more often than it may be as long as the holder of its last attempt reports on it.
-/
namespace Albedo.Jobs

variable {batch : ℕ} {event : Event} {w w' : World}

/-- Jobs are queued with an attempt to make, reports on them are on the latest claim, and
no lease of a last attempt is taken over: its holder reported before it ran out. -/
structure Accounted (event : Event) (w : World) : Prop where
  latest : ∀ x ∉ w.log.fires, Latest x event w
  queued : ∀ request, event = .enqueue request → request.fanout = false → 0 < request.maxAttempts
  child : ∀ r now maxAttempts accepted, event = .queueChild r now maxAttempts accepted →
    0 < maxAttempts
  reported : ∀ r now lease tie id row, event = .claim r now lease tie →
    w.jobs.oldest now tie = some ⟨id, row⟩ → id ∉ w.log.fires → row.state = .claimed →
    row.attempts < row.maxAttempts

/-- The attempts of a row are the times it was handed out, there are no more of them than
there may be, and after the last it is not pending. -/
structure JobRow.Counted (row : JobRow) (claims : ℕ) : Prop where
  attempts : row.attempts = claims
  some_attempt : 0 < row.maxAttempts
  small : row.maxAttempts < 2 ^ 32
  bound : (claims : ℤ) ≤ row.maxAttempts
  last : (claims : ℤ) = row.maxAttempts → row.state ≠ .pending
  plain : row.state ≠ .fanout

structure Counted (x : String) (w : World) : Prop where
  row : ∀ row, w.jobs.lookup x = some row → row.Counted (w.log.claims x)
  absent : w.jobs.lookup x = none → w.log.claims x = 0
  body : ∀ r hold, w.held r = some hold → hold.job.id = x → hold.job.isFanout = false
  holder : ∀ r hold, w.held r = some hold → hold.job.id = x → hold.ticket = w.log.claims x →
    ∀ row, w.jobs.lookup x = some row → (hold.job.attempts.toNat : ℤ) = w.log.claims x ∧
      (hold.job.maxAttempts.toNat : ℤ) = row.maxAttempts

theorem Counted.fresh (hw : w.Fresh) (x : String) : Counted x w := by
  constructor
  · exact fun row hrow => absurd hrow (hw.lookup_ne x row)
  · intro _
    rw [hw.log]
    rfl
  · exact fun r hold h => absurd h (hw.held_ne r hold)
  · exact fun r hold h => absurd h (hw.held_ne r hold)

/-! ### One step of a row -/

theorem JobRow.Counted.put {request : Enqueue} (hpos : 0 < request.maxAttempts)
    (hplain : request.fanout = false) : request.row.Counted 0 := by
  have hpos : (0 : ℤ) < request.maxAttempts.toNat := by
    exact_mod_cast UInt32.lt_iff_toNat_lt.mp hpos
  have hsmall : (request.maxAttempts.toNat : ℤ) < 2 ^ 32 := by
    exact_mod_cast request.maxAttempts.toNat_lt
  refine ⟨rfl, hpos, hsmall, hpos.le, fun hlast => ?_, ?_⟩
  · exact absurd hlast hpos.ne
  · simp [Enqueue.row, hplain]

theorem JobRow.Counted.claim {row : JobRow} {claims : ℕ} (h : row.Counted claims)
    (hleft : row.attempts < row.maxAttempts) (now lease : ℤ) :
    (row.claim now lease).Counted (claims + 1) := by
  have hattempts := h.attempts
  have hsmall := h.small
  have hcount : saturatingAdd row.attempts 1 = row.attempts + 1 :=
    saturatingAdd_one (by omega) (by omega)
  refine ⟨?_, h.some_attempt, h.small, ?_, fun _ => nofun, nofun⟩
  · rw [JobRow.claim, hcount, hattempts]
    rfl
  · rw [JobRow.claim]
    push_cast
    omega

theorem JobRow.Counted.left {row : JobRow} {claims : ℕ} (h : row.Counted claims) {now : ℤ}
    (hrunnable : row.runnable now = true) (hstate : row.state ≠ .claimed) :
    row.attempts < row.maxAttempts := by
  have hattempts := h.attempts
  have hbound := h.bound
  have hpending : row.state = .pending := by
    unfold JobRow.runnable at hrunnable
    cases hrow : row.state with
    | pending => rfl
    | fanout => exact absurd hrow h.plain
    | claimed => exact absurd hrow hstate
    | done => simp [hrow] at hrunnable
    | failed => simp [hrow] at hrunnable
  have hlast : (claims : ℤ) ≠ row.maxAttempts := fun hlast => h.last hlast hpending
  omega

theorem JobRow.Counted.complete {row : JobRow} {claims : ℕ} (h : row.Counted claims) (now : ℤ) :
    (row.complete now).Counted claims :=
  ⟨h.attempts, h.some_attempt, h.small, h.bound, fun _ => nofun, nofun⟩

theorem ClaimedJob.retryAt_last {job : ClaimedJob} (h : job.maxAttempts ≤ job.attempts) (now : ℤ)
    (jitter : ℤ → ℤ) : job.retryAt now jitter = none :=
  if_pos h

theorem JobRow.Counted.fail {row : JobRow} {claims : ℕ} (h : row.Counted claims)
    {retryAt : Option ℤ} (hlast : (claims : ℤ) = row.maxAttempts → retryAt = none) (now : ℤ)
    (error : String) : (row.fail retryAt now error).Counted claims := by
  refine ⟨h.attempts, h.some_attempt, h.small, h.bound, fun hcount => ?_, ?_⟩
  · simp [JobRow.fail, hlast hcount]
  · simp only [JobRow.fail]
    split_ifs <;> decide

theorem Counted.retryAt {x : String} (h : Counted x w) (hlatest : Latest x event w) {r : RunnerId}
    {hold : Hold} (hr : event.reporter = some r) (hhold : w.held r = some hold)
    (hid : hold.job.id = x) {row : JobRow} (hrow : w.jobs.lookup x = some row)
    (hcount : (w.log.claims x : ℤ) = row.maxAttempts) (terminal : Bool) (now : ℤ)
    (jitter : ℤ → ℤ) :
    (if terminal then hold.job.exhausted else hold.job).retryAt now jitter = none := by
  obtain ⟨hattempts, hmost⟩ := h.holder r hold hhold hid (hlatest r hold hr hhold hid) row hrow
  cases terminal with
  | true => exact ClaimedJob.retryAt_last (UInt32.le_refl _) now jitter
  | false =>
      refine ClaimedJob.retryAt_last (UInt32.le_iff_toNat_le.mpr ?_) now jitter
      have hle : (hold.job.maxAttempts.toNat : ℤ) ≤ hold.job.attempts.toNat := by
        rw [hattempts, hmost, hcount]
      exact_mod_cast hle

theorem Counted.step_row {x : String} (h : Counted x w) (hcurrent : Current x w)
    (hstep : Step batch event w w') (hmeets : Accounted event w) (hx : x ∉ w'.log.fires)
    {row' : JobRow} (hrow' : w'.jobs.lookup x = some row') : row'.Counted (w'.log.claims x) := by
  have hx₀ : x ∉ w.log.fires := fun hmem => hx (hstep.fires_subset hmem)
  have hsame : (∀ r now lease tie, event ≠ .claim r now lease tie) →
      w'.log.claims x = w.log.claims x := fun hevent =>
    hstep.claims_same fun r now lease tie job jobs hclaim => absurd hclaim (hevent r now lease tie)
  cases hstep.row hrow' with
  | same hclaim hrow =>
      rw [hstep.claims_same hclaim]
      exact h.row row' hrow
  | put request hevent hid hnone hput =>
      have hplain : request.fanout = false := by
        rcases hevent with rfl | ⟨_, _, _, -, hplain, -⟩
        · by_contra hfanout
          rw [Bool.not_eq_false] at hfanout
          exact hx (hid ▸ hstep.mem_fires (hid ▸ hnone) hfanout)
        · exact hplain
      have hpos : 0 < request.maxAttempts := by
        rcases hevent with rfl | ⟨r, now, maxAttempts, hevent, -, hmax⟩
        · exact hmeets.queued request rfl hplain
        · rw [hmax]
          exact hmeets.child r now maxAttempts true hevent
      have hclaims : w'.log.claims x = 0 := by
        rw [hsame (by rcases hevent with rfl | ⟨_, _, _, rfl, -⟩ <;> nofun), h.absent hnone]
      rw [hput, hclaims]
      exact .put hpos hplain
  | claim r now lease tie job jobs row hevent hclaim holdest hid hrow hrunnable hjob hput =>
      subst hevent
      have hcounted := h.row row hrow
      have hleft : row.attempts < row.maxAttempts := by
        by_cases hstate : row.state = .claimed
        · exact hmeets.reported r now lease tie x row rfl holdest hx₀ hstate
        · exact hcounted.left hrunnable hstate
      have hclaims : w'.log.claims x = w.log.claims x + 1 := by
        rw [hstep.claims_claim hclaim, hid, Function.update_self]
      rw [hput, hclaims]
      exact hcounted.claim hleft now lease
  | complete r now hold row hevent hactivity hbody hid hrow hput =>
      rw [hput, hsame (by rw [hevent]; nofun)]
      exact (h.row row hrow).complete now
  | fail r now terminal error jitter hold row hevent hactivity hid hrow hput =>
      rw [hput, hsame (by rw [hevent]; nofun)]
      refine (h.row row hrow).fail (fun hcount => ?_) now error
      exact h.retryAt (hmeets.latest x hx₀) (by rw [hevent]; rfl) (World.held_of_holding hactivity)
        hid.symm hrow hcount terminal now jitter
  | advance r now hold exhausted last row hevent hactivity hid hrow hput =>
      have hbody := h.body r hold (World.held_of_inserting hactivity) hid.symm
      rw [hcurrent.held.expanding r hold exhausted last [] hactivity] at hbody
      exact nomatch hbody

theorem Counted.step_holder {x : String} (h : Counted x w) (hheld : Held w)
    (hstep : Step batch event w w') (hrows : ∀ row, w'.jobs.lookup x = some row →
      row.Counted (w'.log.claims x)) {r : RunnerId} {hold : Hold} (hhold : w'.held r = some hold)
    (hid : hold.job.id = x) (hticket : hold.ticket = w'.log.claims x) {row' : JobRow}
    (hrow' : w'.jobs.lookup x = some row') : (hold.job.attempts.toNat : ℤ) = w'.log.claims x ∧
      (hold.job.maxAttempts.toNat : ℤ) = row'.maxAttempts := by
  rcases hstep.held_cases hhold with hhold | ⟨now, lease, tie, jobs, hevent, hclaim, -, -⟩
  · have hle := (hheld.counted r hold hhold).2
    have hle' := hstep.claims_le x
    rw [hid] at hle
    have hclaims : w'.log.claims x = w.log.claims x := by omega
    have hpresent := hheld.present r hold hhold
    rw [hid] at hpresent
    obtain ⟨row, hrow⟩ := Option.isSome_iff_exists.mp hpresent
    obtain ⟨hattempts, hmost⟩ := h.holder r hold hhold hid (by omega) row hrow
    rw [hclaims]
    refine ⟨hattempts, hmost.trans ?_⟩
    cases hstep.row hrow' with
    | same hclaim hsame => rw [Option.some.inj (hrow.symm.trans hsame)]
    | put request hevent hid hnone hput => exact nomatch hrow.symm.trans hnone
    | claim _ _ _ _ _ _ row₀ _ _ _ _ hrow₀ _ _ hput => rw [hput, Option.some.inj (hrow.symm.trans hrow₀)]; rfl
    | complete _ _ _ row₀ _ _ _ _ hrow₀ hput => rw [hput, Option.some.inj (hrow.symm.trans hrow₀)]; rfl
    | fail _ _ _ _ _ _ row₀ _ _ _ hrow₀ hput => rw [hput, Option.some.inj (hrow.symm.trans hrow₀)]; rfl
    | advance _ _ _ _ _ row₀ _ _ _ hrow₀ hput => rw [hput, Option.some.inj (hrow.symm.trans hrow₀)]; rfl
  · subst hevent
    cases hstep.row hrow' with
    | same hnot _ => exact absurd hid.symm (hnot r now lease tie _ jobs rfl hclaim)
    | put _ hput _ _ _ => rcases hput with hput | ⟨_, _, _, hput, -⟩ <;> exact nomatch hput
    | claim _ now' lease' tie' job jobs' row hevent hclaim' _ _ _ _ hjob hput =>
        cases hevent
        cases hclaim.symm.trans hclaim'
        have hcounted := hrows row' hrow'
        have hattempts := hcounted.attempts
        have hbound := hcounted.bound
        have hsmall := hcounted.small
        have hmax : row'.maxAttempts = row.maxAttempts := by
          rw [hput]
          rfl
        have hcount : row'.attempts = saturatingAdd row.attempts 1 := by
          rw [hput]
          rfl
        rw [hjob]
        constructor
        · rw [← hattempts, hcount]
          exact toU32_toNat (by omega) (by omega)
        · rw [hmax]
          exact toU32_toNat (by omega) (by omega)
    | complete _ _ _ _ hevent _ _ _ _ _ => exact nomatch hevent
    | fail _ _ _ _ _ _ _ hevent _ _ _ _ => exact nomatch hevent
    | advance _ _ _ _ _ _ hevent _ _ _ _ => exact nomatch hevent

theorem Counted.step {x : String} (h : Counted x w) (hcurrent : Current x w)
    (hstep : Step batch event w w') (hmeets : Accounted event w) (hx : x ∉ w'.log.fires) :
    Counted x w' := by
  have hrows : ∀ row, w'.jobs.lookup x = some row → row.Counted (w'.log.claims x) :=
    fun row hrow => h.step_row hcurrent hstep hmeets hx hrow
  refine ⟨hrows, fun hnone => ?_, fun r hold hhold hid => ?_, fun r hold hhold hid hticket row hrow =>
    h.step_holder hcurrent.held hstep hrows hhold hid hticket hrow⟩
  · have hnone₀ : w.jobs.lookup x = none := by
      by_contra hpresent
      have hsome := hstep.isSome (Option.isSome_iff_ne_none.mpr hpresent)
      rw [hnone] at hsome
      exact nomatch hsome
    rw [hstep.claims_same, h.absent hnone₀]
    intro r now lease tie job jobs _ hclaim hid
    obtain ⟨row, -, hrow, -⟩ := Table.claimDue_some hclaim
    rw [← hid, hnone₀] at hrow
    exact nomatch hrow
  · rcases hstep.held_cases hhold with hhold | ⟨now, lease, tie, jobs, hevent, hclaim, -, -⟩
    · exact h.body r hold hhold hid
    · obtain ⟨row, -, hrow, -, hjob, -⟩ := Table.claimDue_some hclaim
      rw [hjob]
      exact decide_eq_false (h.row row (hid ▸ hrow)).plain

/-! ### Runs -/

/-- What a run keeps of every row that is not a fan-out. -/
def Bounded (w : World) : Prop := ∀ x ∉ w.log.fires, Current x w ∧ Counted x w

theorem Bounded.step (h : Bounded w) (hstep : Step batch event w w') (hmeets : Accounted event w) :
    Bounded w' := by
  intro x hx
  have hx₀ : x ∉ w.log.fires := fun hmem => hx (hstep.fires_subset hmem)
  obtain ⟨hcurrent, hcounted⟩ := h x hx₀
  exact ⟨hcurrent.step hstep (hmeets.latest x hx₀), hcounted.step hcurrent hstep hmeets hx⟩

theorem bounded_of_accounted (hw : w.Fresh) (hrun : Reaches batch Accounted w w') : Bounded w' :=
  hrun.invariant (P := Bounded) (fun x _ => ⟨.fresh hw x, .fresh hw x⟩) fun hstep hmeets h =>
    h.step hstep hmeets

theorem stays_failed (hw : w.Fresh) (hrun : Reaches batch Accounted w w') {w'' : World}
    (hrest : Reaches batch Accounted w' w'') {x : String} (hx : x ∉ w'.log.fires) {row : JobRow}
    (hrow : w'.jobs.lookup x = some row) (hfailed : row.state = .failed) :
    w''.jobs.lookup x = some row ∧ w''.log.claims x = w'.log.claims x := by
  suffices hall : x ∉ w''.log.fires ∧ w''.jobs.lookup x = some row ∧
      w''.log.claims x = w'.log.claims x from hall.2
  induction hrest with
  | refl => exact ⟨hx, hrow, rfl⟩
  | @tail v v' hmid hnext ih =>
      obtain ⟨event, hstep, hmeets⟩ := hnext
      obtain ⟨hv, hrow, hclaims⟩ := ih
      obtain ⟨hcurrent, -⟩ := bounded_of_accounted hw (hrun.trans hmid) x hv
      refine ⟨fun hmem => ?_, hcurrent.over hstep (hmeets.latest x hv) hrow (Or.inr hfailed), ?_⟩
      · rcases hstep.fires_cases hmem with hmem | ⟨request, -, -, hnone, -, -⟩
        · exact hv hmem
        · exact nomatch hrow.symm.trans hnone
      · rw [hstep.claims_same, hclaims]
        rintro r now lease tie job jobs - hclaim rfl
        obtain ⟨row', -, hrow', hrunnable, -⟩ := Table.claimDue_some hclaim
        cases hrow.symm.trans hrow'
        rw [JobRow.not_runnable (Or.inr hfailed)] at hrunnable
        exact nomatch hrunnable

/-- In a run in which the holder of a row's last attempt reports on it, a row is handed out
no more often than it may be; after the last time it is claimed, done or failed; when that
attempt fails it is failed, and a failed row is never handed out again. -/
theorem handedOut_bounded (hw : w.Fresh) (hrun : Reaches batch Accounted w w') :
    ∀ x ∉ w'.log.fires, ∀ row, w'.jobs.lookup x = some row →
      (w'.log.claims x : ℤ) ≤ row.maxAttempts ∧
      ((w'.log.claims x : ℤ) = row.maxAttempts →
        (row.state = .claimed ∨ row.over) ∧
        ∀ r hold now terminal error jitter w'', w'.held r = some hold → hold.job.id = x →
          Step batch (.fail r now terminal error jitter) w' w'' →
          Accounted (.fail r now terminal error jitter) w' →
          ∃ row', w''.jobs.lookup x = some row' ∧ row'.state = .failed) ∧
      (row.state = .failed → ∀ w'', Reaches batch Accounted w' w'' →
        w''.jobs.lookup x = some row ∧ w''.log.claims x = w'.log.claims x) := by
  intro x hx row hrow
  obtain ⟨hcurrent, hcounted⟩ := bounded_of_accounted hw hrun x hx
  have hrowcount := hcounted.row row hrow
  refine ⟨hrowcount.bound, fun hlast => ⟨?_, ?_⟩, fun hfailed w'' hrest => ?_⟩
  · cases hstate : row.state with
    | pending => exact absurd hstate (hrowcount.last hlast)
    | fanout => exact absurd hstate hrowcount.plain
    | claimed => exact Or.inl rfl
    | done => exact Or.inr (Or.inl hstate)
    | failed => exact Or.inr (Or.inr hstate)
  · intro r hold now terminal error jitter w'' hhold hid hstep hmeets
    have hfinal := hcounted.retryAt (hmeets.latest x hx) rfl hhold hid hrow hlast terminal now jitter
    cases hstep with
    | fail hactivity hclock =>
        cases (World.held_of_holding hactivity).symm.trans hhold
        have hjob : (if terminal then hold.job.exhausted else hold.job).id = x := by
          cases terminal <;> exact hid
        refine ⟨row.fail none now error, ?_, rfl⟩
        rw [World.jobs_setRunner, Table.fail, hjob, hfinal, Table.lookup_update, if_pos rfl, hrow]
        rfl
  · exact stays_failed hw hrun hrest hx hrow hfailed

theorem Accounted.enqueue {request : Enqueue} (h : 0 < request.maxAttempts) :
    Accounted (.enqueue request) w where
  latest := fun _ _ _ _ hr => nomatch hr
  queued := by
    intro _ hevent _
    cases hevent
    exact h
  child := fun _ _ _ _ hevent => nomatch hevent
  reported := fun _ _ _ _ _ _ hevent => nomatch hevent

theorem Accounted.claim {r : RunnerId} {now lease : ℤ} {tie : String → ℕ} {id : String} {row : JobRow}
    (h : w.jobs.oldest now tie = some ⟨id, row⟩) (hrow : row.state ≠ .claimed) :
    Accounted (.claim r now lease tie) w where
  latest := fun _ _ _ _ hr => nomatch hr
  queued := fun _ hevent => nomatch hevent
  child := fun _ _ _ _ hevent => nomatch hevent
  reported := by
    rintro _ _ _ _ id' row' hevent holdest - hstate
    cases hevent
    cases h.symm.trans holdest
    exact absurd hstate hrow

/-- One claim of a job that may be tried three times. -/
theorem handedOut_bounded_welcome : ∃ w', Reaches 500 Accounted .empty w' ∧
    w'.log.claims welcome.id = 1 ∧ (w'.log.claims welcome.id : ℤ) ≤ 3 := by
  have hstart : Reaches 500 Accounted .empty .empty := .refl
  have hdue := Reaches.next hstart (.enqueue welcome) (.enqueue _) (Accounted.enqueue (by decide))
  have hclaimed := Reaches.next hdue (.claim 0 0 defaultLeaseMs anyOrder)
    (.claim rfl le_rfl (Table.claimDue_of_oldest oldest_welcomeDue defaultLeaseMs))
    (Accounted.claim oldest_welcomeDue (by decide))
  have hrow : welcomeClaimed.lookup welcome.id = some (welcome.row.claim 0 defaultLeaseMs) :=
    AList.lookup_insert _
  exact ⟨_, hclaimed, by decide +kernel,
    (handedOut_bounded World.fresh_empty hclaimed welcome.id (by decide) _ hrow).1⟩

/-- A job that declares no retries: it is tried once. -/
def charge : Enqueue := { welcome with id := "charge:1", name := "charge", maxAttempts := 1 }

/-- A body that is tried once and kills its process is handed out again. -/
theorem poison_is_immortal : ∃ w, Reaches 500 (fun _ _ => True) .empty w ∧
    charge.id ∉ w.log.fires ∧ (w.jobs.lookup charge.id).map JobRow.maxAttempts = some 1 ∧
    w.log.claims charge.id = 2 := by
  have hstart : Reaches 500 (fun _ _ => True) .empty .empty := .refl
  have hdue := Reaches.next hstart (.enqueue charge) (.enqueue _) trivial
  let due : Table := (Table.enqueue ∅ charge).2
  have holdest : due.oldest 0 anyOrder = some ⟨charge.id, charge.row⟩ := by decide
  have hclaimed := Reaches.next hdue (.claim 0 0 defaultLeaseMs anyOrder)
    (.claim rfl le_rfl (Table.claimDue_of_oldest holdest defaultLeaseMs)) trivial
  have hdead := Reaches.next hclaimed (.crash 0) (.crash 0) trivial
  let claimed : Table := due.insert charge.id (charge.row.claim 0 defaultLeaseMs)
  have hlapsed : claimed.oldest defaultLeaseMs anyOrder =
      some ⟨charge.id, charge.row.claim 0 defaultLeaseMs⟩ := by decide
  have hagain := Reaches.next hdead (.claim 1 defaultLeaseMs defaultLeaseMs anyOrder)
    (.claim rfl (by decide) (Table.claimDue_of_oldest hlapsed defaultLeaseMs)) trivial
  exact ⟨_, hagain, by decide +kernel, by decide +kernel, by decide +kernel⟩

end Albedo.Jobs
