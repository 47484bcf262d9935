import Albedo.Fetch.Client

/-!
# One request for many calls

Whoever leads for a resource is the one its in-flight entry names, so no two calls are on the wire
for it at once. Where every call that leads found nothing kept for the resource, one request is
sent for it in all.
-/
namespace Albedo.Fetch

variable {check : ApertureRequest → Option ApertureError} {budget : ℕ}

def Phase.idle : Phase → Bool
  | .called | .joining _ | .uncached _ _ | .returned _ | .dropped => true
  | _ => false

namespace Client

variable {σ σ' : Client} {i : ℕ} {c : Caller} {phase : Phase}

/-! ### Who leads -/

/-- A call that leads is in the table and stands for its resource there, a call that follows has a
leader that is there or has told it what came back, and no call performs alone. -/
structure Tidy (σ : Client) : Prop where
  lead : ∀ i c, σ.callers i = some c → c.phase.leads → σ.inflight c.request.key = some i
  held : ∀ key i, σ.inflight key = some i →
    ∃ c, σ.callers i = some c ∧ c.request.key = key ∧ c.phase.leads
  follow : ∀ j c leader attempt, σ.callers j = some c → c.phase = .following leader attempt →
    (σ.published leader).isSome ∨ σ.alive leader
  told : ∀ i c outcome, σ.callers i = some c → c.phase = .removing outcome →
    (σ.published i).isSome
  led : ∀ i c stage, σ.callers i = some c → c.phase ≠ .performing false stage

def set (σ : Client) (i : ℕ) (c : Caller) (phase : Phase) : Client :=
  { σ with callers := Function.update σ.callers i (some { c with phase }) }

theorem callers_set (j : ℕ) :
    (σ.set i c phase).callers j = if j = i then some { c with phase } else σ.callers j :=
  Function.update_apply ..

theorem alive_set (j : ℕ) :
    (σ.set i c phase).alive j = if j = i then phase.leads else σ.alive j := by
  unfold alive
  rw [callers_set]
  split_ifs <;> rfl

theorem Tidy.keep (h : σ.Tidy) (hc : σ.callers i = some c) (hleads : phase.leads = c.phase.leads)
    (hfollow : ∀ leader attempt, phase = .following leader attempt →
      (σ.published leader).isSome ∨ σ.alive leader)
    (htold : ∀ outcome, phase = .removing outcome → (σ.published i).isSome)
    (hled : ∀ stage, phase ≠ .performing false stage)
    (hinflight : σ'.inflight = σ.inflight) (hpublished : σ'.published = σ.published)
    (hcallers : σ'.callers = σ.callers) : (σ'.set i c phase).Tidy := by
  have halive : ∀ j, (σ'.set i c phase).alive j = σ.alive j := by
    intro j
    rw [alive_set]
    split_ifs with hj
    · rw [hj, hleads, alive, hc]
      rfl
    · rw [alive, hcallers, alive]
  refine ⟨?_, ?_, ?_, ?_, ?_⟩
  · intro j d hd hlead
    change σ'.inflight _ = _
    rw [hinflight]
    rw [callers_set] at hd
    split_ifs at hd with hj
    · obtain rfl := Option.some.inj hd
      rw [hj]
      exact h.lead i c hc (hleads ▸ hlead)
    · rw [hcallers] at hd
      exact h.lead j d hd hlead
  · intro key j hj
    change σ'.inflight key = some j at hj
    rw [hinflight] at hj
    obtain ⟨d, hd, hkey, hlead⟩ := h.held key j hj
    rw [callers_set]
    split_ifs with hji
    · subst hji
      rw [hc] at hd
      obtain rfl := Option.some.inj hd
      exact ⟨_, rfl, hkey, hleads.trans hlead⟩
    · rw [hcallers]
      exact ⟨d, hd, hkey, hlead⟩
  · intro j d leader attempt hd hphase
    rw [halive]
    change (σ'.published leader).isSome ∨ _
    rw [hpublished]
    rw [callers_set] at hd
    split_ifs at hd with hj
    · obtain rfl := Option.some.inj hd
      exact hfollow leader attempt hphase
    · rw [hcallers] at hd
      exact h.follow j d leader attempt hd hphase
  · intro j d outcome hd hphase
    change (σ'.published j).isSome
    rw [hpublished]
    rw [callers_set] at hd
    split_ifs at hd with hj
    · obtain rfl := Option.some.inj hd
      rw [hj]
      exact htold outcome hphase
    · rw [hcallers] at hd
      exact h.told j d outcome hd hphase
  · intro j d stage hd
    rw [callers_set] at hd
    split_ifs at hd with hj
    · obtain rfl := Option.some.inj hd
      exact hled stage
    · rw [hcallers] at hd
      exact h.led j d stage hd

theorem Tidy.join (h : σ.Tidy) (hc : σ.callers i = some c) (hleads : c.phase.leads = false)
    (hnobody : σ.inflight c.request.key = none) (stage : Stage) :
    (({ σ with inflight := Function.update σ.inflight c.request.key (some i) } : Client).set i c
      (.performing true stage)).Tidy := by
  have hnot : ∀ key, σ.inflight key ≠ some i := by
    intro key hkey
    obtain ⟨d, hd, -, hlead⟩ := h.held key i hkey
    rw [hc] at hd
    obtain rfl := Option.some.inj hd
    rw [hleads] at hlead
    cases hlead
  refine ⟨?_, ?_, ?_, ?_, ?_⟩
  · intro j d hd hlead
    change Function.update σ.inflight c.request.key (some i) d.request.key = some j
    rw [callers_set] at hd
    split_ifs at hd with hj
    · obtain rfl := Option.some.inj hd
      rw [hj]
      exact Function.update_self ..
    · have hentry := h.lead j d hd hlead
      rw [Function.update_of_ne]
      · exact hentry
      · intro hkey
        rw [hkey, hnobody] at hentry
        cases hentry
  · intro key j hj
    change Function.update σ.inflight c.request.key (some i) key = some j at hj
    rw [callers_set]
    by_cases hkey : key = c.request.key
    · subst hkey
      rw [Function.update_self] at hj
      obtain rfl := Option.some.inj hj
      rw [if_pos rfl]
      exact ⟨_, rfl, rfl, rfl⟩
    · rw [Function.update_of_ne hkey] at hj
      have hji : j ≠ i := by
        rintro rfl
        exact hnot key hj
      rw [if_neg hji]
      exact h.held key j hj
  · intro j d leader attempt hd hphase
    rw [callers_set] at hd
    split_ifs at hd with hj
    · obtain rfl := Option.some.inj hd
      cases hphase
    · refine (h.follow j d leader attempt hd hphase).imp_right ?_
      intro halive
      rw [alive_set]
      split_ifs
      · rfl
      · exact halive
  · intro j d outcome hd hphase
    rw [callers_set] at hd
    split_ifs at hd with hj
    · obtain rfl := Option.some.inj hd
      cases hphase
    · exact h.told j d outcome hd hphase
  · intro j d stage' hd
    rw [callers_set] at hd
    split_ifs at hd with hj
    · obtain rfl := Option.some.inj hd
      rintro ⟨⟩
    · exact h.led j d stage' hd

theorem Tidy.publish (h : σ.Tidy) {outcome : Outcome} (hc : σ.callers i = some c)
    (hphase : c.phase = .publishing outcome) :
    (({ σ with published := Function.update σ.published i (some outcome) } : Client).set i c
      (.removing outcome)).Tidy := by
  have hleads : c.phase.leads = true := by
    rw [hphase]
    rfl
  have hmore : ∀ j, (σ.published j).isSome →
      (Function.update σ.published i (some outcome) j).isSome := by
    intro j hj
    by_cases hji : j = i
    · rw [hji, Function.update_self]
      rfl
    · rwa [Function.update_of_ne hji]
  refine ⟨?_, ?_, ?_, ?_, ?_⟩
  · intro j d hd hlead
    rw [callers_set] at hd
    split_ifs at hd with hj
    · obtain rfl := Option.some.inj hd
      rw [hj]
      exact h.lead i c hc hleads
    · exact h.lead j d hd hlead
  · intro key j hj
    obtain ⟨d, hd, hkey, hlead⟩ := h.held key j hj
    rw [callers_set]
    split_ifs with hji
    · subst hji
      rw [hc] at hd
      obtain rfl := Option.some.inj hd
      exact ⟨_, rfl, hkey, rfl⟩
    · exact ⟨d, hd, hkey, hlead⟩
  · intro j d leader attempt hd hfollowing
    rw [callers_set] at hd
    split_ifs at hd with hj
    · obtain rfl := Option.some.inj hd
      cases hfollowing
    · rcases h.follow j d leader attempt hd hfollowing with hpublished | halive
      · exact .inl (hmore leader hpublished)
      · right
        rw [alive_set]
        split_ifs
        · rfl
        · exact halive
  · intro j d outcome' hd hremoving
    rw [callers_set] at hd
    split_ifs at hd with hj
    · rw [hj]
      change (Function.update σ.published i (some outcome) i).isSome
      rw [Function.update_self]
      rfl
    · exact hmore j (h.told j d outcome' hd hremoving)
  · intro j d stage hd
    rw [callers_set] at hd
    split_ifs at hd with hj
    · obtain rfl := Option.some.inj hd
      rintro ⟨⟩
    · exact h.led j d stage hd

theorem Tidy.remove (h : σ.Tidy) {outcome : Outcome} (hc : σ.callers i = some c)
    (hphase : c.phase = .removing outcome) :
    (({ σ with inflight := Function.update σ.inflight c.request.key none } : Client).set i c
      (.returned outcome)).Tidy := by
  have hmine : σ.inflight c.request.key = some i := by
    apply h.lead i c hc
    rw [hphase]
    rfl
  refine ⟨?_, ?_, ?_, ?_, ?_⟩
  · intro j d hd hlead
    rw [callers_set] at hd
    split_ifs at hd with hj
    · obtain rfl := Option.some.inj hd
      cases hlead
    · have hentry := h.lead j d hd hlead
      change Function.update σ.inflight c.request.key none d.request.key = some j
      rw [Function.update_of_ne]
      · exact hentry
      · intro hkey
        rw [hkey, hmine] at hentry
        exact hj (Option.some.inj hentry).symm
  · intro key j hj
    change Function.update σ.inflight c.request.key none key = some j at hj
    by_cases hkey : key = c.request.key
    · rw [hkey, Function.update_self] at hj
      cases hj
    · rw [Function.update_of_ne hkey] at hj
      obtain ⟨d, hd, hkey', hlead⟩ := h.held key j hj
      rw [callers_set]
      split_ifs with hji
      · subst hji
        rw [hc] at hd
        obtain rfl := Option.some.inj hd
        exact absurd hkey'.symm hkey
      · exact ⟨d, hd, hkey', hlead⟩
  · intro j d leader attempt hd hfollowing
    rw [callers_set] at hd
    split_ifs at hd with hj
    · obtain rfl := Option.some.inj hd
      cases hfollowing
    · rcases h.follow j d leader attempt hd hfollowing with hpublished | halive
      · exact .inl hpublished
      · by_cases hleader : leader = i
        · left
          rw [hleader]
          exact h.told i c outcome hc hphase
        · right
          rw [alive_set, if_neg hleader]
          exact halive
  · intro j d outcome' hd hremoving
    rw [callers_set] at hd
    split_ifs at hd with hj
    · obtain rfl := Option.some.inj hd
      cases hremoving
    · exact h.told j d outcome' hd hremoving
  · intro j d stage hd
    rw [callers_set] at hd
    split_ifs at hd with hj
    · obtain rfl := Option.some.inj hd
      rintro ⟨⟩
    · exact h.led j d stage hd

/-- What a step of `perform` leaves alone, and where it leads. -/
structure Performs (σ σ' : Client) (leads : Bool) (phase : Phase) : Prop where
  inflight : σ'.inflight = σ.inflight
  published : σ'.published = σ.published
  callers : σ'.callers = σ.callers
  phase : (∃ stage, phase = .performing leads stage) ∨ ∃ outcome, phase = finish leads outcome

theorem performs_of_runStage {request : ApertureRequest} {leads : Bool} {stage : Stage}
    (h : σ.runStage request leads stage = some (phase, σ')) : σ.Performs σ' leads phase := by
  cases stage with
  | validators =>
      cases h
      exact ⟨rfl, rfl, rfl, .inl ⟨_, rfl⟩⟩
  | charge wire =>
      cases h
      exact ⟨rfl, rfl, rfl, .inl ⟨_, rfl⟩⟩
  | sent wire => cases h
  | confirmed =>
      simp only [runStage] at h
      split at h <;> cases h
      · exact ⟨rfl, rfl, rfl, .inr ⟨_, rfl⟩⟩
      · exact ⟨rfl, rfl, rfl, .inl ⟨_, rfl⟩⟩
  | refresh entry =>
      cases h
      exact ⟨rfl, rfl, rfl, .inl ⟨_, rfl⟩⟩
  | reread =>
      simp only [runStage] at h
      split at h <;> cases h
      · exact ⟨rfl, rfl, rfl, .inr ⟨_, rfl⟩⟩
      · exact ⟨rfl, rfl, rfl, .inr ⟨_, rfl⟩⟩
  | compare response =>
      cases h
      exact ⟨rfl, rfl, rfl, .inl ⟨_, rfl⟩⟩
  | store response =>
      cases h
      exact ⟨rfl, rfl, rfl, .inl ⟨_, rfl⟩⟩
  | measure response =>
      simp only [runStage] at h
      split_ifs at h <;> cases h
      · exact ⟨rfl, rfl, rfl, .inr ⟨_, rfl⟩⟩
      · exact ⟨rfl, rfl, rfl, .inl ⟨_, rfl⟩⟩
  | collect response total =>
      cases h
      exact ⟨rfl, rfl, rfl, .inl ⟨_, rfl⟩⟩
  | evict response total candidates =>
      cases candidates with
      | nil =>
          cases h
          exact ⟨rfl, rfl, rfl, .inr ⟨_, rfl⟩⟩
      | cons candidate rest =>
          obtain ⟨touched, key, footprint⟩ := candidate
          simp only [runStage] at h
          split_ifs at h <;> cases h
          · exact ⟨rfl, rfl, rfl, .inr ⟨_, rfl⟩⟩
          · exact ⟨rfl, rfl, rfl, .inl ⟨_, rfl⟩⟩
          · exact ⟨rfl, rfl, rfl, .inl ⟨_, rfl⟩⟩
  | fallBack error =>
      simp only [runStage] at h
      split at h <;> cases h
      · exact ⟨rfl, rfl, rfl, .inr ⟨_, rfl⟩⟩
      · exact ⟨rfl, rfl, rfl, .inr ⟨_, rfl⟩⟩

theorem Tidy.perform (h : σ.Tidy) {stage : Stage} (hc : σ.callers i = some c)
    (hphase : c.phase = .performing true stage) (hstep : σ.Performs σ' true phase) :
    (σ'.set i c phase).Tidy := by
  have hleads : c.phase.leads = true := by
    rw [hphase]
    rfl
  rcases hstep.phase with ⟨stage', rfl⟩ | ⟨outcome, rfl⟩
  · refine h.keep hc hleads.symm ?_ ?_ ?_ hstep.inflight hstep.published hstep.callers
    · rintro leader attempt ⟨⟩
    · rintro outcome ⟨⟩
    · rintro stage ⟨⟩
  · refine h.keep hc hleads.symm ?_ ?_ ?_ hstep.inflight hstep.published hstep.callers
    · rintro leader attempt ⟨⟩
    · rintro outcome ⟨⟩
    · rintro stage ⟨⟩

theorem Tidy.idle (h : σ.Tidy) (hc : σ.callers i = some c) (hleads : c.phase.leads = false)
    (hidle : phase.idle = true) (hinflight : σ'.inflight = σ.inflight)
    (hpublished : σ'.published = σ.published) (hcallers : σ'.callers = σ.callers) :
    (σ'.set i c phase).Tidy := by
  refine h.keep hc ?_ ?_ ?_ ?_ hinflight hpublished hcallers
  · rw [hleads]
    cases phase <;> first | rfl | cases hidle
  · rintro leader attempt rfl
    cases hidle
  · rintro outcome rfl
    cases hidle
  · rintro stage rfl
    cases hidle

def KeepsLeader (σ : Client) : Event → Prop
  | .drop i => ∀ c, σ.callers i = some c → c.phase.leads = false
  | _ => True

theorem Tidy.runPhase (h : σ.Tidy) (hc : σ.callers i = some c)
    (hstep : σ.runPhase check i c.request c.phase = some (phase, σ')) : (σ'.set i c phase).Tidy := by
  cases hphase : c.phase with
  | called =>
      have hleads : c.phase.leads = false := by
        rw [hphase]
        rfl
      rw [hphase] at hstep
      simp only [Client.runPhase] at hstep
      split at hstep
      · cases hstep
        exact h.idle hc hleads rfl rfl rfl rfl
      · split_ifs at hstep
        · split at hstep
          · cases hstep
            exact h.idle hc hleads rfl rfl rfl rfl
          · split_ifs at hstep <;> cases hstep
            · exact h.idle hc hleads rfl rfl rfl rfl
            · exact h.idle hc hleads rfl rfl rfl rfl
        · cases hstep
          exact h.idle hc hleads rfl rfl rfl rfl
  | joining attempt =>
      have hleads : c.phase.leads = false := by
        rw [hphase]
        rfl
      rw [hphase] at hstep
      simp only [Client.runPhase] at hstep
      split at hstep
      case h_1 leader hleader =>
        cases hstep
        refine h.keep hc hleads.symm ?_ ?_ ?_ rfl rfl rfl
        · rintro leader' attempt' ⟨⟩
          obtain ⟨d, hd, -, hlead⟩ := h.held _ leader hleader
          right
          rw [alive, hd]
          exact hlead
        · rintro outcome ⟨⟩
        · rintro stage ⟨⟩
      case h_2 hnobody =>
        cases hstep
        exact h.join hc hleads hnobody _
  | following leader attempt =>
      have hleads : c.phase.leads = false := by
        rw [hphase]
        rfl
      rw [hphase] at hstep
      simp only [Client.runPhase] at hstep
      split at hstep
      case h_1 =>
        cases hstep
        exact h.idle hc hleads rfl rfl rfl rfl
      case h_2 hpublished =>
        -- A leader that has told nothing is still there.
        have halive : σ.alive leader = true := by
          rcases h.follow i c leader attempt hc hphase with hsome | halive
          · rw [hpublished] at hsome
            cases hsome
          · exact halive
        rw [if_pos halive] at hstep
        cases hstep
  | performing leads stage =>
      cases leads with
      | false => exact absurd hphase (h.led i c stage hc)
      | true =>
          rw [hphase] at hstep
          exact h.perform hc hphase (performs_of_runStage hstep)
  | publishing outcome =>
      rw [hphase] at hstep
      cases hstep
      exact h.publish hc hphase
  | removing outcome =>
      rw [hphase] at hstep
      cases hstep
      exact h.remove hc hphase
  | uncached wire sent =>
      have hleads : c.phase.leads = false := by
        rw [hphase]
        rfl
      rw [hphase] at hstep
      cases sent <;> cases hstep
      exact h.idle hc hleads rfl rfl rfl rfl
  | returned outcome =>
      rw [hphase] at hstep
      cases hstep
  | dropped =>
      rw [hphase] at hstep
      cases hstep

theorem Tidy.call (h : σ.Tidy) (hi : σ.callers i = none) (request : ApertureRequest) :
    (σ.set i ⟨request, .called⟩ .called).Tidy := by
  have halive : ∀ j, σ.alive j = true → (σ.set i ⟨request, .called⟩ .called).alive j = true := by
    intro j hj
    rw [alive_set, if_neg]
    · exact hj
    · rintro rfl
      rw [alive, hi] at hj
      cases hj
  have hold : ∀ j d, (σ.set i ⟨request, .called⟩ .called).callers j = some d →
      d = ⟨request, .called⟩ ∨ σ.callers j = some d := by
    intro j d hd
    rw [callers_set] at hd
    split_ifs at hd
    · exact .inl (Option.some.inj hd).symm
    · exact .inr hd
  refine ⟨?_, ?_, ?_, ?_, ?_⟩
  · intro j d hd hlead
    rcases hold j d hd with rfl | hd
    · cases hlead
    · exact h.lead j d hd hlead
  · intro key j hj
    obtain ⟨d, hd, hkey, hlead⟩ := h.held key j hj
    rw [callers_set, if_neg]
    · exact ⟨d, hd, hkey, hlead⟩
    · rintro rfl
      rw [hi] at hd
      cases hd
  · intro j d leader attempt hd hphase
    rcases hold j d hd with rfl | hd
    · cases hphase
    · exact (h.follow j d leader attempt hd hphase).imp_right (halive leader)
  · intro j d outcome hd hphase
    rcases hold j d hd with rfl | hd
    · cases hphase
    · exact h.told j d outcome hd hphase
  · intro j d stage hd
    rcases hold j d hd with rfl | hd
    · rintro ⟨⟩
    · exact h.led j d stage hd

theorem Tidy.stepCaller (h : σ.Tidy) (hc : σ.callers i = some c) {event : Event}
    (hkeeps : ∀ j, event = .drop j → c.phase.leads = false)
    (hstep : σ.stepCaller check i c event = some (phase, σ')) : (σ'.set i c phase).Tidy := by
  cases event with
  | run j => exact h.runPhase hc hstep
  | refuse j host retryAfter =>
      simp only [Client.stepCaller] at hstep
      split at hstep
      case h_1 leads wire hphase =>
        cases hstep
        cases leads with
        | false => exact absurd hphase (h.led i c _ hc)
        | true => exact h.perform hc hphase ⟨rfl, rfl, rfl, .inl ⟨_, rfl⟩⟩
      case h_2 wire hphase =>
        cases hstep
        exact h.idle hc (by rw [hphase]; rfl) rfl rfl rfl rfl
      case h_3 => cases hstep
  | answer j answer =>
      simp only [Client.stepCaller] at hstep
      split at hstep
      case h_1 leads wire hphase =>
        cases hstep
        cases leads with
        | false => exact absurd hphase (h.led i c _ hc)
        | true =>
            refine h.perform hc hphase ⟨rfl, rfl, rfl, .inl ?_⟩
            cases answer with
            | error error => exact ⟨_, rfl⟩
            | ok response => exact ⟨_, rfl⟩
      case h_2 wire hphase =>
        cases hstep
        exact h.idle hc (by rw [hphase]; rfl) rfl rfl rfl rfl
      case h_3 => cases hstep
  | drop j =>
      have hleads := hkeeps j rfl
      simp only [Client.stepCaller] at hstep
      split at hstep
      case h_4 => cases hstep
      all_goals
        cases hstep
        exact h.idle hc hleads rfl rfl rfl rfl
  | call j request => cases hstep
  | pass ms => cases hstep

/-- What a step of a client is: a new call, time that passes, or a step of one call. -/
inductive Stepped (check : ApertureRequest → Option ApertureError) (σ : Client) :
    Event → Client → Prop
  | call (i : ℕ) (request : ApertureRequest) (hi : σ.callers i = none) :
      Stepped check σ (.call i request) (σ.set i ⟨request, .called⟩ .called)
  | pass (ms : ℕ) : Stepped check σ (.pass ms) { σ with now := σ.now + ms }
  | step (event : Event) (i : ℕ) (c : Caller) (phase : Phase) (τ : Client)
      (hevent : event = .run i ∨ (∃ host retryAfter, event = .refuse i host retryAfter) ∨
        (∃ answer, event = .answer i answer) ∨ event = .drop i)
      (hc : σ.callers i = some c) (hstep : σ.stepCaller check i c event = some (phase, τ)) :
      Stepped check σ event (τ.set i c phase)

theorem stepped {event : Event} (h : σ.next check event = some σ') : Stepped check σ event σ' := by
  have hstep : ∀ i, next.step check σ i event = some σ' →
      (event = .run i ∨ (∃ host retryAfter, event = .refuse i host retryAfter) ∨
        (∃ answer, event = .answer i answer) ∨ event = .drop i) → Stepped check σ event σ' := by
    intro i h hevent
    unfold next.step at h
    split at h
    case h_1 => cases h
    case h_2 c hc =>
      obtain ⟨⟨phase, τ⟩, hstep, rfl⟩ := Option.map_eq_some_iff.mp h
      exact .step event i c phase τ hevent hc hstep
  cases event with
  | call i request =>
      simp only [Client.next] at h
      split_ifs at h with hi
      cases h
      exact .call i request (Option.not_isSome_iff_eq_none.mp hi)
  | pass ms =>
      cases h
      exact .pass ms
  | run i => exact hstep i h (.inl rfl)
  | refuse i host retryAfter => exact hstep i h (.inr (.inl ⟨_, _, rfl⟩))
  | answer i answer => exact hstep i h (.inr (.inr (.inl ⟨_, rfl⟩)))
  | drop i => exact hstep i h (.inr (.inr (.inr rfl)))

theorem Tidy.next (h : σ.Tidy) {event : Event} (hkeeps : σ.KeepsLeader event)
    (hnext : σ.next check event = some σ') : σ'.Tidy := by
  cases stepped hnext with
  | call i request hi => exact h.call hi request
  | pass ms => exact ⟨h.lead, h.held, h.follow, h.told, h.led⟩
  | step event i c phase τ hevent hc hstep =>
      refine h.stepCaller hc ?_ hstep
      rintro j rfl
      have hij : j = i := by
        rcases hevent with heq | ⟨_, _, heq⟩ | ⟨_, heq⟩ | heq <;> cases heq
        rfl
      subst hij
      exact hkeeps c hc

theorem Run.tidy (h : Run check budget KeepsLeader σ) : σ.Tidy := by
  induction h with
  | start =>
      refine ⟨?_, ?_, ?_, ?_, ?_⟩
      · rintro i c ⟨⟩
      · rintro key i ⟨⟩
      · rintro j c leader attempt ⟨⟩
      · rintro i c outcome ⟨⟩
      · rintro i c stage ⟨⟩
  | next hrun event hevent hnext ih => exact ih.next hevent hnext

/-- No two requests for one resource are on the wire, and nothing is in flight once every call is
over. -/
structure Alone (σ : Client) : Prop where
  one : ∀ i j c d leads leads' wire wire', σ.callers i = some c → σ.callers j = some d →
    c.request.key = d.request.key → c.phase = .performing leads (.sent wire) →
    d.phase = .performing leads' (.sent wire') → i = j
  finished : (∀ i c, σ.callers i = some c → c.phase = .dropped ∨ ∃ outcome, c.phase = .returned outcome) →
    ∀ key, σ.inflight key = none

theorem Tidy.alone (h : σ.Tidy) : σ.Alone := by
  refine ⟨?_, ?_⟩
  · intro i j c d leads leads' wire wire' hc hd hkey hphase hphase'
    cases leads with
    | false => exact absurd hphase (h.led i c _ hc)
    | true =>
        cases leads' with
        | false => exact absurd hphase' (h.led j d _ hd)
        | true =>
            have hi := h.lead i c hc (by rw [hphase]; rfl)
            have hj := h.lead j d hd (by rw [hphase']; rfl)
            rw [hkey, hj] at hi
            exact (Option.some.inj hi).symm
  · intro hover key
    cases hentry : σ.inflight key with
    | none => rfl
    | some i =>
        obtain ⟨c, hc, -, hlead⟩ := h.held key i hentry
        rcases hover i c hc with hphase | ⟨outcome, hphase⟩ <;> rw [hphase] at hlead <;> cases hlead

/-! ### One request -/

/-- Nothing was sent yet for the resource, and nothing is kept for it. -/
def Cold (σ : Client) (key : ResourceKey) : Prop :=
  σ.sends = [] ∧ σ.answers = [] ∧ σ.cache.find key = none

def Flying (σ : Client) (key : ResourceKey) : Prop :=
  σ.sends = [key] ∧ σ.answers = [] ∧ σ.cache.find key = none

/-- What was asked for came back, and is not kept yet. -/
def Landed (σ : Client) (key : ResourceKey) (body : Bytes) : Prop :=
  σ.sends = [key] ∧ σ.answers.map (·.2.body) = [body] ∧ σ.cache.find key = none

def Warm (σ : Client) (key : ResourceKey) (body : Bytes) : Prop :=
  σ.sends = [key] ∧ σ.answers.map (·.2.body) = [body] ∧
    (σ.cache.find key).map (·.response.body) = some body

def Serves (σ : Client) (key : ResourceKey) (outcome : Outcome) : Prop :=
  ∃ answer, outcome = .ok answer ∧ σ.Warm key answer.response.body

def ServesPhase (σ : Client) (key : ResourceKey) : Phase → Prop
  | .called | .joining _ | .following _ _ => True
  | .performing _ .validators | .performing _ (.charge _) => σ.Cold key
  | .performing _ (.sent _) => σ.Flying key
  | .performing _ (.compare response) | .performing _ (.store response) =>
      σ.Landed key response.body
  | .performing _ (.measure response) => σ.Warm key response.body
  | .publishing outcome | .removing outcome | .returned outcome => σ.Serves key outcome
  | _ => False

structure Asks (check : ApertureRequest → Option ApertureError) (key : ResourceKey)
    (request : ApertureRequest) : Prop where
  key : request.key = key
  cacheable : request.isCacheable = true
  ttl : request.ttl = none
  check : check request = none

structure Served (check : ApertureRequest → Option ApertureError) (key : ResourceKey) (σ : Client) :
    Prop where
  tidy : σ.Tidy
  asks : ∀ i c, σ.callers i = some c → Asks check key c.request
  phases : ∀ i c, σ.callers i = some c → σ.ServesPhase key c.phase
  published : ∀ i outcome, σ.published i = some outcome → σ.Serves key outcome
  rest : (∀ i c, σ.callers i = some c → c.phase.leads = false) →
    σ.Cold key ∨ ∃ body, σ.Warm key body

/-- All calls are for the resource, the upstream answers 200, and nothing is evicted. -/
def Quiet (check : ApertureRequest → Option ApertureError) (key : ResourceKey) (σ : Client) :
    Event → Prop
  | .call _ request => Asks check key request
  | .run i => ∀ c leads response, σ.callers i = some c →
      c.phase = .performing leads (.measure response) → σ.cache.residentBytes ≤ σ.cache.budget
  | .answer _ answer => ∃ response, answer = .ok response ∧ response.status = 200
  | .refuse _ _ _ | .drop _ => False
  | .pass _ => True

def FindsNothing (σ : Client) : Event → Prop
  | .run i => ∀ c attempt, σ.callers i = some c → c.phase = .joining attempt →
      σ.inflight c.request.key = none → σ.cache.find c.request.key = none
  | _ => True

structure Same (key : ResourceKey) (σ σ' : Client) : Prop where
  sends : σ'.sends = σ.sends
  answers : σ'.answers = σ.answers
  kept : (σ'.cache.find key).map Entry.response = (σ.cache.find key).map Entry.response

variable {key : ResourceKey} {body : Bytes} {outcome : Outcome}

theorem Same.refl : Same key σ σ := ⟨rfl, rfl, rfl⟩

theorem Same.none (h : Same key σ σ') (hnone : σ.cache.find key = none) :
    σ'.cache.find key = none := by
  have hkept := h.kept
  rw [hnone] at hkept
  exact Option.map_eq_none_iff.mp hkept

theorem Same.warm (h : Same key σ σ') (hwarm : σ.Warm key body) : σ'.Warm key body := by
  obtain ⟨hsends, hanswers, hentry⟩ := hwarm
  refine ⟨h.sends.trans hsends, h.answers ▸ hanswers, ?_⟩
  have hbody := congrArg (Option.map CachedResponse.body) h.kept
  rw [Option.map_map, Option.map_map] at hbody
  exact hbody.trans hentry

theorem Same.serves (h : Same key σ σ') (hserves : σ.Serves key outcome) : σ'.Serves key outcome := by
  obtain ⟨answer, hok, hwarm⟩ := hserves
  exact ⟨answer, hok, h.warm hwarm⟩

theorem Same.cold (h : Same key σ σ') (hcold : σ.Cold key) : σ'.Cold key := by
  obtain ⟨hsends, hanswers, hnone⟩ := hcold
  exact ⟨h.sends.trans hsends, h.answers.trans hanswers, h.none hnone⟩

theorem Same.servesPhase (h : Same key σ σ') (hphase : σ.ServesPhase key phase) :
    σ'.ServesPhase key phase := by
  have hflying : σ.Flying key → σ'.Flying key := by
    rintro ⟨hsends, hanswers, hnone⟩
    exact ⟨h.sends.trans hsends, h.answers.trans hanswers, h.none hnone⟩
  have hlanded : ∀ body, σ.Landed key body → σ'.Landed key body := by
    rintro body ⟨hsends, hanswers, hnone⟩
    exact ⟨h.sends.trans hsends, h.answers ▸ hanswers, h.none hnone⟩
  cases phase with
  | called => trivial
  | joining attempt => trivial
  | following leader attempt => trivial
  | publishing outcome => exact h.serves hphase
  | removing outcome => exact h.serves hphase
  | returned outcome => exact h.serves hphase
  | uncached wire sent => exact hphase
  | dropped => exact hphase
  | performing leads stage =>
      cases stage with
      | validators => exact h.cold hphase
      | charge wire => exact h.cold hphase
      | sent wire => exact hflying hphase
      | compare response => exact hlanded _ hphase
      | store response => exact hlanded _ hphase
      | measure response => exact h.warm hphase
      | _ => exact hphase

theorem ServesPhase.of_not_leads (h : σ.ServesPhase key phase) (hleads : phase.leads = false)
    (hled : ∀ stage, phase ≠ .performing false stage)
    (hserves : ∀ outcome, σ.Serves key outcome → σ'.Serves key outcome) :
    σ'.ServesPhase key phase := by
  cases phase with
  | called => trivial
  | joining attempt => trivial
  | following leader attempt => trivial
  | returned outcome => exact hserves outcome h
  | uncached wire sent => exact h
  | dropped => exact h
  | publishing outcome => cases hleads
  | removing outcome => cases hleads
  | performing leads stage =>
      cases leads with
      | false => exact absurd rfl (hled stage)
      | true => cases hleads

theorem Served.warm (h : Served check key σ) {entry : Entry} (hentry : σ.cache.find key = some entry) :
    σ.Warm key entry.response.body := by
  have hbody : ∀ body, σ.Warm key body → body = entry.response.body := by
    rintro body ⟨-, -, hkept⟩
    rw [hentry] at hkept
    exact (Option.some.inj hkept).symm
  have hcold : ¬ σ.Cold key := by
    rintro ⟨-, -, hnone⟩
    rw [hentry] at hnone
    cases hnone
  by_cases hleads : ∀ i c, σ.callers i = some c → c.phase.leads = false
  · rcases h.rest hleads with hold | ⟨body, hwarm⟩
    · exact absurd hold hcold
    · exact hbody body hwarm ▸ hwarm
  · -- A leader that is there has stored what came back.
    push Not at hleads
    obtain ⟨i, c, hc, hlead⟩ := hleads
    have hphase := h.phases i c hc
    cases hp : c.phase with
    | performing leads stage =>
        rw [hp] at hphase
        cases stage with
        | validators => exact absurd hphase hcold
        | charge wire => exact absurd hphase hcold
        | sent wire =>
            rw [ServesPhase, Flying, hentry] at hphase
            cases hphase.2.2
        | compare response =>
            rw [ServesPhase, Landed, hentry] at hphase
            cases hphase.2.2
        | store response =>
            rw [ServesPhase, Landed, hentry] at hphase
            cases hphase.2.2
        | measure response => exact hbody _ hphase ▸ hphase
        | _ => exact hphase.elim
    | publishing outcome =>
        rw [hp] at hphase
        obtain ⟨answer, -, hwarm⟩ := hphase
        exact hbody _ hwarm ▸ hwarm
    | removing outcome =>
        rw [hp] at hphase
        obtain ⟨answer, -, hwarm⟩ := hphase
        exact hbody _ hwarm ▸ hwarm
    | _ =>
        rw [hp] at hlead
        exact absurd rfl hlead

theorem Served.aside (h : Served check key σ) (hc : σ.callers i = some c)
    (hleads : c.phase.leads = false) (hsame : Same key σ σ') (hcallers : σ'.callers = σ.callers)
    (hpublished : σ'.published = σ.published) (htidy : (σ'.set i c phase).Tidy)
    (hnot : phase.leads = false) (hphase : σ'.ServesPhase key phase) :
    Served check key (σ'.set i c phase) := by
  refine ⟨htidy, ?_, ?_, ?_, ?_⟩
  · intro j d hd
    rw [callers_set, hcallers] at hd
    split_ifs at hd with hj
    · obtain rfl := Option.some.inj hd
      exact h.asks i c hc
    · exact h.asks j d hd
  · intro j d hd
    rw [callers_set, hcallers] at hd
    split_ifs at hd with hj
    · obtain rfl := Option.some.inj hd
      exact hphase
    · exact hsame.servesPhase (h.phases j d hd)
  · intro j outcome hj
    change σ'.published j = some outcome at hj
    rw [hpublished] at hj
    exact hsame.serves (h.published j outcome hj)
  · intro hnobody
    have hrest : ∀ j d, σ.callers j = some d → d.phase.leads = false := by
      intro j d hd
      by_cases hj : j = i
      · subst hj
        rw [hc] at hd
        obtain rfl := Option.some.inj hd
        exact hleads
      · have := hnobody j d
        rw [callers_set, hcallers, if_neg hj] at this
        exact this hd
    exact (h.rest hrest).imp hsame.cold fun ⟨body, hwarm⟩ => ⟨body, hsame.warm hwarm⟩

theorem Served.lead (h : Served check key σ) (hc : σ.callers i = some c)
    (hnobody : ∀ j d, j ≠ i → σ.callers j = some d → d.phase.leads = false)
    (hcallers : σ'.callers = σ.callers)
    (hserves : ∀ outcome, σ.Serves key outcome → σ'.Serves key outcome)
    (hpublished : ∀ j outcome, σ'.published j = some outcome → σ'.Serves key outcome)
    (htidy : (σ'.set i c phase).Tidy) (hphase : σ'.ServesPhase key phase)
    (hrest : phase.leads = false → ∃ body, σ'.Warm key body) :
    Served check key (σ'.set i c phase) := by
  refine ⟨htidy, ?_, ?_, hpublished, ?_⟩
  · intro j d hd
    rw [callers_set, hcallers] at hd
    split_ifs at hd with hj
    · obtain rfl := Option.some.inj hd
      exact h.asks i c hc
    · exact h.asks j d hd
  · intro j d hd
    rw [callers_set, hcallers] at hd
    split_ifs at hd with hj
    · obtain rfl := Option.some.inj hd
      exact hphase
    · exact ServesPhase.of_not_leads (h.phases j d hd) (hnobody j d hj hd)
        (fun stage => h.tidy.led j d stage hd) hserves
  · intro hnot
    refine .inr (hrest ?_)
    apply hnot i { c with phase }
    rw [callers_set, if_pos rfl]

theorem not_serves_of_none (hnone : σ.cache.find key = none) : ¬ σ.Serves key outcome := by
  rintro ⟨answer, -, -, -, hkept⟩
  rw [hnone] at hkept
  cases hkept

theorem Same.get (key other : ResourceKey) (σ : Client) (ttl : Option ℕ) :
    Same key σ { σ with cache := (σ.cache.get other σ.now ttl).2 } :=
  ⟨rfl, rfl, ResponseCache.response_get σ.now ttl key⟩

theorem Served.nobody (h : Served check key σ) (hc : σ.callers i = some c)
    (hleads : c.phase.leads = true) :
    ∀ j d, j ≠ i → σ.callers j = some d → d.phase.leads = false := by
  intro j d hj hd
  by_contra hlead
  have hmine := h.tidy.lead i c hc hleads
  have htheirs := h.tidy.lead j d hd (by simpa using hlead)
  rw [(h.asks i c hc).key] at hmine
  rw [(h.asks j d hd).key, hmine] at htheirs
  exact hj (Option.some.inj htheirs).symm

theorem Served.early (h : Served check key σ) {stage next : Stage} (hc : σ.callers i = some c)
    (hphase : c.phase = .performing true stage) (hnone : σ.cache.find key = none)
    (hstep : σ.Performs σ' true (.performing true next))
    (hnext : σ'.ServesPhase key (.performing true next)) :
    Served check key (σ'.set i c (.performing true next)) := by
  have hnobody := h.nobody hc (by rw [hphase]; rfl)
  refine h.lead hc hnobody hstep.callers ?_ ?_ (h.tidy.perform hc hphase hstep) hnext ?_
  · intro outcome hserves
    exact absurd hserves (not_serves_of_none hnone)
  · intro j outcome hj
    rw [hstep.published] at hj
    exact absurd (h.published j outcome hj) (not_serves_of_none hnone)
  · rintro ⟨⟩

theorem Served.late (h : Served check key σ) {stage : Stage} (hc : σ.callers i = some c)
    (hphase : c.phase = .performing true stage) (hsame : Same key σ σ')
    (hstep : σ.Performs σ' true phase) (hleads : phase.leads = true)
    (hnext : σ'.ServesPhase key phase) : Served check key (σ'.set i c phase) := by
  have hnobody := h.nobody hc (by rw [hphase]; rfl)
  refine h.lead hc hnobody hstep.callers (fun outcome => hsame.serves) ?_
    (h.tidy.perform hc hphase hstep) hnext ?_
  · intro j outcome hj
    rw [hstep.published] at hj
    exact hsame.serves (h.published j outcome hj)
  · intro hnot
    rw [hleads] at hnot
    cases hnot

theorem Served.runStage (h : Served check key σ) {stage : Stage} (hc : σ.callers i = some c)
    (hphase : c.phase = .performing true stage)
    (hfits : ∀ response, stage = .measure response → σ.cache.residentBytes ≤ σ.cache.budget)
    (hstep : σ.runStage c.request true stage = some (phase, σ')) :
    Served check key (σ'.set i c phase) := by
  have hkey := (h.asks i c hc).key
  have hserves := h.phases i c hc
  have hperforms := performs_of_runStage hstep
  rw [hphase] at hserves
  cases stage with
  | validators =>
      cases hstep
      exact h.early hc hphase hserves.2.2 hperforms hserves
  | charge wire =>
      obtain ⟨hsends, hanswers, hnone⟩ := hserves
      cases hstep
      refine h.early hc hphase hnone hperforms ⟨?_, hanswers, hnone⟩
      change c.request.key :: σ.sends = [key]
      rw [hkey, hsends]
  | sent wire => cases hstep
  | compare response =>
      obtain ⟨hsends, hanswers, hnone⟩ := hserves
      have hsame := Same.get key c.request.key σ none
      cases hstep
      exact h.early hc hphase hnone hperforms ⟨hsends, hanswers, hsame.none hnone⟩
  | store response =>
      obtain ⟨hsends, hanswers, hnone⟩ := hserves
      cases hstep
      refine h.early hc hphase hnone hperforms ⟨hsends, hanswers, ?_⟩
      change ((σ.cache.put c.request.key _).find key).map (·.response.body) = some response.body
      rw [ResponseCache.find_put, if_pos hkey.symm]
      rfl
  | measure response =>
      have hbudget := hfits response rfl
      simp only [Client.runStage, if_pos hbudget] at hstep
      cases hstep
      exact h.late hc hphase Same.refl hperforms rfl ⟨_, rfl, hserves⟩
  | _ => exact hserves.elim

theorem Served.runPhase (h : Served check key σ) (hc : σ.callers i = some c)
    (hfits : ∀ response, c.phase = .performing true (.measure response) →
      σ.cache.residentBytes ≤ σ.cache.budget)
    (hfinds : ∀ attempt, c.phase = .joining attempt → σ.inflight c.request.key = none →
      σ.cache.find c.request.key = none)
    (hstep : σ.runPhase check i c.request c.phase = some (phase, σ')) :
    Served check key (σ'.set i c phase) := by
  obtain ⟨hkey, hcacheable, httl, hcheck⟩ := h.asks i c hc
  have htidy := h.tidy.runPhase hc hstep
  cases hphase : c.phase with
  | called =>
      have hleads : c.phase.leads = false := by
        rw [hphase]
        rfl
      rw [hphase] at hstep
      have hsame := Same.get key c.request.key σ c.request.ttl
      simp only [Client.runPhase, hcheck, hcacheable, not_true_eq_false, if_false] at hstep
      split at hstep
      case h_1 after hget =>
        rw [hget] at hsame
        cases hstep
        exact h.aside hc hleads hsame rfl rfl htidy rfl trivial
      case h_2 hit after hget =>
        obtain ⟨entry, hentry, hresponse, hfresh⟩ := ResponseCache.exists_of_get hget
        rw [if_pos (hfresh httl)] at hstep
        rw [hget] at hsame
        cases hstep
        rw [hkey] at hentry
        refine h.aside hc hleads hsame rfl rfl htidy rfl ⟨_, rfl, ?_⟩
        dsimp only
        rw [hresponse]
        exact hsame.warm (h.warm hentry)
  | joining attempt =>
      have hleads : c.phase.leads = false := by
        rw [hphase]
        rfl
      have hnothing := hfinds attempt hphase
      rw [hphase] at hstep
      simp only [Client.runPhase] at hstep
      split at hstep
      case h_1 leader hleader =>
        cases hstep
        exact h.aside hc hleads Same.refl rfl rfl htidy rfl trivial
      case h_2 hnobody =>
        have hnone := hnothing hnobody
        rw [hkey] at hnone hnobody
        have hall : ∀ j d, σ.callers j = some d → d.phase.leads = false := by
          intro j d hd
          by_contra hlead
          have hentry := h.tidy.lead j d hd (by simpa using hlead)
          rw [(h.asks j d hd).key, hnobody] at hentry
          cases hentry
        have hcold : σ.Cold key := by
          rcases h.rest hall with hcold | ⟨body, -, -, hkept⟩
          · exact hcold
          · rw [hnone] at hkept
            cases hkept
        cases hstep
        exact h.lead hc (fun j d _ => hall j d) rfl (fun outcome hserves => hserves) h.published htidy
          hcold (by rintro ⟨⟩)
  | following leader attempt =>
      have hleads : c.phase.leads = false := by
        rw [hphase]
        rfl
      have hfollow := h.tidy.follow i c leader attempt hc hphase
      rw [hphase] at hstep
      simp only [Client.runPhase] at hstep
      split at hstep
      case h_1 outcome houtcome =>
        cases hstep
        exact h.aside hc hleads Same.refl rfl rfl htidy rfl (h.published leader outcome houtcome)
      case h_2 hpublished =>
        rw [hpublished] at hfollow
        rw [if_pos (hfollow.resolve_left nofun)] at hstep
        cases hstep
  | performing leads stage =>
      cases leads with
      | false => exact absurd hphase (h.tidy.led i c stage hc)
      | true =>
          rw [hphase] at hstep
          refine h.runStage hc hphase ?_ hstep
          rintro response rfl
          exact hfits response hphase
  | publishing outcome =>
      have hserves := h.phases i c hc
      have hnobody := h.nobody hc (by rw [hphase]; rfl)
      rw [hphase] at hstep hserves
      cases hstep
      refine h.lead hc hnobody rfl (fun outcome hserves => hserves) ?_ htidy hserves (by rintro ⟨⟩)
      intro j told hj
      change Function.update σ.published i (some outcome) j = some told at hj
      by_cases hji : j = i
      · rw [hji, Function.update_self] at hj
        obtain rfl := Option.some.inj hj
        exact hserves
      · rw [Function.update_of_ne hji] at hj
        exact h.published j told hj
  | removing outcome =>
      have hserves := h.phases i c hc
      have hnobody := h.nobody hc (by rw [hphase]; rfl)
      rw [hphase] at hstep hserves
      cases hstep
      refine h.lead hc hnobody rfl (fun outcome hserves => hserves) h.published htidy hserves ?_
      intro _
      obtain ⟨answer, -, hwarm⟩ := hserves
      exact ⟨_, hwarm⟩
  | uncached wire sent =>
      have hserves := h.phases i c hc
      rw [hphase] at hserves
      exact hserves.elim
  | returned outcome =>
      rw [hphase] at hstep
      cases hstep
  | dropped =>
      rw [hphase] at hstep
      cases hstep

theorem Served.call (h : Served check key σ) (hi : σ.callers i = none) {request : ApertureRequest}
    (hasks : Asks check key request) : Served check key (σ.set i ⟨request, .called⟩ .called) := by
  have hold : ∀ j d, (σ.set i ⟨request, .called⟩ .called).callers j = some d →
      d = ⟨request, .called⟩ ∨ σ.callers j = some d := by
    intro j d hd
    rw [callers_set] at hd
    split_ifs at hd
    · exact .inl (Option.some.inj hd).symm
    · exact .inr hd
  refine ⟨h.tidy.call hi request, ?_, ?_, h.published, ?_⟩
  · intro j d hd
    rcases hold j d hd with rfl | hd
    · exact hasks
    · exact h.asks j d hd
  · intro j d hd
    rcases hold j d hd with rfl | hd
    · trivial
    · exact h.phases j d hd
  · intro hnobody
    apply h.rest
    intro j d hd
    apply hnobody j d
    rw [callers_set, if_neg]
    · exact hd
    · rintro rfl
      rw [hi] at hd
      cases hd

theorem Served.next (h : Served check key σ) {event : Event} (hquiet : Quiet check key σ event)
    (hfinds : σ.FindsNothing event) (hnext : σ.next check event = some σ') :
    Served check key σ' := by
  cases stepped hnext with
  | call i request hi => exact h.call hi hquiet
  | pass ms =>
      exact ⟨⟨h.tidy.lead, h.tidy.held, h.tidy.follow, h.tidy.told, h.tidy.led⟩, h.asks, h.phases,
        h.published, h.rest⟩
  | step event i c phase τ hevent hc hstep =>
      rcases hevent with rfl | ⟨host, retryAfter, rfl⟩ | ⟨answer, rfl⟩ | rfl
      · exact h.runPhase hc (fun response => hquiet c true response hc)
          (fun attempt => hfinds c attempt hc) hstep
      · exact hquiet.elim
      · obtain ⟨response, rfl, hstatus⟩ := hquiet
        have hserves := h.phases i c hc
        simp only [Client.stepCaller] at hstep
        split at hstep
        case h_1 leads wire hphase =>
          rw [hphase] at hserves
          obtain ⟨hsends, hanswers, hnone⟩ := hserves
          cases hstep
          cases leads with
          | false => exact absurd hphase (h.tidy.led i c _ hc)
          | true =>
              have hreceived : received true (.ok response) =
                  .performing true (.compare response.cached) := by
                rw [received, if_neg (by rw [hstatus]; decide)]
              rw [hreceived]
              refine h.early hc hphase hnone ⟨rfl, rfl, rfl, .inl ⟨_, rfl⟩⟩ ⟨hsends, ?_, hnone⟩
              rw [hanswers]
              rfl
        case h_2 wire hphase =>
          rw [hphase] at hserves
          exact hserves.elim
        case h_3 => cases hstep
      · exact hquiet.elim

theorem Run.served
    (h : Run check budget (fun σ event => Quiet check key σ event ∧ σ.FindsNothing event) σ) :
    Served check key σ := by
  induction h with
  | start =>
      have hstart : Run check budget KeepsLeader (Client.start budget) := .start
      refine ⟨hstart.tidy, ?_, ?_, ?_, fun _ => .inl ⟨rfl, rfl, rfl⟩⟩
      · rintro i c ⟨⟩
      · rintro i c ⟨⟩
      · rintro i outcome ⟨⟩
  | next hrun event hevent hnext ih => exact ih.next hevent.1 hevent.2 hnext

theorem goes_on (hc : σ.callers i = some c) (hreturned : ∀ outcome, c.phase ≠ .returned outcome)
    (hdropped : c.phase ≠ .dropped) (hfollow : ∀ leader attempt, c.phase ≠ .following leader attempt) :
    (σ.next check (.run i)).isSome ∨ ∀ answer, (σ.next check (.answer i answer)).isSome := by
  have hrun : (σ.runPhase check i c.request c.phase).isSome → (σ.next check (.run i)).isSome := by
    intro h
    simp only [Client.next, next.step, hc, stepCaller, Option.isSome_map]
    exact h
  have hanswer : (∀ answer, (σ.stepCaller check i c (.answer i answer)).isSome) →
      ∀ answer, (σ.next check (.answer i answer)).isSome := by
    intro h answer
    simp only [Client.next, next.step, hc, Option.isSome_map]
    exact h answer
  cases hphase : c.phase with
  | called =>
      left
      apply hrun
      rw [hphase]
      simp only [Client.runPhase]
      split
      · rfl
      · split_ifs
        · split
          · rfl
          · split_ifs <;> rfl
        · rfl
  | joining attempt =>
      left
      apply hrun
      rw [hphase]
      simp only [Client.runPhase]
      split <;> rfl
  | following leader attempt => exact absurd hphase (hfollow leader attempt)
  | publishing outcome =>
      left
      apply hrun
      rw [hphase]
      rfl
  | removing outcome =>
      left
      apply hrun
      rw [hphase]
      rfl
  | uncached wire sent =>
      cases sent with
      | false =>
          left
          apply hrun
          rw [hphase]
          rfl
      | true =>
          right
          apply hanswer
          intro answer
          simp only [stepCaller, hphase]
          rfl
  | returned outcome => exact absurd hphase (hreturned outcome)
  | dropped => exact absurd hphase hdropped
  | performing leads stage =>
      cases stage with
      | sent wire =>
          right
          apply hanswer
          intro answer
          simp only [stepCaller, hphase]
          rfl
      | validators =>
          left
          apply hrun
          rw [hphase]
          rfl
      | charge wire =>
          left
          apply hrun
          rw [hphase]
          rfl
      | confirmed =>
          left
          apply hrun
          rw [hphase]
          simp only [Client.runPhase, Client.runStage]
          split <;> rfl
      | refresh entry =>
          left
          apply hrun
          rw [hphase]
          rfl
      | reread =>
          left
          apply hrun
          rw [hphase]
          simp only [Client.runPhase, Client.runStage]
          split <;> rfl
      | compare response =>
          left
          apply hrun
          rw [hphase]
          rfl
      | store response =>
          left
          apply hrun
          rw [hphase]
          rfl
      | measure response =>
          left
          apply hrun
          rw [hphase]
          simp only [Client.runPhase, Client.runStage]
          split_ifs <;> rfl
      | collect response total =>
          left
          apply hrun
          rw [hphase]
          rfl
      | evict response total candidates =>
          left
          apply hrun
          rw [hphase]
          cases candidates with
          | nil => rfl
          | cons candidate rest =>
              obtain ⟨touched, other, footprint⟩ := candidate
              simp only [Client.runPhase, Client.runStage]
              split_ifs <;> rfl
      | fallBack error =>
          left
          apply hrun
          rw [hphase]
          simp only [Client.runPhase, Client.runStage]
          split <;> rfl

/-- At most one request is sent for the resource. As long as a call is not over a call can go on,
and once all are over one was sent and each has the body that came back. -/
structure OneRequest (check : ApertureRequest → Option ApertureError) (key : ResourceKey) (σ : Client) :
    Prop where
  few : σ.sends.length ≤ 1
  goesOn : ∀ i c, σ.callers i = some c → (∃ outcome, c.phase = .returned outcome) ∨
    ∃ j, (σ.next check (.run j)).isSome ∨ ∀ answer, (σ.next check (.answer j answer)).isSome
  finished : (∃ i c, σ.callers i = some c) →
    (∀ i c, σ.callers i = some c → ∃ outcome, c.phase = .returned outcome) →
    σ.sends = [key] ∧ ∃ body, σ.answers.map (·.2.body) = [body] ∧
      ∀ i c, σ.callers i = some c →
        ∃ outcome, c.phase = .returned (.ok outcome) ∧ outcome.response.body = body

theorem Served.few (h : Served check key σ) : σ.sends.length ≤ 1 := by
  by_cases hleads : ∀ i c, σ.callers i = some c → c.phase.leads = false
  · rcases h.rest hleads with ⟨hsends, -⟩ | ⟨body, hsends, -⟩
    · rw [hsends]
      exact Nat.zero_le 1
    · rw [hsends]
      exact Nat.le_refl 1
  · push Not at hleads
    obtain ⟨i, c, hc, hlead⟩ := hleads
    have hphase := h.phases i c hc
    have hsends : σ.sends = [] ∨ σ.sends = [key] := by
      cases hp : c.phase with
      | performing leads stage =>
          rw [hp] at hphase
          cases stage with
          | validators => exact .inl hphase.1
          | charge wire => exact .inl hphase.1
          | sent wire => exact .inr hphase.1
          | compare response => exact .inr hphase.1
          | store response => exact .inr hphase.1
          | measure response => exact .inr hphase.1
          | _ => exact hphase.elim
      | publishing outcome =>
          rw [hp] at hphase
          obtain ⟨answer, -, hsends, -⟩ := hphase
          exact .inr hsends
      | removing outcome =>
          rw [hp] at hphase
          obtain ⟨answer, -, hsends, -⟩ := hphase
          exact .inr hsends
      | _ =>
          rw [hp] at hlead
          exact absurd rfl hlead
    rcases hsends with hsends | hsends
    · rw [hsends]
      exact Nat.zero_le 1
    · rw [hsends]
      exact Nat.le_refl 1

theorem Served.oneRequest (h : Served check key σ) : OneRequest check key σ := by
  refine ⟨h.few, ?_, ?_⟩
  · intro i c hc
    have hphase := h.phases i c hc
    by_cases hreturned : ∃ outcome, c.phase = .returned outcome
    · exact .inl hreturned
    right
    rw [not_exists] at hreturned
    have hdropped : c.phase ≠ .dropped := by
      intro heq
      rw [heq] at hphase
      exact hphase
    by_cases hfollow : ∃ leader attempt, c.phase = .following leader attempt
    · obtain ⟨leader, attempt, hfollow⟩ := hfollow
      rcases h.tidy.follow i c leader attempt hc hfollow with hpublished | halive
      · refine ⟨i, .inl ?_⟩
        obtain ⟨outcome, houtcome⟩ := Option.isSome_iff_exists.mp hpublished
        simp only [Client.next, next.step, hc, stepCaller, Option.isSome_map, hfollow,
          Client.runPhase, houtcome]
        rfl
      · -- Its leader is not over, and waits for no leader.
        refine ⟨leader, ?_⟩
        unfold alive at halive
        obtain ⟨d, hd, hlead⟩ := (Option.any_eq_true ..).mp halive
        refine goes_on hd ?_ ?_ ?_
        · intro outcome heq
          rw [heq] at hlead
          cases hlead
        · intro heq
          rw [heq] at hlead
          cases hlead
        · intro leader' attempt' heq
          rw [heq] at hlead
          cases hlead
    · refine ⟨i, goes_on hc hreturned hdropped ?_⟩
      intro leader attempt heq
      exact hfollow ⟨leader, attempt, heq⟩
  · rintro ⟨i, c, hc⟩ hover
    have hserves : ∀ j d, σ.callers j = some d →
        ∃ answer, d.phase = .returned (.ok answer) ∧ σ.Warm key answer.response.body := by
      intro j d hd
      obtain ⟨outcome, hphase⟩ := hover j d hd
      have hserves := h.phases j d hd
      rw [hphase] at hserves
      obtain ⟨answer, rfl, hwarm⟩ := hserves
      exact ⟨answer, hphase, hwarm⟩
    obtain ⟨answer, -, hsends, hanswers, hkept⟩ := hserves i c hc
    refine ⟨hsends, _, hanswers, ?_⟩
    intro j d hd
    obtain ⟨answer', hphase, -, -, hkept'⟩ := hserves j d hd
    refine ⟨answer', hphase, ?_⟩
    rw [hkept] at hkept'
    exact (Option.some.inj hkept').symm

/-- Where each call that leads finds nothing kept, one request is sent and every call has its body.
Where no call is dropped while it leads, one request at most is on the wire and none stays in the
table. -/
theorem single_flight (key : ResourceKey) :
    (∀ σ, Run check budget (fun σ event => Quiet check key σ event ∧ σ.FindsNothing event) σ →
      OneRequest check key σ) ∧
    ∀ σ, Run check budget KeepsLeader σ → σ.Alone :=
  ⟨fun _ h => h.served.oneRequest, fun _ h => h.tidy.alone⟩

/-! ### Two calls for one page -/

def page : ApertureRequest := ⟨"get".toList, "https://a/".toList, .app, none, [], none⟩

def found : WireResponse := ⟨200, [1], [], none, none, none⟩

def openPolicy (_ : ApertureRequest) : Option ApertureError := none

theorem asks_page : Asks openPolicy page.key page := ⟨rfl, by decide, rfl, rfl⟩

/-- It neither joins nor looks how much is kept. -/
def passes : Phase → Bool
  | .joining _ | .performing _ (.measure _) => false
  | _ => true

theorem quiet_of_passes (h : (σ.callers i).all fun c => passes c.phase) :
    Quiet check key σ (.run i) ∧ σ.FindsNothing (.run i) := by
  constructor
  · intro c leads response hc hphase
    rw [hc, Option.all_some, hphase] at h
    cases h
  · intro c attempt hc hphase _
    rw [hc, Option.all_some, hphase] at h
    cases h

theorem quiet_of_joins {attempt : ℕ} (hc : σ.callers i = some c) (hphase : c.phase = .joining attempt) :
    Quiet check key σ (.run i) := by
  intro d leads response hd hmeasure
  rw [hc] at hd
  obtain rfl := Option.some.inj hd
  rw [hphase] at hmeasure
  cases hmeasure

theorem single_flight_page :
    ∃ σ σ' : Client, σ.sends = [page.key] ∧ OneRequest openPolicy page.key σ ∧
      σ'.inflight page.key = some 0 ∧ σ'.Alone := by
  have hcalled : Run openPolicy 1000
      (fun σ event => Quiet openPolicy page.key σ event ∧ σ.FindsNothing event) (start 1000) := .start
  have hcalled := hcalled.next (.call 0 page) ⟨asks_page, trivial⟩ rfl
  have hcalled := hcalled.next (.call 1 page) ⟨asks_page, trivial⟩ rfl
  have hmissed := hcalled.next (.run 0) (quiet_of_passes rfl) rfl
  have hmissed := hmissed.next (.run 1) (quiet_of_passes rfl) rfl
  have hled := hmissed.next (.run 0) ⟨quiet_of_joins rfl rfl, fun c attempt hc _ _ => by cases hc; rfl⟩ rfl
  have hled := hled.next (.run 1) ⟨quiet_of_joins rfl rfl, fun c attempt hc _ _ => by cases hc; rfl⟩ rfl
  have hsent := hled.next (.run 0) (quiet_of_passes rfl) rfl
  have hsent := hsent.next (.run 0) (quiet_of_passes rfl) rfl
  have hlanded := hsent.next (.answer 0 (.ok found)) ⟨⟨_, rfl, rfl⟩, trivial⟩ rfl
  have hkept := hlanded.next (.run 0) (quiet_of_passes rfl) rfl
  have hkept := hkept.next (.run 0) (quiet_of_passes rfl) rfl
  have hkept := hkept.next (.run 0)
    ⟨fun _ _ _ _ _ => by decide, fun c attempt hc hphase => by cases hc; cases hphase⟩ rfl
  have hover := hkept.next (.run 0) (quiet_of_passes rfl) rfl
  have hover := hover.next (.run 0) (quiet_of_passes rfl) rfl
  have hover := hover.next (.run 1) (quiet_of_passes rfl) rfl
  -- A call that leads is still there.
  have hleads : Run openPolicy 1000 KeepsLeader (start 1000) := .start
  have hleads := hleads.next (.call 0 page) trivial rfl
  have hleads := hleads.next (.run 0) trivial rfl
  have hleads := hleads.next (.run 0) trivial rfl
  exact ⟨_, _, rfl, (single_flight page.key).1 _ hover, rfl, (single_flight page.key).2 _ hleads⟩

/-- A call that missed before the answer was kept leads after it, and a call that is dropped while
it leads stays in the table. -/
theorem late_call_sends_again :
    (∃ σ : Client, Run openPolicy 1000 (Quiet openPolicy page.key) σ ∧
      ¬ OneRequest openPolicy page.key σ) ∧
    ∃ σ : Client, Run openPolicy 1000 (fun _ _ => True) σ ∧ ¬ σ.Alone := by
  constructor
  · have hcalled : Run openPolicy 1000 (Quiet openPolicy page.key) (start 1000) := .start
    have hcalled := hcalled.next (.call 0 page) asks_page rfl
    have hcalled := hcalled.next (.call 1 page) asks_page rfl
    have hmissed := hcalled.next (.run 0) (quiet_of_passes rfl).1 rfl
    have hmissed := hmissed.next (.run 1) (quiet_of_passes rfl).1 rfl
    have hled := hmissed.next (.run 0) (quiet_of_joins rfl rfl) rfl
    have hsent := hled.next (.run 0) (quiet_of_passes rfl).1 rfl
    have hsent := hsent.next (.run 0) (quiet_of_passes rfl).1 rfl
    have hlanded := hsent.next (.answer 0 (.ok found)) ⟨_, rfl, rfl⟩ rfl
    have hkept := hlanded.next (.run 0) (quiet_of_passes rfl).1 rfl
    have hkept := hkept.next (.run 0) (quiet_of_passes rfl).1 rfl
    have hkept := hkept.next (.run 0) (fun _ _ _ _ _ => by decide) rfl
    have hover := hkept.next (.run 0) (quiet_of_passes rfl).1 rfl
    have hover := hover.next (.run 0) (quiet_of_passes rfl).1 rfl
    have hagain := hover.next (.run 1) (quiet_of_joins rfl rfl) rfl
    have hagain := hagain.next (.run 1) (quiet_of_passes rfl).1 rfl
    have hagain := hagain.next (.run 1) (quiet_of_passes rfl).1 rfl
    exact ⟨_, hagain, fun hone => absurd hone.few (by decide)⟩
  · have hleads : Run openPolicy 1000 (fun _ _ => True) (start 1000) := .start
    have hleads := hleads.next (.call 0 page) trivial rfl
    have hleads := hleads.next (.run 0) trivial rfl
    have hleads := hleads.next (.run 0) trivial rfl
    have hsent := hleads.next (.run 0) trivial rfl
    have hsent := hsent.next (.run 0) trivial rfl
    have hdropped := hsent.next (.drop 0) trivial rfl
    refine ⟨_, hdropped, fun halone => ?_⟩
    have hnone := halone.finished (fun j c hc => ?_) page.key
    · cases hnone
    · cases j with
      | zero =>
          cases hc
          exact .inl rfl
      | succ j => cases hc

end Client

end Albedo.Fetch
