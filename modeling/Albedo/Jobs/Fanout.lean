import Albedo.Jobs.Runners

/-!
# Expanding a fan-out row

A fan-out row is expanded a page at a time. As long as every claim finds it still marked
as a fan-out, and every child it queues lands, the cursor only ever passes principals
whose child is on the queue.
-/
namespace Albedo.Jobs

/-! ### Pages -/

theorem mem_take_or_after {l : List String} (hl : l.Pairwise (· < ·)) {p : String} (hp : p ∈ l)
    (n : ℕ) : p ∈ l.take n ∨
      (n ≤ (l.take n).length ∧ ∀ last, (l.take n).getLast? = some last → last < p) := by
  have hsplit : l.take n ++ l.drop n = l := List.take_append_drop n l
  rw [← hsplit, List.mem_append] at hp
  rcases hp with hp | hp
  · exact Or.inl hp
  · refine Or.inr ⟨?_, fun last hlast => ?_⟩
    · have hlength := List.length_pos_of_mem hp
      rw [List.length_drop] at hlength
      rw [List.length_take]
      omega
    · rw [← hsplit, List.pairwise_append] at hl
      exact hl.2.2 last (List.mem_of_getLast? hlast) p hp

theorem empty_lt {p : String} (h : p ≠ "") : "" < p := by
  rw [String.lt_iff_toList_lt]
  cases hp : p.toList with
  | nil => exact absurd (String.toList_eq_nil_iff.mp hp) h
  | cons c cs => exact List.nil_lt_cons c cs

theorem principalsAfter_covers {users : Finset String} {p : String} (hp : p ∈ users)
    (hne : p ≠ "") (cursor : Option String) (limit : ℕ) :
    (∃ c, cursor = some c ∧ p ≤ c) ∨ p ∈ principalsAfter users cursor limit ∨
      (limit ≤ (principalsAfter users cursor limit).length ∧
        ∀ last, (principalsAfter users cursor limit).getLast? = some last → last < p) := by
  by_cases hlt : cursor.getD "" < p
  · have hmem : p ∈ (users.filter fun p => cursor.getD "" < p).sort :=
      (Finset.mem_sort _).mpr (Finset.mem_filter.mpr ⟨hp, hlt⟩)
    exact Or.inr (mem_take_or_after (Finset.sortedLT_sort _).pairwise hmem limit)
  · cases cursor with
    | none => exact absurd (empty_lt hne) hlt
    | some c => exact Or.inl ⟨c, rfl, not_lt.mp hlt⟩

/-! ### The condition on a run -/

/-- A claim of a fan-out row finds it marked as one: neither its lease ran out, after a
crash, nor did a failure put it back as pending. A child that is queued is not refused,
and no row that was not inserted for it has taken its id. -/
def Unbroken (event : Event) (w : World) : Prop :=
  match event with
  | .claim _ now _ tie => ∀ id row, w.jobs.oldest now tie = some ⟨id, row⟩ → id ∈ w.log.fires →
      row.state = .fanout
  | .queueChild r _ _ accepted => accepted = true ∧ ∀ hold exhausted last principal rest,
      (w.runners r).activity = .inserting hold exhausted last (principal :: rest) →
      (w.jobs.lookup (fanoutChildId hold.job.id principal)).isSome →
      (hold.job.id, principal) ∈ w.log.inserted
  | _ => True

variable {batch : ℕ} {event : Event} {w w' : World}

/-! ### Fires and bodies -/

/-- The fan-out rows stay on the queue, and nobody runs the body of one. -/
structure Marked (w : World) : Prop where
  fires : ∀ f ∈ w.log.fires, (w.jobs.lookup f).isSome
  bodies : ∀ r hold, w.held r = some hold → hold.job.id ∈ w.log.fires → hold.job.isFanout = true

theorem Marked.fresh (hw : w.Fresh) : Marked w := by
  constructor
  · intro f hf
    rw [hw.log] at hf
    exact absurd hf List.not_mem_nil
  · exact fun r hold h => absurd h (hw.held_ne r hold)

theorem Marked.step (h : Marked w) (hheld : Held w) (hstep : Step batch event w w')
    (hmeets : Unbroken event w) : Marked w' := by
  constructor
  · intro f hf
    rcases hstep.fires_cases hf with hf | ⟨request, -, -, -, hrow, -⟩
    · exact hstep.isSome (h.fires f hf)
    · rw [hrow]
      rfl
  · intro r hold hhold hf
    rcases hstep.held_cases hhold with hold' | ⟨now, lease, tie, jobs, rfl, hclaim, -, -⟩
    · rcases hstep.fires_cases hf with hf | ⟨request, -, -, hnone, -, -⟩
      · exact h.bodies r hold hold' hf
      · have hpresent := hheld.present r hold hold'
        rw [hnone] at hpresent
        exact nomatch hpresent
    · rcases hstep.fires_cases hf with hf | ⟨request, hevent, -⟩
      · obtain ⟨row, holdest, -, -, hjob, -⟩ := Table.claimDue_some hclaim
        have hfanout := hmeets _ row holdest hf
        rw [hjob]
        exact decide_eq_true hfanout
      · exact nomatch hevent

/-! ### Inserted children -/

structure Once (w : World) : Prop where
  present : ∀ f p, (f, p) ∈ w.log.inserted → (w.jobs.lookup (fanoutChildId f p)).isSome
  nodup : w.log.inserted.Nodup

theorem Once.fresh (hw : w.Fresh) : Once w := by
  constructor
  · intro f p h
    rw [hw.log] at h
    exact absurd h List.not_mem_nil
  · rw [hw.log]
    exact List.nodup_nil

theorem Once.step (h : Once w) (hstep : Step batch event w w') : Once w' := by
  have hsame : w'.log.inserted = w.log.inserted → Once w' := by
    intro hlog
    constructor
    · intro f p hfp
      rw [hlog] at hfp
      exact hstep.isSome (h.present f p hfp)
    · rw [hlog]
      exact h.nodup
  cases hstep with
  | @queueChild _ r now maxAttempts accepted hold exhausted last principal rest hactivity hclock =>
      cases accepted with
      | false => exact hsame rfl
      | true =>
          cases hchild : w.jobs.lookup (fanoutChildId hold.job.id principal) with
          | some row => exact hsame (by simp [Log.queued, hchild])
          | none =>
              have hlog : (w.log.queued w.jobs hold.job.id principal).inserted =
                  (hold.job.id, principal) :: w.log.inserted := by
                simp [Log.queued, hchild]
              constructor
              · intro f p hfp
                simp only [if_true, World.log_setRunner, hlog] at hfp
                rcases List.mem_cons.mp hfp with hfp | hfp
                · cases hfp
                  simp only [if_true, World.jobs_setRunner]
                  rw [Table.lookup_enqueue, if_pos ⟨rfl, hchild⟩]
                  rfl
                · exact Table.isSome_enqueue (h.present f p hfp)
              · simp only [if_true, World.log_setRunner, hlog]
                refine List.nodup_cons.mpr ⟨fun hmem => ?_, h.nodup⟩
                have hpresent := h.present _ _ hmem
                rw [hchild] at hpresent
                exact nomatch hpresent
  | _ => exact hsame rfl

/-! ### What the cursor has passed -/

def Covered (log : Log) (id : String) (cursor : Option String) : Prop :=
  ∀ p ∈ log.steady id, ∀ c, cursor = some c → p ≤ c → (id, p) ∈ log.inserted

theorem Covered.mono {log log' : Log} {id : String} {cursor : Option String}
    (h : Covered log id cursor) (hsteady : log'.steady id ⊆ log.steady id)
    (hinserted : log.inserted ⊆ log'.inserted) : Covered log' id cursor :=
  fun p hp c hc hle => hinserted (h p (hsteady hp) c hc hle)

/-- What a page leaves out of the steady principals: those whose child is there, those
still on it, and those after it when it was full. -/
def PageCovers (log : Log) (hold : Hold) (exhausted : Bool) (last : Option String)
    (rest : List String) : Prop :=
  (exhausted = false → last.isSome) ∧ ∀ p ∈ log.steady hold.job.id,
    (hold.job.id, p) ∈ log.inserted ∨ p ∈ rest ∨
      (exhausted = false ∧ ∀ l, last = some l → l < p)

theorem PageCovers.mono {log log' : Log} {hold : Hold} {exhausted : Bool} {last : Option String}
    {rest : List String} (h : PageCovers log hold exhausted last rest)
    (hsteady : log'.steady hold.job.id ⊆ log.steady hold.job.id)
    (hinserted : log.inserted ⊆ log'.inserted) : PageCovers log' hold exhausted last rest :=
  ⟨h.1, fun p hp => (h.2 p (hsteady hp)).imp_left fun hmem => hinserted hmem⟩

/-- A row that was never handed out has no cursor and is not done, and steady principals
are registered. -/
structure Known (w : World) : Prop where
  first : ∀ id row, w.jobs.lookup id = some row → w.log.claims id = 0 →
    row.cursor = none ∧ row.state ≠ .done
  users : ∀ p ∈ w.users, p ≠ ""
  steady : ∀ id, w.log.steady id ⊆ w.users

/-- Cursors and pages pass nobody over, and a fan-out is done when everybody is passed. -/
structure Covers (w : World) : Prop where
  rows : ∀ id row, w.jobs.lookup id = some row → Covered w.log id row.cursor
  finished : ∀ f ∈ w.log.fires, ∀ row, w.jobs.lookup f = some row → row.state = .done →
    ∀ p ∈ w.log.steady f, (f, p) ∈ w.log.inserted
  holds : ∀ r hold, w.held r = some hold → Covered w.log hold.job.id hold.job.cursor
  pages : ∀ r hold exhausted last rest,
    (w.runners r).activity = .inserting hold exhausted last rest →
    PageCovers w.log hold exhausted last rest

theorem Known.fresh (hw : w.Fresh) : Known w := by
  constructor
  · exact fun id row hrow => absurd hrow (hw.lookup_ne id row)
  · intro p hp
    rw [hw.users] at hp
    exact absurd hp (Finset.notMem_empty p)
  · intro id
    rw [hw.log]
    exact Finset.empty_subset _

theorem Covers.fresh (hw : w.Fresh) : Covers w := by
  constructor
  · exact fun id row hrow => absurd hrow (hw.lookup_ne id row)
  · intro f hf
    rw [hw.log] at hf
    exact absurd hf List.not_mem_nil
  · exact fun r hold h => absurd h (hw.held_ne r hold)
  · exact fun r hold exhausted last rest h =>
      absurd (World.held_of_inserting h) (hw.held_ne r hold)

theorem Step.steady_cases (hstep : Step batch event w w') (id : String) :
    w'.log.steady id ⊆ w.log.steady id ∨
      (w.log.claims id = 0 ∧ w'.log.steady id = w.users ∧ w'.users = w.users) := by
  cases hstep with
  | delete principal => exact Or.inl (Finset.erase_subset _ _)
  | @claim _ r now lease tie job jobs hidle hclock hclaim =>
      simp only [World.log_setRunner, Log.claimed, World.users_setRunner]
      split_ifs with hfirst
      · by_cases hid : id = job.id
        · subst hid
          exact Or.inr ⟨hfirst, Function.update_self _ _ _, trivial⟩
        · rw [Function.update_of_ne hid]
          exact Or.inl (Finset.Subset.refl _)
      · exact Or.inl (Finset.Subset.refl _)
  | @queueChild _ r now maxAttempts accepted hold exhausted last principal rest hactivity hclock =>
      cases accepted <;> exact Or.inl (Finset.Subset.refl _)
  | _ => exact Or.inl (Finset.Subset.refl _)

theorem Log.inserted_queued (log : Log) (jobs : Table) (fire principal : String) :
    log.inserted ⊆ (log.queued jobs fire principal).inserted := by
  unfold Log.queued
  dsimp only
  split_ifs
  · exact List.subset_cons_self _ _
  · exact List.Subset.refl _

theorem Log.mem_queued {log : Log} {jobs : Table} {fire principal : String}
    (hown : (jobs.lookup (fanoutChildId fire principal)).isSome → (fire, principal) ∈ log.inserted) :
    (fire, principal) ∈ (log.queued jobs fire principal).inserted := by
  cases hchild : jobs.lookup (fanoutChildId fire principal) with
  | none => simp [Log.queued, hchild]
  | some row => exact log.inserted_queued jobs fire principal (hown (by rw [hchild]; rfl))

theorem Step.inserted_subset (hstep : Step batch event w w') :
    w.log.inserted ⊆ w'.log.inserted := by
  cases hstep with
  | @queueChild _ r now maxAttempts accepted hold exhausted last principal rest hactivity hclock =>
      cases accepted with
      | false => exact List.Subset.refl _
      | true =>
          simp only [if_true, World.log_setRunner]
          exact w.log.inserted_queued w.jobs hold.job.id principal
  | _ => exact List.Subset.refl _

theorem Known.step (h : Known w) (hheld : Held w) (hstep : Step batch event w w') : Known w' := by
  constructor
  · intro id row' hrow' hclaims
    have hbefore : w.log.claims id = 0 := Nat.le_zero.mp (hclaims ▸ hstep.claims_le id)
    have hnobody : ∀ r hold, w.held r = some hold → id ≠ hold.job.id := by
      rintro r hold hhold rfl
      have hcounted := hheld.counted r hold hhold
      omega
    cases hstep.row hrow' with
    | same hclaim hrow => exact h.first id row' hrow hbefore
    | put request hevent hid hnone hput =>
        rw [hput]
        refine ⟨rfl, ?_⟩
        simp only [Enqueue.row]
        split_ifs <;> decide
    | claim r now lease tie job jobs row hevent hclaim holdest hid hrow hrunnable hjob hput =>
        subst hevent
        rw [hstep.claims_claim hclaim, hid, Function.update_self] at hclaims
        exact absurd hclaims (Nat.succ_ne_zero _)
    | complete r now hold row hevent hactivity hbody hid hrow hput =>
        exact absurd hid (hnobody r hold (World.held_of_holding hactivity))
    | fail r now terminal error jitter hold row hevent hactivity hid hrow hput =>
        exact absurd hid (hnobody r hold (World.held_of_holding hactivity))
    | advance r now hold exhausted last row hevent hactivity hid hrow hput =>
        exact absurd hid (hnobody r hold (World.held_of_inserting hactivity))
  · intro p hp
    cases hstep with
    | register principal =>
        rcases Finset.mem_insert.mp hp with rfl | hp
        · rintro hempty
          have hvalid := principal.valid
          rw [hempty] at hvalid
          exact absurd hvalid (by decide)
        · exact h.users p hp
    | delete principal => exact h.users p (Finset.mem_of_mem_erase hp)
    | queueChild hactivity hclock =>
        simp only [World.users_setRunner] at hp
        split_ifs at hp <;> exact h.users p hp
    | _ => exact h.users p hp
  · intro id
    cases hstep with
    | register principal => exact (h.steady id).trans (Finset.subset_insert _ _)
    | delete principal => exact Finset.erase_subset_erase _ (h.steady id)
    | claim hidle hclock hclaim =>
        simp only [World.log_setRunner, Log.claimed, World.users_setRunner]
        split_ifs
        · rw [Function.update_apply]
          split_ifs
          · exact Finset.Subset.refl _
          · exact h.steady id
        · exact h.steady id
    | queueChild hactivity hclock =>
        simp only [World.log_setRunner, World.users_setRunner]
        split_ifs <;> exact h.steady id
    | _ => exact h.steady id

/-! ### The cursor passes nobody over -/

theorem PageCovers.covered {log : Log} {hold : Hold} {last : Option String}
    (h : PageCovers log hold false last []) : Covered log hold.job.id last := by
  intro p hp c hc hle
  rcases h.2 p hp with hmem | hrest | ⟨-, hafter⟩
  · exact hmem
  · exact absurd hrest List.not_mem_nil
  · exact absurd (hafter c hc) (not_lt.mpr hle)

theorem PageCovers.finished {log : Log} {hold : Hold} {last : Option String}
    (h : PageCovers log hold true last []) : ∀ p ∈ log.steady hold.job.id,
      (hold.job.id, p) ∈ log.inserted := by
  intro p hp
  rcases h.2 p hp with hmem | hrest | ⟨hexhausted, -⟩
  · exact hmem
  · exact absurd hrest List.not_mem_nil
  · exact nomatch hexhausted

theorem PageCovers.read {log : Log} {users : Finset String} {hold : Hold} (hbatch : 0 < batch)
    (hsteady : log.steady hold.job.id ⊆ users) (husers : ∀ p ∈ users, p ≠ "")
    (hcursor : Covered log hold.job.id hold.job.cursor) {page : List String}
    (hpage : page = principalsAfter users hold.job.cursor batch) :
    PageCovers log hold (page.length < batch) page.getLast? page := by
  subst hpage
  constructor
  · intro hfull
    have hlength := not_lt.mp (of_decide_eq_false hfull)
    rw [List.getLast?_isSome]
    exact List.ne_nil_of_length_pos (hbatch.trans_le hlength)
  · intro p hp
    rcases principalsAfter_covers (hsteady hp) (husers p (hsteady hp)) hold.job.cursor batch with
      ⟨c, hc, hle⟩ | hmem | ⟨hlength, hafter⟩
    · exact Or.inl (hcursor p hp c hc hle)
    · exact Or.inr (Or.inl hmem)
    · exact Or.inr (Or.inr ⟨decide_eq_false (not_lt.mpr hlength), hafter⟩)

theorem Step.covered (hstep : Step batch event w w') {id : String} {cursor : Option String}
    (h : Covered w.log id cursor) (hfirst : w.log.claims id = 0 → cursor = none) :
    Covered w'.log id cursor := by
  rcases hstep.steady_cases id with hsteady | ⟨hclaims, -, -⟩
  · exact h.mono hsteady hstep.inserted_subset
  · rw [hfirst hclaims]
    exact fun p _ c hc => nomatch hc

theorem Step.steady_held (hstep : Step batch event w w') (hheld : Held w) {r : RunnerId}
    {hold : Hold} (hhold : w.held r = some hold) :
    w'.log.steady hold.job.id ⊆ w.log.steady hold.job.id := by
  rcases hstep.steady_cases hold.job.id with hsteady | ⟨hclaims, -, -⟩
  · exact hsteady
  · have hcounted := hheld.counted r hold hhold
    omega

theorem Covers.step_rows (h : Covers w) (hheld : Held w) (hknown : Known w)
    (hstep : Step batch event w w') {id : String} {row' : JobRow}
    (hrow' : w'.jobs.lookup id = some row') : Covered w'.log id row'.cursor := by
  have hkept : ∀ row, w.jobs.lookup id = some row → Covered w'.log id row.cursor :=
    fun row hrow => hstep.covered (h.rows id row hrow) fun hclaims =>
      (hknown.first id row hrow hclaims).1
  cases hstep.row hrow' with
  | same hclaim hrow => exact hkept row' hrow
  | put request hevent hid hnone hput =>
      rw [hput]
      exact fun p _ c hc => nomatch hc
  | claim r now lease tie job jobs row hevent hclaim holdest hid hrow hrunnable hjob hput =>
      rw [hput]
      exact hkept row hrow
  | complete r now hold row hevent hactivity hbody hid hrow hput =>
      rw [hput]
      exact hkept row hrow
  | fail r now terminal error jitter hold row hevent hactivity hid hrow hput =>
      rw [hput]
      exact hkept row hrow
  | advance r now hold exhausted last row hevent hactivity hid hrow hput =>
      rw [hput, hid]
      have hpage := (h.pages r hold exhausted last [] hactivity).mono
        (hstep.steady_held hheld (World.held_of_inserting hactivity)) hstep.inserted_subset
      cases exhausted with
      | true => exact fun p _ c hc => nomatch hc
      | false => exact hpage.covered

theorem Covers.step_finished (h : Covers w) (hheld : Held w) (hmarked : Marked w)
    (hknown : Known w) (hstep : Step batch event w w') {f : String} (hf : f ∈ w'.log.fires)
    {row' : JobRow} (hrow' : w'.jobs.lookup f = some row') (hdone : row'.state = .done) :
    ∀ p ∈ w'.log.steady f, (f, p) ∈ w'.log.inserted := by
  have hput : ∀ request : Enqueue, row' ≠ request.row := by
    rintro request rfl
    simp only [Enqueue.row] at hdone
    split_ifs at hdone
  rcases hstep.fires_cases hf with hf | ⟨request, -, -, -, hnew, -⟩
  · cases hstep.row hrow' with
    | same hclaim hrow =>
        rcases hstep.steady_cases f with hsteady | ⟨hclaims, -, -⟩
        · exact fun p hp => hstep.inserted_subset (h.finished f hf row' hrow hdone p (hsteady hp))
        · exact absurd hdone (hknown.first f row' hrow hclaims).2
    | put request hevent hid hnone hput' => exact absurd hput' (hput request)
    | claim r now lease tie job jobs row hevent hclaim holdest hid hrow hrunnable hjob hput' =>
        rw [hput'] at hdone
        exact nomatch hdone
    | complete r now hold row hevent hactivity hbody hid hrow hput' =>
        have hfanout := hmarked.bodies r hold (World.held_of_holding hactivity) (hid ▸ hf)
        rw [hbody] at hfanout
        exact nomatch hfanout
    | fail r now terminal error jitter hold row hevent hactivity hid hrow hput' =>
        rw [hput'] at hdone
        simp only [JobRow.fail] at hdone
        split_ifs at hdone
    | advance r now hold exhausted last row hevent hactivity hid hrow hput' =>
        have hpage := (h.pages r hold exhausted last [] hactivity).mono
          (hstep.steady_held hheld (World.held_of_inserting hactivity)) hstep.inserted_subset
        subst hid
        cases exhausted with
        | true => exact hpage.finished
        | false =>
            obtain ⟨l, rfl⟩ := Option.isSome_iff_exists.mp (hpage.1 rfl)
            rw [hput'] at hdone
            exact nomatch hdone
  · exact absurd (Option.some.inj (hrow'.symm.trans hnew)) (hput request)

theorem Covers.step_pages (h : Covers w) (hheld : Held w) (hknown : Known w) (hbatch : 0 < batch)
    (hstep : Step batch event w w') (hmeets : Unbroken event w) {s : RunnerId} {hold : Hold}
    {exhausted : Bool} {last : Option String} {rest : List String}
    (hs : (w'.runners s).activity = .inserting hold exhausted last rest) :
    PageCovers w'.log hold exhausted last rest := by
  rcases hstep.inserting_cases hs with hbefore |
    ⟨rfl, hactivity, hfanout, hpage, rfl, rfl⟩ | ⟨now, maxAttempts, accepted, principal, rfl, hactivity, hlog⟩
  · exact (h.pages s hold exhausted last rest hbefore).mono
      (hstep.steady_held hheld (World.held_of_inserting hbefore)) hstep.inserted_subset
  · have hcursor := h.holds s hold (World.held_of_holding hactivity)
    have hread := PageCovers.read hbatch (hknown.steady _) hknown.users hcursor hpage
    exact hread.mono (hstep.steady_held hheld (World.held_of_holding hactivity))
      hstep.inserted_subset
  · obtain ⟨rfl, hown⟩ := hmeets
    obtain ⟨hlast, hpage⟩ := h.pages s hold exhausted last (principal :: rest) hactivity
    refine ⟨hlast, fun p hp => ?_⟩
    rcases hpage p (hstep.steady_held hheld (World.held_of_inserting hactivity) hp) with
      hmem | hrest | hafter
    · exact Or.inl (hstep.inserted_subset hmem)
    · rcases List.mem_cons.mp hrest with rfl | hrest
      · rw [hlog rfl]
        exact Or.inl (Log.mem_queued (hown hold exhausted last p rest hactivity))
      · exact Or.inr (Or.inl hrest)
    · exact Or.inr (Or.inr hafter)

theorem Covers.step (h : Covers w) (hheld : Held w) (hmarked : Marked w) (hknown : Known w)
    (hbatch : 0 < batch) (hstep : Step batch event w w') (hmeets : Unbroken event w) :
    Covers w' := by
  constructor
  · exact fun id row' hrow' => h.step_rows hheld hknown hstep hrow'
  · exact fun f hf row' hrow' hdone => h.step_finished hheld hmarked hknown hstep hf hrow' hdone
  · intro r hold hhold
    rcases hstep.held_cases hhold with hold' | ⟨now, lease, tie, jobs, -, hclaim, -, -⟩
    · exact fun p hp c hc hle => hstep.inserted_subset
        (h.holds r hold hold' p (hstep.steady_held hheld hold' hp) c hc hle)
    · obtain ⟨row, -, hrow, -, hjob, -⟩ := Table.claimDue_some hclaim
      rw [hjob]
      exact hstep.covered (h.rows _ row hrow) fun hclaims => (hknown.first _ row hrow hclaims).1
  · exact fun s hold exhausted last rest hs => h.step_pages hheld hknown hbatch hstep hmeets hs

/-! ### Runs -/

structure Expanding (w : World) : Prop where
  held : Held w
  marked : Marked w
  known : Known w
  once : Once w
  covers : Covers w

theorem Expanding.fresh (hw : w.Fresh) : Expanding w :=
  ⟨.fresh hw, .fresh hw, .fresh hw, .fresh hw, .fresh hw⟩

theorem Expanding.step (h : Expanding w) (hbatch : 0 < batch) (hstep : Step batch event w w')
    (hmeets : Unbroken event w) : Expanding w' where
  held := h.held.step hstep
  marked := h.marked.step h.held hstep hmeets
  known := h.known.step h.held hstep
  once := h.once.step hstep
  covers := h.covers.step h.held h.marked h.known hbatch hstep hmeets

/-- Nobody runs the body of a fan-out row, and when one is done, every principal that was
there for its whole expansion had one child inserted for it. -/
structure World.FannedOut (w : World) : Prop where
  expanded : ∀ r hold, w.held r = some hold → hold.job.id ∈ w.log.fires → hold.job.isFanout = true
  reached : ∀ f ∈ w.log.fires, ∀ row, w.jobs.lookup f = some row → row.state = .done →
    ∀ p ∈ w.log.steady f, w.log.inserted.count (f, p) = 1

/-- In a run in which no fan-out row is claimed after a crash or a failure took its mark
off, and no child is refused or shut out by another row, fan-outs reach everybody once. -/
theorem fannedOut_of_unbroken (hbatch : 0 < batch) (hw : w.Fresh)
    (hrun : Reaches batch Unbroken w w') : w'.FannedOut := by
  have hinv := hrun.invariant (P := Expanding) (.fresh hw) fun hstep hmeets h =>
    h.step hbatch hstep hmeets
  constructor
  · exact hinv.marked.bodies
  · intro f hf row hrow hdone p hp
    exact List.count_eq_one_of_mem hinv.once.nodup (hinv.covers.finished f hf row hrow hdone p hp)

theorem Unbroken.claim {r : RunnerId} {now lease : ℤ} {tie : String → ℕ} (id : String)
    (row : JobRow) (h : w.jobs.oldest now tie = some ⟨id, row⟩) (hrow : row.state = .fanout) :
    Unbroken (.claim r now lease tie) w := by
  intro id' row' h' _
  cases h.symm.trans h'
  exact hrow

/-- A digest is claimed, expanded over the one user there is, and done. -/
theorem fannedOut_of_unbroken_digest : ∃ w', Reaches 500 Unbroken .empty w' ∧
    ((w'.jobs.lookup digest.id).map JobRow.state = some .done ∧
      "ada" ∈ w'.log.steady digest.id) ∧ w'.FannedOut := by
  have hstart : Reaches 500 Unbroken .empty .empty := .refl
  have hada := Reaches.next hstart (.register Forge.ada) (.register _) trivial
  have hdue := Reaches.next hada (.enqueue digest) (.enqueue _) trivial
  have hclaimed := Reaches.next hdue (.claim 0 0 defaultLeaseMs anyOrder) (.claim rfl le_rfl rfl)
    (Unbroken.claim digest.id digest.row (by decide) rfl)
  have hada : ["ada"] = principalsAfter {"ada"} none 500 := by decide +kernel
  have hpage := Reaches.next hclaimed (.readPage 0) (.readPage rfl rfl hada) trivial
  have hchild := Reaches.next hpage (.queueChild 0 0 1 true) (.queueChild rfl le_rfl)
    ⟨rfl, by
      intro hold exhausted last principal rest hactivity hpresent
      cases hactivity
      revert hpresent
      decide⟩
  have hdone := Reaches.next hchild (.advance 0 0) (.advance rfl le_rfl) trivial
  exact ⟨_, hdone, by decide +kernel, fannedOut_of_unbroken (by decide) World.fresh_empty hdone⟩

/-- The holder of a digest dies and its lease runs out: the next runner is handed the digest
as a plain job, runs its body for nobody, and the digest is done without a child for ada. -/
theorem reclaimed_digest_runs :
    (∃ w, Reaches 500 (fun _ _ => True) .empty w ∧ digest.id ∈ w.log.fires ∧
      ((w.held 1).map fun hold => (hold.job.id, hold.job.isFanout, hold.job.principal)) =
        some (digest.id, false, none)) ∧
    ∃ w, Reaches 500 (fun _ _ => True) .empty w ∧ digest.id ∈ w.log.fires ∧
      (w.jobs.lookup digest.id).map JobRow.state = some .done ∧
      "ada" ∈ w.log.steady digest.id ∧ w.log.inserted.count (digest.id, "ada") = 0 := by
  have hstart : Reaches 500 (fun _ _ => True) .empty .empty := .refl
  have hada := Reaches.next hstart (.register Forge.ada) (.register _) trivial
  have hdue := Reaches.next hada (.enqueue digest) (.enqueue _) trivial
  have hclaimed := Reaches.next hdue (.claim 0 0 defaultLeaseMs anyOrder) (.claim rfl le_rfl rfl)
    trivial
  have hdead := Reaches.next hclaimed (.crash 0) (.crash 0) trivial
  have hagain := Reaches.next hdead (.claim 1 defaultLeaseMs defaultLeaseMs anyOrder)
    (.claim rfl (by decide) rfl) trivial
  have hran := Reaches.next hagain (.complete 1 defaultLeaseMs) (.complete rfl rfl le_rfl) trivial
  exact ⟨⟨_, hagain, by decide +kernel⟩, ⟨_, hran, by decide +kernel⟩⟩

end Albedo.Jobs
