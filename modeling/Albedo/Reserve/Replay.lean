import Mathlib.Data.List.Permutation
import Mathlib.Tactic.IntervalCases
import Albedo.Library.History
import Albedo.Reserve.Supply

/-!
# Retried claims

Reserve and release are linearizable as long as no claim is told that the supply is short
while its own key holds a claim, and a key takes supply once as long as nobody claims under
a key whose claim was released. A retry that races the first attempt for the last unit is
told "exhausted", and a retry after the release takes supply again.
-/
namespace Albedo.Reserve
open Interleave Linearize

/-- What an answer says, the supply it reports aside. -/
inductive Verdict where
  | defined
  | reserved (reservationId : ℤ)
  | replayed (reservationId : ℤ)
  | exhausted
  | released
  | notFound
  | refused (err : ReserveError)
  deriving DecidableEq

def Answer.verdict : Answer → Verdict
  | .defined (.ok ()) => .defined
  | .reserve (.ok (.reserved id _)) => .reserved id
  | .reserve (.ok (.replayed id _)) => .replayed id
  | .reserve (.ok (.exhausted _)) => .exhausted
  | .release (.ok (.released _)) => .released
  | .release (.ok .notFound) => .notFound
  | .defined (.error err) => .refused err
  | .reserve (.error err) => .refused err
  | .release (.error err) => .refused err

/-- What a call says, and what it leaves, with the store to itself. -/
def alone (s : Store) (op : Op) : Option Verdict × Store :=
  match (program op).run s with
  | some (answer, s') => (some answer.verdict, s')
  | none => (none, s)

/-! ### Calls on their own -/

section
variable {s s' : Store} {req : Request}

theorem alone_of_run {op : Op} {answer : Answer} (h : (program op).run s = some (answer, s')) :
    alone s op = (some answer.verdict, s') := by
  unfold alone
  rw [h]

theorem alone_reserve (result : Except ReserveError ReserveOutcome)
    (h : (reserve req).run s = some (.reserve result, s')) :
    alone s (.reserve req) = (some (Answer.reserve result).verdict, s') :=
  alone_of_run h

theorem reserve_run_held {key : String} {prior : Reservation} (hquantity : 0 < req.quantity)
    (hkey : req.idempotencyKey = some key) (hprior : s.prior key = some prior) :
    (reserve req).run s = some (.reserve ((ensureMatches prior req key).bind fun _ =>
      replayed prior (s.remaining prior.resourceKey)), s) := by
  unfold reserve
  rw [if_neg (Int.not_le.mpr hquantity)]
  simp only [hkey, Prog.run, hprior]
  cases ensureMatches prior req key with
  | error err => rfl
  | ok u => rfl

theorem reserve_run_unheld (hquantity : 0 < req.quantity) (h : s.Unheld req) :
    (reserve req).run s = (reserveCovered req).run s := by
  unfold reserve
  rw [if_neg (Int.not_le.mpr hquantity)]
  cases hkey : req.idempotencyKey with
  | none => rfl
  | some key =>
      have hprior := h key hkey
      simp only [Prog.run, hprior]

theorem alone_unknown (hquantity : 0 < req.quantity) (h : s.Unheld req)
    (hresource : s.remaining req.resource = none) :
    alone s (.reserve req) = (some (.refused (.unknownResource req.resource)), s) := by
  refine alone_reserve (.error (.unknownResource req.resource)) ?_
  rw [reserve_run_unheld hquantity h]
  simp only [reserveCovered, Prog.run, hresource]

theorem alone_exhausted {remaining : ℤ} (hquantity : 0 < req.quantity) (h : s.Unheld req)
    (hresource : s.remaining req.resource = some remaining) (hshort : remaining < req.quantity) :
    alone s (.reserve req) = (some .exhausted, s) := by
  refine alone_reserve (.ok (.exhausted remaining)) ?_
  rw [reserve_run_unheld hquantity h]
  simp only [reserveCovered, Prog.run, hresource, if_pos hshort]

theorem alone_reserveTx {result : Except ReserveError ReserveOutcome}
    (hquantity : 0 < req.quantity) (h : (reserveTx req).run s = some (result, s')) :
    alone s (.reserve req) = (some (Answer.reserve result).verdict, s') := by
  rcases reserveTx_run h with ⟨rfl, key, prior, hkey, hprior, rfl⟩ | ⟨hunheld, hrest⟩
  · exact alone_reserve _ (reserve_run_held hquantity hkey hprior)
  · rcases hrest with ⟨rfl, hshort, rfl⟩ | ⟨hclaims, -⟩
    · cases hr : s'.resource req.resource with
      | none =>
          have hremaining : s'.remaining req.resource = none := by
            unfold Store.remaining
            rw [hr]
            rfl
          rw [hremaining, alone_unknown hquantity hunheld hremaining]
          rfl
      | some r =>
          have hremaining : s'.remaining req.resource = some r.remaining := by
            unfold Store.remaining
            rw [hr]
            rfl
          rw [hremaining, alone_exhausted hquantity hunheld hremaining (hshort r hr)]
          rfl
    · obtain ⟨r, r', hr, hcovered, -⟩ := hclaims.supply
      refine alone_reserve _ ?_
      rw [reserve_run_unheld hquantity hunheld]
      have hremaining : s.remaining req.resource = some r.remaining := by
        unfold Store.remaining
        rw [hr]
        rfl
      simp only [reserveCovered, Prog.run, hremaining, if_neg (Int.not_lt.mpr hcovered),
        reserveLocked, h]

end

/-! ### Calls among others -/

/-- What every call would have to meet. Whoever finds the supply short without the lock holds
no claim under its key by then; and whoever claims under a key that was claimed under before
finds that claim still there. -/
structure Orderly (events : List (Event Op)) : Prop where
  unheld : ∀ k < events.length, ∀ c req remaining, Mine events c k →
    (viewAt program Store.empty events k).calls c = some (.reserve req, some (reserveCovered req)) →
    (storeAt program Store.empty events k).remaining req.resource = some remaining →
    remaining < req.quantity → (storeAt program Store.empty events k).Unheld req
  unreleased : ∀ k < events.length, ∀ c req key, Mine events c k →
    (viewAt program Store.empty events k).calls c = some (.reserve req, some (reserveLocked req)) →
    key ∈ req.idempotencyKey →
    (∃ d req' id remaining, key ∈ req'.idempotencyKey ∧
      (viewAt program Store.empty events k).Answered d (.reserve req')
        (.reserve (.ok (.reserved id remaining)))) →
    (storeAt program Store.empty events k).prior key ≠ none

/-- The calls of a run are linearizable: every answer is what the call would be told alone. -/
def IsLinearizable (events : List (Event Op)) : Prop :=
  Linearizable alone Store.empty ((viewAt program Store.empty events events.length).history
    fun answer => some answer.verdict) (Precedes program Store.empty events)

/-- Who is told that the supply is exhausted holds no claim under its key as it is told. -/
def TellsExhausted (events : List (Event Op)) : Prop :=
  ∀ k < events.length, ∀ c req remaining,
    ¬ (viewAt program Store.empty events k).Answered c (.reserve req)
      (.reserve (.ok (.exhausted remaining))) →
    (viewAt program Store.empty events (k + 1)).Answered c (.reserve req)
      (.reserve (.ok (.exhausted remaining))) →
    (storeAt program Store.empty events k).Unheld req

def TakesOnce (events : List (Event Op)) : Prop :=
  ∀ c d req req' key id id' remaining remaining',
    (viewAt program Store.empty events events.length).Answered c (.reserve req)
      (.reserve (.ok (.reserved id remaining))) →
    (viewAt program Store.empty events events.length).Answered d (.reserve req')
      (.reserve (.ok (.reserved id' remaining'))) →
    key ∈ req.idempotencyKey → key ∈ req'.idempotencyKey → c = d

section
variable {stores : ℕ → Store} {mine : ℕ → Prop} {i k : ℕ} {req : Request} {p : Prog Store Answer}

inductive Underway (stores : ℕ → Store) (i k : ℕ) (req : Request) : Prog Store Answer → Prop
  | asked {key : String} : req.idempotencyKey = some key →
      Underway stores i k req (reserve req)
  | replaying {key : String} {prior : Reservation} {m : ℕ} : req.idempotencyKey = some key →
      i ≤ m → m ≤ k → (stores m).prior key = some prior → ensureMatches prior req key = .ok () →
      Underway stores i k req (.read (fun s => s.remaining prior.resourceKey) fun remaining =>
        .done (.reserve (replayed prior remaining)))
  | unheld {m : ℕ} : i ≤ m → m ≤ k → (stores m).Unheld req →
      Underway stores i k req (reserveCovered req)
  | covered : Underway stores i k req (reserveLocked req)

theorem reserveLocked_trail (h : Trail stores mine i (reserveLocked req) k p) :
    p = reserveLocked req ∨ ∃ a, p = .done a := by
  rcases Trail.transaction h with rfl | ⟨m, result, -, -, -, -, hrest⟩
  · exact Or.inl rfl
  · exact Or.inr ⟨_, hrest.done⟩

theorem reserveCovered_trail {j m : ℕ} (him : i ≤ m) (hmj : m ≤ j) (hunheld : (stores m).Unheld req)
    (h : Trail stores mine j (reserveCovered req) k p) :
    Underway stores i k req p ∨ ∃ a, p = .done a := by
  have hle := h.le
  unfold reserveCovered at h
  rcases Trail.read h with rfl | ⟨m', -, -, -, hrest⟩
  · exact Or.inl (.unheld him (hmj.trans hle) hunheld)
  · cases hremaining : (stores m').remaining req.resource with
    | none =>
        rw [hremaining] at hrest
        exact Or.inr ⟨_, hrest.done⟩
    | some remaining =>
        rw [hremaining] at hrest
        dsimp only at hrest
        split_ifs at hrest
        · exact Or.inr ⟨_, hrest.done⟩
        · rcases reserveLocked_trail hrest with rfl | hdone
          · exact Or.inl .covered
          · exact Or.inr hdone

theorem reserve_trail (hquantity : 0 < req.quantity)
    (h : Trail stores mine i (reserve req) k p) :
    Underway stores i k req p ∨ ∃ a, p = .done a := by
  unfold reserve at h
  rw [if_neg (Int.not_le.mpr hquantity)] at h
  cases hkey : req.idempotencyKey with
  | none =>
      simp only [hkey] at h
      refine reserveCovered_trail le_rfl le_rfl (fun key hmem => ?_) h
      rw [hkey] at hmem
      cases hmem
  | some key =>
      simp only [hkey] at h
      rcases Trail.read h with hstart | ⟨m, him, hmk, -, hrest⟩
      · left
        have hp : p = reserve req := by
          unfold reserve
          rw [if_neg (Int.not_le.mpr hquantity), hstart]
          simp only [hkey]
        rw [hp]
        exact .asked hkey
      · cases hprior : (stores m).prior key with
        | none =>
            rw [hprior] at hrest
            refine reserveCovered_trail him (Nat.le_succ m) (fun key' hmem => ?_) hrest
            rw [hkey] at hmem
            obtain rfl := Option.some.inj hmem
            exact hprior
        | some prior =>
            rw [hprior] at hrest
            dsimp only at hrest
            cases hmatches : ensureMatches prior req key with
            | error err =>
                rw [hmatches] at hrest
                exact Or.inr ⟨_, hrest.done⟩
            | ok u =>
                rw [hmatches] at hrest
                rcases Trail.read hrest with rfl | ⟨m', -, -, -, hrest⟩
                · exact Or.inl (.replaying hkey him (Nat.le_of_lt hmk) hprior hmatches)
                · exact Or.inr ⟨_, hrest.done⟩

end

/-! ### Every step agrees -/

section
variable {events : List (Event Op)} {i k c : ℕ} {req : Request} {p q : Prog Store Answer}

theorem storeAt_defined {m n : ℕ} (hmn : m ≤ n) (hn : n ≤ events.length) {key : String}
    (h : (storeAt program Store.empty events m).resource key ≠ none) :
    (storeAt program Store.empty events n).resource key ≠ none :=
  (storeAt_carries events hmn hn (storeAt_conserved events (hmn.trans hn))).2 key h

theorem remaining_none {s : Store} {key : String} :
    s.remaining key = none ↔ s.resource key = none := by
  simp [Store.remaining]

theorem Underway.step (h : Orderly events) (hk : k < events.length)
    (hquantity : 0 < req.quantity) (hik : i ≤ k) (hmine : Mine events c k)
    (hcalls : (viewAt program Store.empty events k).calls c = some (.reserve req, some p))
    (hp : Underway (storeAt program Store.empty events) i k req p)
    (hatomic : Atomic p (storeAt program Store.empty events k) q
      (storeAt program Store.empty events (k + 1))) :
    storeAt program Store.empty events (k + 1) = storeAt program Store.empty events k ∧
      (∀ a, q = .done a → ∃ m, i ≤ m ∧ m ≤ k ∧
        alone (storeAt program Store.empty events m) (.reserve req) =
          (some a.verdict, storeAt program Store.empty events m)) ∨
    ∃ a, q = .done a ∧ alone (storeAt program Store.empty events k) (.reserve req) =
      (some a.verdict, storeAt program Store.empty events (k + 1)) := by
  cases hp with
  | @asked key hkey =>
      -- the key is looked up: a conflict is told at once
      unfold reserve at hatomic
      rw [if_neg (Int.not_le.mpr hquantity)] at hatomic
      simp only [hkey] at hatomic
      obtain ⟨rfl, hsame⟩ := hatomic.of_read
      refine Or.inl ⟨hsame, fun a ha => ⟨k, hik, le_rfl, ?_⟩⟩
      cases hprior : (storeAt program Store.empty events k).prior key with
      | none =>
          rw [hprior] at ha
          unfold reserveCovered at ha
          cases ha
      | some prior =>
          rw [hprior] at ha
          have hrun := reserve_run_held hquantity hkey hprior
          dsimp only at ha
          cases hmatches : ensureMatches prior req key with
          | error err =>
              rw [hmatches] at ha hrun
              cases ha
              exact alone_reserve _ hrun
          | ok u =>
              rw [hmatches] at ha
              cases ha
  | @replaying key prior m hkey him hmk hprior hmatches =>
      -- the claim that was found is told, whatever became of it since
      obtain ⟨rfl, hsame⟩ := hatomic.of_read
      refine Or.inl ⟨hsame, fun a ha => ⟨m, him, hmk, ?_⟩⟩
      cases ha
      have hdefined := (storeAt_conserved events (hmk.trans (Nat.le_of_lt hk))).defined prior
        (Store.prior_some hprior).1
      have hstill := storeAt_defined hmk (Nat.le_of_lt hk) hdefined
      obtain ⟨n, hn⟩ := Option.ne_none_iff_exists'.mp (mt remaining_none.mp hdefined)
      obtain ⟨n', hn'⟩ := Option.ne_none_iff_exists'.mp (mt remaining_none.mp hstill)
      have hrun := reserve_run_held hquantity hkey hprior
      rw [hmatches, hn] at hrun
      rw [alone_reserve _ hrun, hn']
      rfl
  | @unheld m him hmk hunheld =>
      unfold reserveCovered at hatomic
      obtain ⟨rfl, hsame⟩ := hatomic.of_read
      refine Or.inl ⟨hsame, fun a ha => ?_⟩
      cases hremaining : (storeAt program Store.empty events k).remaining req.resource with
      | none =>
          -- what is not defined now was not when the key was free
          rw [hremaining] at ha
          cases ha
          refine ⟨m, him, hmk, alone_unknown hquantity hunheld (remaining_none.mpr ?_)⟩
          by_contra hdefined
          exact storeAt_defined hmk (Nat.le_of_lt hk) hdefined (remaining_none.mp hremaining)
      | some remaining =>
          rw [hremaining] at ha
          dsimp only at ha
          split_ifs at ha with hshort
          · cases ha
            exact ⟨k, hik, le_rfl, alone_exhausted hquantity
              (h.unheld k hk c req remaining hmine hcalls hremaining hshort) hremaining hshort⟩
          · unfold reserveLocked at ha
            cases ha
  | covered =>
      unfold reserveLocked at hatomic
      generalize storeAt program Store.empty events (k + 1) = s' at hatomic ⊢
      cases hatomic with
      | transaction hrun => exact Or.inr ⟨_, rfl, alone_reserveTx hquantity hrun⟩

theorem steps_agree (h : Orderly events) : StepsAgree program Store.empty events
    (fun answer => some answer.verdict) alone := by
  intro c op p q i k hk hmine hcalls htrail hatomic
  have hik := htrail.le
  cases op with
  | define resource capacity =>
      change Trail _ _ i (define resource capacity) k p at htrail
      unfold define at htrail
      split_ifs at htrail with hcapacity
      · rw [htrail.done] at hatomic
        cases hatomic
      · rcases Trail.execute htrail with rfl | ⟨_, _, _, _, _, _, hrest⟩
        · generalize storeAt program Store.empty events (k + 1) = s' at hatomic ⊢
          cases hatomic with
          | execute hrun =>
              refine Or.inr ⟨_, rfl, alone_of_run ?_⟩
              change (define resource capacity).run _ = _
              simp only [define, if_neg hcapacity, Prog.run, hrun]
        · rw [hrest.done] at hatomic
          cases hatomic
  | release id =>
      rcases Trail.transaction htrail with rfl | ⟨_, _, _, _, _, _, hrest⟩
      · generalize storeAt program Store.empty events (k + 1) = s' at hatomic ⊢
        cases hatomic with
        | transaction hrun =>
            refine Or.inr ⟨_, rfl, alone_of_run ?_⟩
            change (release id).run _ = _
            simp only [release, Prog.run, hrun]
      · rw [hrest.done] at hatomic
        cases hatomic
  | reserve req =>
      change Trail _ _ i (reserve req) k p at htrail
      by_cases hquantity : req.quantity ≤ 0
      · unfold reserve at htrail
        rw [if_pos hquantity] at htrail
        rw [htrail.done] at hatomic
        cases hatomic
      · have hpositive := Int.not_le.mp hquantity
        rcases reserve_trail hpositive htrail with hp | ⟨a, rfl⟩
        · exact hp.step h hk hpositive hik hmine hcalls hatomic
        · cases hatomic

theorem at_once_agree : AtOnceAgree program (fun answer => some answer.verdict) alone := by
  intro op a hprogram s
  refine alone_of_run ?_
  rw [hprogram]
  rfl

inductive Tells (events : List (Event Op)) (k : ℕ) (req : Request) (outcome : ReserveOutcome) :
    Prog Store Answer → Prop
  | replay {id remaining : ℤ} {p : Prog Store Answer} : outcome = .replayed id remaining →
      Tells events k req outcome p
  | short {remaining : ℤ} : outcome = .exhausted remaining →
      (storeAt program Store.empty events k).remaining req.resource = some remaining →
      remaining < req.quantity → Tells events k req outcome (reserveCovered req)
  | locked : (reserveTx req).run (storeAt program Store.empty events k) =
      some (.ok outcome, storeAt program Store.empty events (k + 1)) →
      Tells events k req outcome (reserveLocked req)

theorem replayed_ok {prior : Reservation} {remaining : Option ℤ} {outcome : ReserveOutcome}
    (h : replayed prior remaining = .ok outcome) : ∃ n, outcome = .replayed prior.id n := by
  unfold replayed at h
  cases remaining with
  | none => cases h
  | some n => exact ⟨n, (Except.ok.inj h).symm⟩

theorem replay_ok {prior : Reservation} {key : String} {remaining : Option ℤ}
    {outcome : ReserveOutcome}
    (h : (ensureMatches prior req key).bind (fun _ => replayed prior remaining) = .ok outcome) :
    ∃ n, outcome = .replayed prior.id n := by
  cases hmatches : ensureMatches prior req key with
  | error err =>
      rw [hmatches] at h
      cases h
  | ok u =>
      rw [hmatches] at h
      exact replayed_ok h

theorem told_step {n : ℕ} {outcome : ReserveOutcome} (hn : n ≤ events.length)
    (ha : (viewAt program Store.empty events n).Answered c (.reserve req)
      (.reserve (.ok outcome))) :
    ∃ k < n, ∃ p, Mine events c k ∧
      (viewAt program Store.empty events k).calls c = some (.reserve req, some p) ∧
      (viewAt program Store.empty events (k + 1)).Answered c (.reserve req)
        (.reserve (.ok outcome)) ∧ Tells events k req outcome p := by
  obtain ⟨k, hk, hdone, hstep⟩ := ha.step hn
  have hnever : ∀ p : Prog Store Answer, p = .done (.reserve (.ok outcome)) → req.quantity ≤ 0 →
      p ≠ reserve req := by
    rintro p rfl hquantity hp
    unfold reserve at hp
    rw [if_pos hquantity] at hp
    cases hp
  rcases hstep with ⟨-, hprogram⟩ | ⟨p, hmine, hcalls, hatomic⟩
  · -- a valid claim begins with a read
    change reserve req = _ at hprogram
    by_cases hquantity : req.quantity ≤ 0
    · exact absurd hprogram.symm (hnever _ rfl hquantity)
    · unfold reserve at hprogram
      rw [if_neg hquantity] at hprogram
      cases hkey : req.idempotencyKey with
      | none =>
          simp only [hkey, reserveCovered] at hprogram
          cases hprogram
      | some key =>
          simp only [hkey] at hprogram
          cases hprogram
  · refine ⟨k, hk, p, hmine, hcalls, hdone, ?_⟩
    obtain ⟨i, hi, -, -, htrail⟩ := trail_of_calls (Nat.le_of_lt (hk.trans_le hn)) hcalls
    change Trail _ _ _ (reserve req) k p at htrail
    by_cases hquantity : req.quantity ≤ 0
    · unfold reserve at htrail
      rw [if_pos hquantity] at htrail
      rw [htrail.done] at hatomic
      cases hatomic
    · have hpositive := Int.not_le.mp hquantity
      rcases reserve_trail hpositive htrail with hp | ⟨a, rfl⟩
      · cases hp with
        | @asked key hkey =>
            unfold reserve at hatomic
            rw [if_neg hquantity] at hatomic
            simp only [hkey] at hatomic
            obtain ⟨hq, -⟩ := hatomic.of_read
            cases hprior : (storeAt program Store.empty events k).prior key with
            | none =>
                rw [hprior] at hq
                unfold reserveCovered at hq
                cases hq
            | some prior =>
                rw [hprior] at hq
                dsimp only at hq
                cases hmatches : ensureMatches prior req key with
                | error err =>
                    rw [hmatches] at hq
                    cases hq
                | ok u =>
                    rw [hmatches] at hq
                    cases hq
        | @replaying key prior m hkey him hmk hprior hmatches =>
            obtain ⟨hq, -⟩ := hatomic.of_read
            injection hq with hanswer
            injection hanswer with hresult
            obtain ⟨n', rfl⟩ := replayed_ok hresult.symm
            exact .replay rfl
        | unheld _ _ _ =>
            have hstart := hatomic
            unfold reserveCovered at hstart
            obtain ⟨hq, -⟩ := hstart.of_read
            cases hremaining : (storeAt program Store.empty events k).remaining req.resource with
            | none =>
                rw [hremaining] at hq
                cases hq
            | some remaining =>
                rw [hremaining] at hq
                dsimp only at hq
                split_ifs at hq with hshort
                · cases hq
                  exact .short rfl hremaining hshort
                · unfold reserveLocked at hq
                  cases hq
        | covered =>
            refine .locked ?_
            unfold reserveLocked at hatomic
            generalize storeAt program Store.empty events (k + 1) = s' at hatomic ⊢
            generalize hfinal : Prog.done (Answer.reserve (Except.ok outcome)) = final at hatomic
            cases hatomic with
            | transaction hrun =>
                cases hfinal
                exact hrun
      · cases hatomic

theorem reserved_step {n : ℕ} {id remaining : ℤ} (hn : n ≤ events.length)
    (ha : (viewAt program Store.empty events n).Answered c (.reserve req)
      (.reserve (.ok (.reserved id remaining)))) :
    ∃ k < n, Mine events c k ∧
      (viewAt program Store.empty events k).calls c =
        some (.reserve req, some (reserveLocked req)) ∧
      (viewAt program Store.empty events (k + 1)).Answered c (.reserve req)
        (.reserve (.ok (.reserved id remaining))) ∧
      (storeAt program Store.empty events k).Unheld req := by
  obtain ⟨k, hk, p, hmine, hcalls, hdone, htells⟩ := told_step hn ha
  cases htells with
  | replay h => cases h
  | short h _ _ => cases h
  | locked hrun =>
      refine ⟨k, hk, hmine, hcalls, hdone, ?_⟩
      rcases reserveTx_run hrun with ⟨-, key, prior, -, -, hresult⟩ | ⟨hunheld, -⟩
      · obtain ⟨n', houtcome⟩ := replay_ok hresult.symm
        cases houtcome
      · exact hunheld

theorem tells_exhausted (h : Orderly events) : TellsExhausted events := by
  intro k hk c req remaining hnot ha
  obtain ⟨k', hk', p, hmine, hcalls, hdone, htells⟩ := told_step hk ha
  obtain rfl : k' = k := by
    by_contra hne
    exact hnot (hdone.later (by omega) (Nat.le_of_lt hk))
  cases htells with
  | replay h => cases h
  | short hsame hremaining hshort => exact h.unheld k' hk c req _ hmine hcalls hremaining hshort
  | locked hrun =>
      rcases reserveTx_run hrun with ⟨-, key, prior, -, -, hresult⟩ | ⟨hunheld, -⟩
      · obtain ⟨n', houtcome⟩ := replay_ok hresult.symm
        cases houtcome
      · exact hunheld

theorem takes_once (h : Orderly events) : TakesOnce events := by
  -- of two claims, the later one finds its key free, and the earlier one's claim there
  have hlater : ∀ {c d req req' key id remaining k m}, k < m → m < events.length →
      (viewAt program Store.empty events (k + 1)).Answered c (.reserve req)
        (.reserve (.ok (.reserved id remaining))) →
      Mine events d m →
      (viewAt program Store.empty events m).calls d =
        some (.reserve req', some (reserveLocked req')) →
      (storeAt program Store.empty events m).Unheld req' →
      key ∈ req.idempotencyKey → key ∉ req'.idempotencyKey := by
    intro c d req req' key id remaining k m hkm hm hdone hmine hcalls hunheld hkey hkey'
    exact h.unreleased m hm d req' key hmine hcalls hkey'
      ⟨c, req, id, remaining, hkey, hdone.later hkm (Nat.le_of_lt hm)⟩ (hunheld key hkey')
  intro c d req req' key id id' remaining remaining' hc hd hkey hkey'
  obtain ⟨k, hk, hmine, hcalls, hdone, hunheld⟩ := reserved_step (Nat.le_refl _) hc
  obtain ⟨m, hm, hmine', hcalls', hdone', hunheld'⟩ := reserved_step (Nat.le_refl _) hd
  rcases Nat.lt_trichotomy k m with hlt | rfl | hgt
  · exact absurd hkey' (hlater hlt hm hdone hmine' hcalls' hunheld' hkey)
  · have heq := hmine.symm.trans hmine'
    simpa using heq
  · exact absurd hkey (hlater hgt hk hdone' hmine hcalls hunheld hkey')

end

/-- Calls that meet the condition are linearizable, nobody is told that the supply is exhausted
who holds a claim under its key, and a key takes supply once. -/
theorem replay_safe {events : List (Event Op)} (h : Orderly events) :
    IsLinearizable events ∧ TellsExhausted events ∧ TakesOnce events :=
  ⟨linearizable_of_agree at_once_agree (steps_agree h), tells_exhausted h, takes_once h⟩

def buy : Op := .reserve ⟨"ticket", "ada", 1, some "k"⟩

def sale : List (Event Op) :=
  [.call 0 (.define "ticket" 1), .advance 0, .call 1 buy] ++ List.replicate 7 (.advance 1)

/-- A buyer asks again before the first attempt is through, and finds the ticket sold to it. -/
def race : List (Event Op) :=
  [.call 0 (.define "ticket" 1), .advance 0, .call 1 buy, .call 2 buy, .advance 2] ++
    List.replicate 7 (.advance 1) ++ [.advance 2]

/-- A buyer gives the ticket back, and the first attempt is sent once more. -/
def resale : List (Event Op) :=
  sale ++ .call 2 (.release 1) :: List.replicate 7 (.advance 2) ++
    .call 3 buy :: List.replicate 7 (.advance 3)

/-- The sale on its own is orderly. -/
theorem replay_safe_sale : IsLinearizable sale ∧ TellsExhausted sale ∧ TakesOnce sale := by
  refine replay_safe ⟨fun k hk c req remaining hmine hcalls hremaining hshort => ?_,
    fun k hk c req key hmine hcalls hkey hclaimed => ?_⟩
  · have hop := call_mem (Nat.le_of_lt hk) hcalls
    obtain ⟨-, rfl⟩ : c = 1 ∧ req = ⟨"ticket", "ada", 1, some "k"⟩ := by
      simpa [sale, buy, List.mem_replicate] using hop
    exfalso
    change k < 10 at hk
    interval_cases k <;> cases hremaining <;> exact absurd hshort (by decide)
  · obtain ⟨d, req', id, remaining, -, hdone⟩ := hclaimed
    exfalso
    change k < 10 at hk
    have hd := call_mem (Nat.le_of_lt hk) hdone
    obtain ⟨rfl, -⟩ : d = 1 ∧ Op.reserve req' = buy := by
      simpa [sale, List.mem_replicate] using hd
    interval_cases k <;> cases hdone

/-- A retry that is overtaken by the first attempt is told that the supply is exhausted, which no
order of the calls allows; and a retry after the release takes supply once more. -/
theorem replay_is_unsafe : ¬ IsLinearizable race ∧ ¬ TakesOnce resale := by
  constructor
  · rintro ⟨order, hnodup, hmem, -, s', hreplays⟩
    have hperm : order.Perm [0, 1, 2] := by
      refine (List.perm_ext_iff_of_nodup hnodup (by decide)).mpr fun c => ?_
      rw [hmem]
      constructor
      · intro hsome
        obtain ⟨op, a, ha⟩ := View.history_isSome.mp hsome
        have hop := call_mem (Nat.le_refl _) ha
        have hc : c = 1 ∨ c = 0 ∨ c = 2 := by
          simp [race] at hop
          tauto
        rcases hc with rfl | rfl | rfl <;> decide
      · intro hc
        simp only [List.mem_cons, List.not_mem_nil, or_false] at hc
        rcases hc with rfl | rfl | rfl <;> rfl
    have horders : [0, 1, 2].permutations' =
        [[0, 1, 2], [1, 0, 2], [1, 2, 0], [0, 2, 1], [2, 0, 1], [2, 1, 0]] := by decide
    have horder := List.mem_permutations'.mpr hperm
    rw [horders] at horder
    simp only [List.mem_cons, List.not_mem_nil, or_false] at horder
    -- the retry comes after the first attempt, before it, or before the sale
    rcases horder with rfl | rfl | rfl | rfl | rfl | rfl
    · exact absurd hreplays.2.2.1 (by decide)
    · exact absurd hreplays.1 (by decide)
    · exact absurd hreplays.1 (by decide)
    · exact absurd hreplays.2.1 (by decide)
    · exact absurd hreplays.1 (by decide)
    · exact absurd hreplays.1 (by decide)
  · intro h
    have hfirst : (viewAt program Store.empty resale resale.length).Answered 1 buy
        (.reserve (.ok (.reserved 1 0))) := rfl
    have hsecond : (viewAt program Store.empty resale resale.length).Answered 3 buy
        (.reserve (.ok (.reserved 2 0))) := rfl
    exact absurd (h 1 3 _ _ "k" 1 2 0 0 hfirst hsecond rfl rfl) (by decide)

end Albedo.Reserve
