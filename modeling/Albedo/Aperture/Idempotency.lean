import Albedo.Aperture.Resume
import Albedo.Aperture.Retention

/-!
# One call, one key

What the requests that ever left have in common. A step is sent again only when its process
died before the answer was settled, and then as the same call under the same key.
-/
namespace Albedo.Aperture
open Separator

variable {Value : Type} {codec : Codec Value}
  {attach : ApertureRequest → Except String ApertureRequest} {bodies : String → Body Value}
  {dispatcher dispatcher' : Dispatcher Value}

structure Dispatcher.Safe (dispatcher : Dispatcher Value) : Prop where
  recorded : ∀ x ∈ dispatcher.sent, ∃ row, x.row = some row ∧ row.state = .unknown ∧
    row.digest = x.request.digest
  resent : ∀ x ∈ dispatcher.sent, ∀ y ∈ dispatcher.sent, x.workflow = y.workflow →
    x.request.step = y.request.step → x.key = y.key ∧ x.request.digest = y.request.digest
  keyed : ∀ x ∈ dispatcher.sent, ∀ y ∈ dispatcher.sent, ∀ key, x.key = some key →
    y.key = some key → x.request.digest = y.request.digest

def Dispatcher.KeepsSettled (dispatcher dispatcher' : Dispatcher Value) : Prop :=
  ∃ later, dispatcher'.sent = later ++ dispatcher.sent ∧
    ∀ workflow, ∀ r ∈ (dispatcher.ledger workflow).rows, r.2.state ≠ .unknown →
      r ∈ (dispatcher'.ledger workflow).rows ∧
        ∀ x ∈ later, x.workflow = workflow → x.request.step ≠ r.1

/-! ### Runs -/

/-- The log of a workflow is sound, its run is in step with it, and what it sent is traced. -/
def Dispatcher.Tracked (codec : Codec Value) (body : Body Value) (dispatcher : Dispatcher Value)
    (workflow : String) (answers : List (Recorded Value)) : Prop :=
  Sound body answers ((dispatcher.ledger workflow).steps codec) ∧
    Follows body workflow answers ((dispatcher.ledger workflow).steps codec)
      (dispatcher.activity workflow) ∧
    ∀ x ∈ dispatcher.sent, x.workflow = workflow → x.Traced body answers

theorem DispatchStep.tracked (hstable : ∀ workflow, (bodies workflow).Stable)
    (hcapped : ∀ workflow, (bodies workflow).Capped)
    (hstep : DispatchStep codec attach bodies dispatcher dispatcher') {workflow : String}
    {answers : List (Recorded Value)}
    (h : dispatcher.Tracked codec (bodies workflow) workflow answers) :
    ∃ answers', dispatcher'.Tracked codec (bodies workflow) workflow answers' := by
  obtain ⟨hsound, hfollows, hsent⟩ := h
  cases hstep with
  | @advance own log activity sent hadvance =>
      by_cases hown : workflow = own
      · subst hown
        obtain ⟨answers', hpre, hsound', hfollows', hsent'⟩ :=
          hadvance.sound (hstable workflow) (hcapped workflow) hsound hfollows
        refine ⟨answers', ?_, ?_, fun x hx hworkflow => ?_⟩
        · rwa [Dispatcher.moved_ledger_self]
        · rwa [Dispatcher.moved_ledger_self, Dispatcher.moved_activity_self]
        · rcases List.mem_append.mp hx with hnew | hold
          · exact hsent' x (Option.mem_toList.mp hnew)
          · exact (hsent x hold hworkflow).mono hpre
      · refine ⟨answers, ?_, ?_, fun x hx hworkflow => ?_⟩
        · rwa [dispatcher.moved_ledger_of_ne _ _ _ hown]
        · rwa [dispatcher.moved_ledger_of_ne _ _ _ hown, dispatcher.moved_activity_of_ne _ _ _ hown]
        · rcases List.mem_append.mp hx with hnew | hold
          · obtain ⟨hother, -⟩ := hadvance.leaves (Option.mem_toList.mp hnew)
            exact absurd (hworkflow.symm.trans hother) hown
          · exact hsent x hold hworkflow

theorem Dispatches.tracked (hstable : ∀ workflow, (bodies workflow).Stable)
    (hcapped : ∀ workflow, (bodies workflow).Capped)
    (hrun : Dispatches codec attach bodies .empty dispatcher) (workflow : String) :
    ∃ answers, dispatcher.Tracked codec (bodies workflow) workflow answers := by
  induction hrun with
  | refl =>
      refine ⟨[], .nil _, .idle, fun x hx _ => ?_⟩
      cases hx
  | tail _ hstep ih =>
      obtain ⟨answers, h⟩ := ih
      exact hstep.tracked hstable hcapped h

theorem StepLog.Dense.row_of_mem {log : StepLog} (hdense : log.Dense) {r : ℕ × StepRow}
    (h : r ∈ log.rows) : log.row r.1 = some r.2 := by
  obtain ⟨k, hk⟩ := List.getElem?_of_mem h
  rw [hdense.index hk]
  exact hdense.row hk

theorem DispatchStep.keepsSettled
    (htracked : ∀ workflow, ∃ answers,
      dispatcher.Tracked codec (bodies workflow) workflow answers)
    (htracked' : ∀ workflow, ∃ answers,
      dispatcher'.Tracked codec (bodies workflow) workflow answers)
    (hstep : DispatchStep codec attach bodies dispatcher dispatcher') :
    dispatcher.KeepsSettled dispatcher' := by
  cases hstep with
  | @advance own log activity sent hadvance =>
      refine ⟨sent.toList, rfl, fun workflow r hr hsettled => ⟨?_, fun x hx hworkflow hindex => ?_⟩⟩
      · by_cases hown : workflow = own
        · subst hown
          rw [Dispatcher.moved_ledger_self]
          exact hadvance.mem_rows hr hsettled
        · rwa [dispatcher.moved_ledger_of_ne _ _ _ hown]
      · obtain ⟨hown, hrow⟩ := hadvance.leaves (Option.mem_toList.mp hx)
        obtain ⟨_, -, -, hsent'⟩ := htracked' workflow
        obtain ⟨row, hleft, hunknown, -⟩ :=
          (hsent' x (List.mem_append_left _ hx) hworkflow).recorded
        obtain ⟨_, hsound, -⟩ := htracked workflow
        rw [← hown, hworkflow, hindex,
          ((StepLog.numbered_steps codec).mp hsound.numbered).row_of_mem hr] at hrow
        rw [hrow] at hleft
        obtain rfl := Option.some.inj hleft
        exact hsettled hunknown

theorem Dispatcher.KeepsSettled.refl (dispatcher : Dispatcher Value) :
    dispatcher.KeepsSettled dispatcher := by
  refine ⟨[], rfl, fun workflow r hr _ => ⟨hr, fun x hx => ?_⟩⟩
  cases hx

theorem Dispatcher.KeepsSettled.trans {a b c : Dispatcher Value} (hab : a.KeepsSettled b)
    (hbc : b.KeepsSettled c) : a.KeepsSettled c := by
  obtain ⟨first, hb, hfirst⟩ := hab
  obtain ⟨second, hc, hsecond⟩ := hbc
  refine ⟨second ++ first, by rw [hc, hb, List.append_assoc], fun workflow r hr hsettled => ?_⟩
  obtain ⟨hkept, hnot⟩ := hfirst workflow r hr hsettled
  obtain ⟨hkept', hnot'⟩ := hsecond workflow r hkept hsettled
  refine ⟨hkept', fun x hx => ?_⟩
  rcases List.mem_append.mp hx with hx | hx
  · exact hnot' x hx
  · exact hnot x hx

theorem Dispatches.next (hrun : Dispatches codec attach bodies .empty dispatcher)
    (workflow : String) {log log' : StepLog} {activity activity' : Activity Value}
    {sent : Option Sent} (hledger : dispatcher.ledger workflow = log)
    (hactivity : dispatcher.activity workflow = activity)
    (hadvance : Advance codec attach (bodies workflow) workflow log activity sent log' activity') :
    Dispatches codec attach bodies .empty (dispatcher.moved workflow log' activity' sent) := by
  subst hledger hactivity
  exact hrun.tail (.advance hadvance)

def only (call : PendingRequest) (hfirst : call.step = 0) : Body Value where
  pass answers := if (answers 0).isSome then .completed else .suspended [call]
  unanswered := by
    intro answers pending h r hr
    split_ifs at h with hanswered
    obtain rfl := ActionPass.suspended.inj h
    rw [List.mem_singleton.mp hr, hfirst]
    exact Option.not_isSome_iff_eq_none.mp hanswered
  ordered := by
    intro answers pending h
    split_ifs at h
    obtain rfl := ActionPass.suspended.inj h
    exact List.pairwise_singleton _ _
  covered := by
    intro answers pending h r hr k hk
    split_ifs at h
    obtain rfl := ActionPass.suspended.inj h
    rw [List.mem_singleton.mp hr, hfirst] at hk
    exact absurd hk (Nat.not_lt_zero k)

theorem only_staged (call : PendingRequest) (hfirst : call.step = 0)
    (answers : List (Recorded Value)) :
    (only call hfirst).staged answers = [] ∨ (only call hfirst).staged answers = [call] := by
  simp only [Body.staged, only]
  split_ifs
  · exact Or.inl rfl
  · exact Or.inr rfl

theorem only_stable (call : PendingRequest) (hfirst : call.step = 0) :
    (only call hfirst : Body Value).Stable := by
  refine Body.stable_of_sequential fun answers => ?_
  rcases only_staged call hfirst answers with hnone | hone
  · rw [hnone]
    exact Nat.zero_le _
  · rw [hone]
    exact Nat.le_refl _

theorem only_capped (call : PendingRequest) (hfirst : call.step = 0) :
    (only call hfirst : Body Value).Capped := by
  intro answers _ r hr
  rcases only_staged call hfirst answers with hnone | hone
  · rw [hnone] at hr
    cases hr
  · rw [hone] at hr
    rw [List.mem_singleton.mp hr, hfirst]
    decide

theorem moves_resolve_charge :
    let resolved := resolvePending flags .empty (.new "w" "b") "b" 0 [charge true 1]
    Relation.ReflTransGen (Moves flags .ok (only (charge true 0).request rfl) "w")
      (.empty, .running (.new "w" "b")) (resolved.1, landing resolved.2) :=
  moves_resolve 0 (by decide) (by decide +kernel)

/-! ### An order at a rate -/

def rate : PendingRequest := ⟨0, "GET", "https://rates.example/eur", none, [], "rate"⟩

def order (price : String) : PendingRequest :=
  ⟨1, "POST", "https://shop.example/orders", some price, [], price⟩

def quotePass (answers : Answers (Option Bool)) : ActionPass :=
  if (answers 1).isSome then
    if (answers 0).isSome then .completed else .suspended [rate]
  else if (answers 0).isSome then .suspended [order "12"] else .suspended [rate, order "10"]

theorem quotePass_cases {answers : Answers (Option Bool)} {pending : List PendingRequest}
    (h : quotePass answers = .suspended pending) :
    (answers 0 = none ∧ (answers 1).isSome ∧ pending = [rate]) ∨
    ((answers 0).isSome ∧ answers 1 = none ∧ pending = [order "12"]) ∨
    (answers 0 = none ∧ answers 1 = none ∧ pending = [rate, order "10"]) := by
  unfold quotePass at h
  split_ifs at h with hsecond hfirst hfirst
  · simp_all
  · simp_all
  · simp_all

def quote : Body (Option Bool) where
  pass := quotePass
  unanswered := by
    intro answers pending h r hr
    rcases quotePass_cases h with ⟨hopen, -, rfl⟩ | ⟨-, hopen, rfl⟩ | ⟨hopen, hopen', rfl⟩
    · simp_all [rate]
    · simp_all [order]
    · rcases List.mem_pair.mp hr with rfl | rfl
      · exact hopen
      · exact hopen'
  ordered := by
    intro answers pending h
    rcases quotePass_cases h with ⟨-, -, rfl⟩ | ⟨-, -, rfl⟩ | ⟨-, -, rfl⟩
    · decide
    · decide
    · decide
  covered := by
    intro answers pending h r hr k hk
    rcases quotePass_cases h with ⟨-, -, rfl⟩ | ⟨hanswered, -, rfl⟩ | ⟨-, -, rfl⟩
    · obtain rfl := List.mem_singleton.mp hr
      exact absurd hk (Nat.not_lt_zero k)
    · obtain rfl := List.mem_singleton.mp hr
      obtain rfl := Nat.lt_one_iff.mp hk
      exact Or.inl hanswered
    · rcases List.mem_pair.mp hr with rfl | rfl
      · exact absurd hk (Nat.not_lt_zero k)
      · obtain rfl := Nat.lt_one_iff.mp hk
        exact Or.inr ⟨rate, List.mem_cons_self, rfl⟩

end Albedo.Aperture
