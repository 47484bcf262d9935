import Albedo.Aperture.Workflow

/-!
# Bodies that call out

A handler body runs again from its start after every answer, and asks for the calls that
have none. What it asks for at a step that is still open may depend on the answers it has.
-/
namespace Albedo.Aperture

variable {Value : Type}

abbrev Answers (Value : Type) := ℕ → Option (Recorded Value)

def Journal.answers (journal : Journal Value) : Answers Value :=
  fun k => (journal.toScriptValue[k]?).join

inductive ActionPass where
  | completed
  | failed
  | suspended (pending : List PendingRequest)
  deriving DecidableEq

/-- A handler body. What a pass does is determined by the answers; it numbers its calls in
order, and stages those that have no answer. -/
structure Body (Value : Type) where
  pass : Answers Value → ActionPass
  unanswered : ∀ answers pending, pass answers = .suspended pending →
    ∀ r ∈ pending, answers r.step = none
  ordered : ∀ answers pending, pass answers = .suspended pending →
    pending.Pairwise fun r s => r.step < s.step
  covered : ∀ answers pending, pass answers = .suspended pending → ∀ r ∈ pending, ∀ k < r.step,
    (answers k).isSome ∨ ∃ s ∈ pending, s.step = k

def Body.staged (body : Body Value) (answers : List (Recorded Value)) : List PendingRequest :=
  match body.pass fun k => answers[k]? with
  | .suspended pending => pending
  | _ => []

/-- The answers a body can have been given: each pass was followed by answers to the first
so many calls it staged. -/
inductive Body.Answered (body : Body Value) : List (Recorded Value) → Prop
  | nil : body.Answered []
  | append {answers given : List (Recorded Value)} (hanswers : body.Answered answers)
      (hgiven : given.map Recorded.digest <+:
        (body.staged answers).map PendingRequest.digest) : body.Answered (answers ++ given)

def PendingRequest.Keyed (staged : PendingRequest) : Prop :=
  staged.method ∉ ["GET", "HEAD", "OPTIONS", "TRACE"] ∧
    (staged.headers.any fun header => header.1.toLower = idempotencyKeyHeader.toLower) = false

instance (staged : PendingRequest) : Decidable staged.Keyed :=
  inferInstanceAs (Decidable (_ ∧ _))

theorem derivedKey_eq (staged : PendingRequest) (journal : Journal Value) :
    derivedKey staged journal =
      if staged.Keyed then some (journal.idempotencyKey staged.step) else none := rfl

/-- Requests that are the same call: they have one digest, and both or none are keyed. -/
def PendingRequest.SameCall (staged staged' : PendingRequest) : Prop :=
  staged.digest = staged'.digest ∧ (staged.Keyed ↔ staged'.Keyed)

theorem PendingRequest.SameCall.symm {staged staged' : PendingRequest}
    (h : staged.SameCall staged') : staged'.SameCall staged :=
  ⟨h.1.symm, h.2.symm⟩

/-- More answers do not change what a body asks for at a step that is still open. -/
def Body.Stable (body : Body Value) : Prop :=
  ∀ answers answers', body.Answered answers → body.Answered answers' → answers <+: answers' →
    ∀ r ∈ body.staged answers, ∀ r' ∈ body.staged answers', r.step = r'.step → r.SameCall r'

def Body.Capped (body : Body Value) : Prop :=
  ∀ answers, body.Answered answers → ∀ r ∈ body.staged answers, r.step < defaultStepCap

/-! ### The steps a body stages -/

theorem eq_range' {ks : List ℕ} {n : ℕ} (hordered : ks.Pairwise (· < ·)) (hle : ∀ k ∈ ks, n ≤ k)
    (hcovered : ∀ k ∈ ks, ∀ j, n ≤ j → j < k → j ∈ ks) : ks = List.range' n ks.length := by
  induction ks generalizing n with
  | nil => rfl
  | cons k ks ih =>
      obtain ⟨hhead, htail⟩ := List.pairwise_cons.mp hordered
      have hk : k = n := by
        refine Nat.le_antisymm (Nat.not_lt.mp fun hlt => ?_) (hle k List.mem_cons_self)
        rcases List.mem_cons.mp (hcovered k List.mem_cons_self n (Nat.le_refl n) hlt) with
          heq | hmem
        · exact absurd heq (Nat.ne_of_lt hlt)
        · exact absurd (hhead n hmem) (Nat.lt_asymm hlt)
      subst hk
      rw [List.length_cons, List.range'_succ, ← ih htail hhead]
      intro j hj i hi hij
      rcases List.mem_cons.mp (hcovered j (List.mem_cons_of_mem _ hj) i (Nat.le_of_lt hi) hij) with
        heq | hmem
      · exact absurd heq (Nat.ne_of_gt hi)
      · exact hmem

theorem Body.staged_steps (body : Body Value) (answers : List (Recorded Value)) :
    (body.staged answers).map PendingRequest.step =
      List.range' answers.length (body.staged answers).length := by
  unfold Body.staged
  cases hpass : body.pass fun k => answers[k]? with
  | completed => rfl
  | failed => rfl
  | suspended pending =>
      have hopen : ∀ r ∈ pending, answers.length ≤ r.step := fun r hr =>
        List.getElem?_eq_none_iff.mp (body.unanswered _ pending hpass r hr)
      rw [← List.length_map (f := PendingRequest.step)]
      refine eq_range' (List.pairwise_map.mpr (body.ordered _ pending hpass)) ?_ ?_
      · exact List.forall_mem_map.mpr hopen
      · refine List.forall_mem_map.mpr fun r hr j hj hlt => ?_
        rcases body.covered _ pending hpass r hr j hlt with hanswer | ⟨s, hs, rfl⟩
        · rw [List.getElem?_eq_none hj] at hanswer
          cases hanswer
        · exact List.mem_map_of_mem hs

theorem Body.getElem?_staged (body : Body Value) {answers : List (Recorded Value)} {k : ℕ}
    {r : PendingRequest} (h : (body.staged answers)[k]? = some r) :
    r.step = answers.length + k := by
  have hlt := (List.getElem?_eq_some_iff.mp h).choose
  have hstep : ((body.staged answers).map PendingRequest.step)[k]? = some r.step := by
    rw [List.getElem?_map, h]
    rfl
  rw [body.staged_steps, List.getElem?_range' hlt, Nat.one_mul] at hstep
  exact (Option.some.inj hstep).symm

theorem Body.mem_staged (body : Body Value) {answers : List (Recorded Value)} {r : PendingRequest}
    (h : r ∈ body.staged answers) : answers.length ≤ r.step := by
  obtain ⟨k, hk⟩ := List.getElem?_of_mem h
  rw [body.getElem?_staged hk]
  exact Nat.le_add_right _ _

theorem Body.stable_of_sequential {body : Body Value}
    (hone : ∀ answers, (body.staged answers).length ≤ 1) : body.Stable := by
  have honly : ∀ answers, ∀ r ∈ body.staged answers,
      body.staged answers = [r] ∧ r.step = answers.length := by
    intro answers r hr
    obtain ⟨k, hk⟩ := List.getElem?_of_mem hr
    have hlt := (List.getElem?_eq_some_iff.mp hk).choose
    have hfirst : k = 0 := by
      have := hone answers
      omega
    subst hfirst
    have hlength : (body.staged answers).length = 1 := Nat.le_antisymm (hone answers) hlt
    obtain ⟨r', hsingle⟩ := List.length_eq_one_iff.mp hlength
    rw [hsingle] at hk
    obtain rfl := Option.some.inj hk
    exact ⟨hsingle, body.getElem?_staged (k := 0) (by rw [hsingle]; rfl)⟩
  intro answers answers' _ _ hpre r hr r' hr' hstep
  obtain ⟨hsingle, hlast⟩ := honly answers r hr
  obtain ⟨-, hlast'⟩ := honly answers' r' hr'
  have hsame : answers = answers' := hpre.eq_of_length (by rw [← hlast, ← hlast', hstep])
  rw [← hsame, hsingle] at hr'
  obtain rfl := List.mem_singleton.mp hr'
  exact ⟨rfl, Iff.rfl⟩

/-! ### What a body has asked for -/

def Body.Asked (body : Body Value) (answers : List (Recorded Value)) (r : PendingRequest) : Prop :=
  ∃ before, before <+: answers ∧ body.Answered before ∧ r ∈ body.staged before

variable {body : Body Value} {answers answers' : List (Recorded Value)} {r r' : PendingRequest}

theorem Body.Answered.asked (h : body.Answered answers) (hr : r ∈ body.staged answers) :
    body.Asked answers r :=
  ⟨answers, List.prefix_rfl, h, hr⟩

theorem Body.Asked.mono (h : body.Asked answers r) (hpre : answers <+: answers') :
    body.Asked answers' r := by
  obtain ⟨before, hbefore, hanswered, hr⟩ := h
  exact ⟨before, hbefore.trans hpre, hanswered, hr⟩

theorem Body.Stable.sameCall (hstable : body.Stable) (h : body.Asked answers r)
    (h' : body.Asked answers r') (hstep : r.step = r'.step) : r.SameCall r' := by
  obtain ⟨before, hbefore, hanswered, hr⟩ := h
  obtain ⟨before', hbefore', hanswered', hr'⟩ := h'
  rcases List.prefix_or_prefix_of_prefix hbefore hbefore' with hpre | hpre
  · exact hstable _ _ hanswered hanswered' hpre r hr r' hr' hstep
  · exact (hstable _ _ hanswered' hanswered hpre r' hr' r hr hstep.symm).symm

end Albedo.Aperture
