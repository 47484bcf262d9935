import Albedo.Auth.Store
import Albedo.Library.SqlNumber
import Albedo.Shutter.TokenBucket

/-!
# How much mail an address gets

One row per address that was mailed a link, with the instant its budget is whole again. A charge
is one statement, and a sweep deletes the rows whose instant has passed. The numbers are the
engine's, which go over to floats where an integer does not fit.
-/
namespace Albedo.Auth
open RateLimit (Cell Charge Decision Quota)
open SqlNumber (Number Fits add_integer sub_integer max_integer)

/-- The table `albedo_mail_budget`: the theoretical arrival time of an address. -/
def Budgets := String → Option Number

def Budgets.empty : Budgets := fun _ => none

def Budgets.set (budgets : Budgets) (address : String) (tat : Number) : Budgets :=
  Function.update budgets address (some tat)

def mailInterval : Number := .integer AuthStore.mailIntervalMs

def mailTolerance : Number := .integer (AuthStore.mailBurst * AuthStore.mailIntervalMs)

/-- Charge one emailed link to an address: `INSERT … ON CONFLICT DO UPDATE … WHERE`, and whether
it changed a row. -/
def Budgets.admitMail (budgets : Budgets) (address : String) (now : ℕ) : Bool × Budgets :=
  match budgets address with
  | none => (true, budgets.set address ((Number.integer now).add mailInterval).stored)
  | some tat =>
      let charged := (tat.max (.integer now)).add mailInterval
      if (charged.sub (.integer now)).value ≤ mailTolerance.value then
        (true, budgets.set address charged.stored)
      else (false, budgets)

def Budgets.purgeExpired (budgets : Budgets) (now : ℕ) : Budgets := fun address =>
  (budgets address).filter fun tat => !decide (tat.value ≤ now)

/-- A statement of any process, at an instant that process reads. -/
inductive MailCall where
  | admitMail (address : String) (now : ℕ)
  | purge (now : ℕ)

def MailCall.now : MailCall → ℕ
  | .admitMail _ now | .purge now => now

def Budgets.answers (address : String) : Budgets → List MailCall → List (ℕ × Bool)
  | _, [] => []
  | budgets, .admitMail charged now :: calls =>
      let answer := budgets.admitMail charged now
      if charged = address then (now, answer.1) :: Budgets.answers address answer.2 calls
      else Budgets.answers address answer.2 calls
  | budgets, .purge now :: calls => Budgets.answers address (budgets.purgeExpired now) calls

def chargesTo (address : String) : List MailCall → List Charge
  | [] => []
  | .admitMail charged now :: calls =>
      if charged = address then ⟨now, 1⟩ :: chargesTo address calls else chargesTo address calls
  | .purge _ :: calls => chargesTo address calls

def cellAnswers (q : Quota) (c : Cell) : List Charge → List (ℕ × Bool)
  | [] => []
  | x :: xs =>
      let charged := c.charge q x.now x.weight
      (x.now, charged.1.isAdmitted) :: cellAnswers q charged.2 xs

def admittedWithin (s t : ℕ) (answers : List (ℕ × Bool)) : ℕ :=
  (answers.filter fun answer => answer.2 ∧ s ≤ answer.1 ∧ answer.1 ≤ t).length

def mailQuota : Quota where
  emissionInterval := 360000
  tolerance := 1080000
  burst := 3
  emission_pos := by decide
  burst_pos := by decide
  tolerance_eq := by decide

/-- No sum that a charge at this instant forms leaves 64 bits. -/
def InRange (now : ℕ) : Prop := now + (AuthStore.mailBurst + 1) * AuthStore.mailIntervalMs ≤ i64Max

instance (now : ℕ) : Decidable (InRange now) := inferInstanceAs (Decidable (_ ≤ _))

/-! ### One address -/

def Alike (tat : Option Number) (c : Cell) (instant : ℕ) : Prop :=
  match tat with
  | none => c.tat ≤ instant
  | some tat => tat = .integer c.tat ∧ c.tat ≤ instant + mailQuota.tolerance

variable {tat : Option Number} {c : Cell} {budgets : Budgets} {address : String}
variable {instant now : ℕ} {calls : List MailCall}

theorem Alike.later (h : Alike tat c instant) (hnow : instant ≤ now) : Alike tat c now := by
  cases tat with
  | none => exact le_trans h hnow
  | some tat => exact ⟨h.1, h.2.trans (Nat.add_le_add_right hnow _)⟩

theorem charge_mailQuota (hc : c.tat ≤ now + mailQuota.tolerance) (hrange : InRange now) :
    (max c.tat now + 360000 ≤ now + 1080000 ∧ (c.charge mailQuota now 1).1.isAdmitted = true ∧
      (c.charge mailQuota now 1).2.tat = max c.tat now + 360000) ∨
    (now + 1080000 < max c.tat now + 360000 ∧ (c.charge mailQuota now 1).1.isAdmitted = false ∧
      (c.charge mailQuota now 1).2 = c) := by
  unfold InRange AuthStore.mailBurst AuthStore.mailIntervalMs i64Max at hrange
  have hmul : RateLimit.saturatingMul mailQuota.emissionInterval (max 1 1) = 360000 := by decide
  have htolerance : mailQuota.tolerance = 1080000 := rfl
  have hmax : RateLimit.u64Max = 2 ^ 64 - 1 := rfl
  rw [htolerance] at hc
  have hadmits : (c.charge mailQuota now 1).1.isAdmitted = true ↔ _ := Cell.charge_isAdmitted_iff
  rw [hmul, htolerance] at hadmits
  unfold RateLimit.saturatingAdd at hadmits
  rcases c.charge_cases mailQuota now 1 with ⟨hrefused, hleft⟩ | ⟨hadmitted, -, htat⟩
  · refine Or.inr ⟨?_, hrefused, hleft⟩
    rw [hrefused] at hadmits
    have hover := hadmits.not.mp Bool.false_ne_true
    omega
  · rw [hmul] at htat
    unfold RateLimit.saturatingAdd at htat
    have hle := hadmits.mp hadmitted
    refine Or.inl ⟨by omega, hadmitted, ?_⟩
    rw [htat]
    omega

theorem add_mailInterval {t : ℕ} (ht : t ≤ now + mailQuota.tolerance) (hrange : InRange now) :
    (Number.integer t).add mailInterval = .integer (t + 360000 : ℕ) := by
  have htolerance : mailQuota.tolerance = 1080000 := rfl
  unfold InRange AuthStore.mailBurst AuthStore.mailIntervalMs i64Max at hrange
  have hinterval : mailInterval = .integer 360000 := by decide
  have hsum : Fits ((t : ℤ) + 360000) := by
    unfold Fits
    omega
  rw [hinterval, add_integer hsum]
  push_cast
  rfl

theorem charged_eq {t : ℕ} (ht : t ≤ now + mailQuota.tolerance) (hrange : InRange now) :
    ((Number.integer t).max (.integer now)).add mailInterval =
      .integer (max t now + 360000 : ℕ) := by
  rw [max_integer, ← Nat.cast_max]
  exact add_mailInterval (max_le ht (Nat.le_add_right now _)) hrange

theorem ahead_le_iff {t : ℕ} (ht : t ≤ now + mailQuota.tolerance) :
    ((Number.integer (max t now + 360000 : ℕ)).sub (.integer now)).value ≤ mailTolerance.value ↔
      max t now + 360000 ≤ now + 1080000 := by
  have htolerance : mailQuota.tolerance = 1080000 := rfl
  have htol : mailTolerance.value = 1080000 := by decide
  have hrest : Fits (((max t now + 360000 : ℕ) : ℤ) - now) := by
    unfold Fits
    omega
  rw [sub_integer hrest, htol]
  change ((max t now + 360000 : ℕ) : ℤ) - now ≤ 1080000 ↔ _
  omega

theorem Budgets.set_self (budgets : Budgets) (address : String) (tat : Number) :
    budgets.set address tat address = some tat := Function.update_self ..

theorem Alike.admitMail (h : Alike (budgets address) c instant) (hnow : instant ≤ now)
    (hrange : InRange now) :
    (budgets.admitMail address now).1 = (c.charge mailQuota now 1).1.isAdmitted ∧
      Alike ((budgets.admitMail address now).2 address) (c.charge mailQuota now 1).2 now := by
  have hlater := h.later hnow
  have htolerance : mailQuota.tolerance = 1080000 := rfl
  unfold Budgets.admitMail
  cases hrow : budgets address with
  | none =>
      -- a cell that owes nothing charges from now on, as a new row does
      rw [hrow] at hlater
      have hc : c.tat ≤ now := hlater
      obtain ⟨-, hadmitted, htat⟩ | ⟨hover, -⟩ :=
        charge_mailQuota (hc.trans (Nat.le_add_right _ _)) hrange
      · have hnew := add_mailInterval (Nat.le_add_right now mailQuota.tolerance) hrange
        refine ⟨hadmitted.symm, ?_⟩
        dsimp only
        rw [hnew, Budgets.set_self]
        refine ⟨?_, ?_⟩
        · rw [htat, max_eq_right hc]
          rfl
        · rw [htat]
          omega
      · omega
  | some tat =>
      rw [hrow] at hlater
      obtain ⟨rfl, hc⟩ := hlater
      have htest := ahead_le_iff hc
      dsimp only
      rw [charged_eq hc hrange]
      obtain ⟨hwithin, hadmitted, htat⟩ | ⟨hover, hrefused, hleft⟩ := charge_mailQuota hc hrange
      · rw [if_pos (htest.mpr hwithin)]
        refine ⟨hadmitted.symm, ?_⟩
        dsimp only
        rw [Budgets.set_self]
        refine ⟨?_, ?_⟩
        · rw [htat]
          rfl
        · rw [htat]
          exact hwithin
      · rw [if_neg (fun hle => absurd (htest.mp hle) (not_le.mpr hover))]
        refine ⟨hrefused.symm, ?_⟩
        dsimp only
        rw [hrow, hleft]
        exact ⟨rfl, hc⟩

theorem Budgets.admitMail_other {charged : String} (h : charged ≠ address) :
    (budgets.admitMail charged now).2 address = budgets address := by
  have hset : ∀ tat, budgets.set charged tat address = budgets address := fun tat =>
    Function.update_of_ne h.symm ..
  unfold Budgets.admitMail
  cases budgets charged with
  | none => exact hset _
  | some tat =>
      dsimp only
      split_ifs
      · exact hset _
      · rfl

theorem Alike.purgeExpired (h : Alike (budgets address) c instant) (hnow : instant ≤ now) :
    Alike (budgets.purgeExpired now address) c now := by
  have hlater := h.later hnow
  unfold Budgets.purgeExpired
  cases hrow : budgets address with
  | none =>
      rw [hrow] at hlater
      exact hlater
  | some tat =>
      rw [hrow] at hlater
      obtain ⟨rfl, hc⟩ := hlater
      by_cases hwhole : c.tat ≤ now
      · rw [Option.filter_some, if_neg (by simpa [Number.value] using hwhole)]
        exact hwhole
      · rw [Option.filter_some, if_pos (by simpa [Number.value] using hwhole)]
        exact ⟨rfl, hc⟩

/-! ### Runs -/

theorem Alike.answers (h : Alike (budgets address) c instant)
    (hnow : ∀ call ∈ calls, instant ≤ call.now)
    (horder : calls.Pairwise fun a b => a.now ≤ b.now)
    (hrange : ∀ call ∈ calls, InRange call.now) :
    budgets.answers address calls = cellAnswers mailQuota c (chargesTo address calls) := by
  induction calls generalizing budgets c instant with
  | nil => rfl
  | cons call calls ih =>
      obtain ⟨hcall, hrest⟩ := List.forall_mem_cons.mp hrange
      have hfirst := hnow call List.mem_cons_self
      have hlater : ∀ call' ∈ calls, call.now ≤ call'.now :=
        fun call' => List.rel_of_pairwise_cons horder
      cases call with
      | admitMail charged now =>
          by_cases hcharged : charged = address
          · subst hcharged
            have hcharge : InRange now := hcall
            have hreached : instant ≤ now := hfirst
            obtain ⟨hsame, hnext⟩ := h.admitMail hreached hcharge
            have htail := ih hnext hlater horder.of_cons hrest
            unfold Budgets.answers chargesTo
            rw [if_pos rfl, if_pos rfl, cellAnswers]
            dsimp only
            rw [hsame, htail]
          · unfold Budgets.answers chargesTo
            rw [if_neg hcharged, if_neg hcharged]
            refine ih ?_ hlater horder.of_cons hrest
            rw [Budgets.admitMail_other hcharged]
            exact h.later hfirst
      | purge now => exact ih (h.purgeExpired hfirst) hlater horder.of_cons hrest

theorem admittedWithin_cellAnswers (q : Quota) (s t : ℕ) (c : Cell) {xs : List Charge}
    (hweight : ∀ x ∈ xs, x.weight = 1) :
    admittedWithin s t (cellAnswers q c xs) = c.admittedIn q s t xs := by
  induction xs generalizing c with
  | nil => rfl
  | cons x xs ih =>
      obtain ⟨hx, hrest⟩ := List.forall_mem_cons.mp hweight
      have hcount := ih (c.charge q x.now x.weight).2 hrest
      unfold admittedWithin at hcount ⊢
      rw [cellAnswers, Cell.admittedIn, List.filter_cons]
      dsimp only
      rw [← hcount, hx]
      by_cases hin : (c.charge q x.now 1).1.isAdmitted = true ∧ s ≤ x.now ∧ x.now ≤ t
      · rw [if_pos (by simpa using hin), if_pos hin, List.length_cons, Nat.add_comm]
      · rw [if_neg (by simpa using hin), if_neg hin, Nat.zero_add]

theorem weight_chargesTo (address : String) (calls : List MailCall) :
    ∀ x ∈ chargesTo address calls, x.weight = 1 := by
  induction calls with
  | nil => exact fun x hx => nomatch hx
  | cons call calls ih =>
      cases call with
      | purge now => exact ih
      | admitMail charged now =>
          unfold chargesTo
          split_ifs
          · exact List.forall_mem_cons.mpr ⟨rfl, ih⟩
          · exact ih

theorem now_chargesTo {address : String} (h : ∀ call ∈ calls, InRange call.now) :
    ∀ x ∈ chargesTo address calls, InRange x.now := by
  induction calls with
  | nil => exact fun x hx => nomatch hx
  | cons call calls ih =>
      obtain ⟨hcall, hrest⟩ := List.forall_mem_cons.mp h
      cases call with
      | purge now => exact ih hrest
      | admitMail charged now =>
          unfold chargesTo
          split_ifs
          · exact List.forall_mem_cons.mpr ⟨hcall, ih hrest⟩
          · exact ih hrest

theorem InRange.unsaturated (h : InRange now) : mailQuota.UnsaturatedAt now := by
  have htolerance : mailQuota.tolerance = 1080000 := rfl
  unfold InRange AuthStore.mailBurst AuthStore.mailIntervalMs i64Max at h
  unfold Quota.UnsaturatedAt RateLimit.u64Max
  omega

/-- What an address is answered is what a cell of its own would answer, whatever is swept in
between and whoever else is charged, so its links are few in any window. -/
theorem mail_budget_is_a_cell (address : String)
    (horder : calls.Pairwise fun a b => a.now ≤ b.now)
    (hrange : ∀ call ∈ calls, InRange call.now) :
    Budgets.empty.answers address calls =
        cellAnswers mailQuota Cell.new (chargesTo address calls) ∧
      (∀ calls' : List MailCall, calls'.Pairwise (fun a b => a.now ≤ b.now) →
        chargesTo address calls' = chargesTo address calls →
        (∀ call ∈ calls', InRange call.now) →
        Budgets.empty.answers address calls' = Budgets.empty.answers address calls) ∧
      ∀ s d : ℕ, (admittedWithin s (s + d) (Budgets.empty.answers address calls) : ℤ) ≤
        AuthStore.mailBurst + d / AuthStore.mailIntervalMs := by
  have hfresh : Alike (Budgets.empty address) Cell.new 0 := le_refl 0
  have hcell : ∀ calls' : List MailCall, calls'.Pairwise (fun a b => a.now ≤ b.now) →
      (∀ call ∈ calls', InRange call.now) → Budgets.empty.answers address calls' =
        cellAnswers mailQuota Cell.new (chargesTo address calls') :=
    fun _ horder' hrange' =>
      hfresh.answers (fun call _ => Nat.zero_le call.now) horder' hrange'
  refine ⟨hcell calls horder hrange, fun calls' horder' hcharges hrange' => ?_, fun s d => ?_⟩
  · rw [hcell calls horder hrange, hcell calls' horder' hrange', hcharges]
  · rw [hcell calls horder hrange,
      admittedWithin_cellAnswers mailQuota s (s + d) Cell.new (weight_chargesTo address calls)]
    have hwindow := Cell.new.admittedIn_le mailQuota (chargesTo address calls) s d
      fun x hx => (now_chargesTo hrange x hx).unsaturated
    generalize Cell.new.admittedIn mailQuota s (s + d) (chargesTo address calls) = admitted
      at hwindow
    have hinterval : (mailQuota.emissionInterval : ℚ) = 360000 := by norm_num [mailQuota]
    have hburst : (mailQuota.burst : ℚ) = 3 := by norm_num [mailQuota]
    rw [hinterval, hburst] at hwindow
    have hwhole : (admitted : ℤ) * 360000 ≤ 3 * 360000 + d := by
      have hrat : (admitted : ℚ) * 360000 ≤ 3 * 360000 + d := by linarith
      exact_mod_cast hrat
    unfold AuthStore.mailBurst AuthStore.mailIntervalMs
    omega

theorem mail_budget_is_a_cell_two :
    Budgets.empty.answers "ada" [.admitMail "ada" 5, .purge 400000, .admitMail "ada" 400000] =
        cellAnswers mailQuota Cell.new
          (chargesTo "ada" [.admitMail "ada" 5, .purge 400000, .admitMail "ada" 400000]) ∧
      (∀ calls' : List MailCall, calls'.Pairwise (fun a b => a.now ≤ b.now) →
        chargesTo "ada" calls' =
          chargesTo "ada" [.admitMail "ada" 5, .purge 400000, .admitMail "ada" 400000] →
        (∀ call ∈ calls', InRange call.now) → Budgets.empty.answers "ada" calls' =
          Budgets.empty.answers "ada" [.admitMail "ada" 5, .purge 400000, .admitMail "ada" 400000]) ∧
      ∀ s d : ℕ, (admittedWithin s (s + d) (Budgets.empty.answers "ada"
          [.admitMail "ada" 5, .purge 400000, .admitMail "ada" 400000]) : ℤ) ≤
        AuthStore.mailBurst + d / AuthStore.mailIntervalMs :=
  mail_budget_is_a_cell "ada" (by decide) (by decide)

/-- At the last instant that 64 bits can hold, the sums are floats, and the third link of a burst
is refused. -/
theorem third_link_is_refused : Budgets.empty.answers "ada"
      [.admitMail "ada" (2 ^ 63 - 1), .admitMail "ada" (2 ^ 63 - 1), .admitMail "ada" (2 ^ 63 - 1)] ≠
    cellAnswers mailQuota Cell.new (chargesTo "ada"
      [.admitMail "ada" (2 ^ 63 - 1), .admitMail "ada" (2 ^ 63 - 1), .admitMail "ada" (2 ^ 63 - 1)]) := by
  decide +kernel

/-! ### The auth tables -/

def Budgets.Of (budgets : Budgets) (s : AuthStore) : Prop :=
  ∀ address tat, budgets address = some tat ↔
    ∃ b ∈ s.mailBudgets, b.address = address ∧ tat = .integer b.tat

variable {s : AuthStore}

end Albedo.Auth
