import Mathlib.Algebra.BigOperators.Field
import Mathlib.Algebra.Order.BigOperators.Group.Finset
import Mathlib.Data.Rat.Cast.Order
import Mathlib.Tactic.FieldSimp
import Mathlib.Tactic.Linarith
import Mathlib.Tactic.Positivity
import Mathlib.Tactic.Ring
import Albedo.Library.VirtualScheduling

/-!
# The rate cell

A cell is one theoretical arrival time. Instants and spans are natural numbers of
nanoseconds on a monotonic timeline with an arbitrary origin. All arithmetic saturates
at the top of a 64-bit word, as the source's does, so every bound below names
the instants at which no operation saturates. The compare-exchange loop of a
charge is one atomic step here: a lost race re-reads and decides again.
-/
namespace Albedo.RateLimit
open VirtualScheduling

def u64Max : ℕ := 2 ^ 64 - 1

def u32Max : ℕ := 2 ^ 32 - 1

def saturatingAdd (a b : ℕ) : ℕ := min (a + b) u64Max

def saturatingMul (a b : ℕ) : ℕ := min (a * b) u64Max

theorem saturatingAdd_of_le {a b : ℕ} (h : a + b ≤ u64Max) : saturatingAdd a b = a + b :=
  min_eq_left h

theorem saturatingMul_of_le {a b : ℕ} (h : a * b ≤ u64Max) : saturatingMul a b = a * b :=
  min_eq_left h

theorem saturatingAdd_le_max (a b : ℕ) : saturatingAdd a b ≤ u64Max := min_le_right _ _

theorem saturatingMul_le (a b : ℕ) : saturatingMul a b ≤ a * b := min_le_left _ _

inductive QuotaError where
  | zeroRate
  | zeroBurst
  | unusablePeriod
  | weightExceedsBurst (weight burst : ℕ)
  | cannotPartition (burst instances : ℕ)
  deriving DecidableEq

def QuotaError.message : QuotaError → String
  | .zeroRate =>
      "a quota of zero per period admits nothing — express a closed door as a deny " ++
      "rule, not as a rate limit"
  | .zeroBurst => "a burst of zero admits nothing"
  | .unusablePeriod => "the period is zero or too long to express in nanoseconds"
  | .cannotPartition burst instances =>
      s!"a budget with a burst of {burst} cannot be split across {instances} instances — " ++
      s!"each would need at least one, and together they would admit {instances}. Raise " ++
      "the budget or lower the instance count"
  | .weightExceedsBurst weight burst =>
      s!"an operation weighing {weight} can never be admitted by a limit whose burst is " ++
      s!"{burst} — it would be refused at every instant, with a Retry-After that only " ++
      s!"grows. Raise the burst to at least {weight}, or lower the operation's cost"

/-- A rate as the cell needs it. The fields are private in the source and only
`withBurst` and `partitioned` build one, so the last three always hold. -/
structure Quota where
  emissionInterval : ℕ
  tolerance : ℕ
  burst : ℕ
  emission_pos : 0 < emissionInterval
  burst_pos : 0 < burst
  tolerance_eq : tolerance = saturatingMul emissionInterval burst
  deriving DecidableEq

/-- `rate` units per `period` nanoseconds, with an explicit burst. -/
def Quota.withBurst (rate period burst : ℕ) : Except QuotaError Quota :=
  if rate = 0 then .error .zeroRate
  else if hb : burst = 0 then .error .zeroBurst
  else if period > u64Max then .error .unusablePeriod
  else if period = 0 then .error .unusablePeriod
  else
    let emissionInterval := period / rate
    if he : emissionInterval = 0 then .error .unusablePeriod
    else .ok
      { emissionInterval
        tolerance := saturatingMul emissionInterval burst
        burst
        emission_pos := Nat.pos_of_ne_zero he
        burst_pos := Nat.pos_of_ne_zero hb
        tolerance_eq := rfl }

/-- `rate` units per `period`, allowing a burst of `rate` units. -/
def Quota.per (rate period : ℕ) : Except QuotaError Quota := Quota.withBurst rate period rate

def Quota.maxWeight (q : Quota) : ℕ := q.burst

theorem saturatingMul_pos {a b : ℕ} (ha : 0 < a) (hb : 0 < b) : 0 < saturatingMul a b :=
  lt_min (Nat.mul_pos ha hb) (by decide)

/-- The share of a quota enforced independently by each of `instances` processes. -/
def Quota.partitioned (q : Quota) (instances : ℕ) : Except QuotaError Quota :=
  if hi : instances ≤ 1 then .ok q
  else
    let burst := q.burst / instances
    if hb : burst = 0 then .error (.cannotPartition q.burst instances)
    else
      let emissionInterval := saturatingMul q.emissionInterval instances
      .ok
        { emissionInterval
          tolerance := saturatingMul emissionInterval burst
          burst
          emission_pos := saturatingMul_pos q.emission_pos (by omega)
          burst_pos := Nat.pos_of_ne_zero hb
          tolerance_eq := rfl }

def Quota.checkWeight (q : Quota) (weight : ℕ) : Except QuotaError Unit :=
  if weight > q.burst then .error (.weightExceedsBurst weight q.burst) else .ok ()

/-- No operation of a charge at `now` saturates. -/
def Quota.UnsaturatedAt (q : Quota) (now : ℕ) : Prop :=
  q.tolerance < u64Max ∧ now + q.tolerance ≤ u64Max

instance (q : Quota) (now : ℕ) : Decidable (q.UnsaturatedAt now) :=
  inferInstanceAs (Decidable (_ ∧ _))

theorem Quota.tolerance_le (q : Quota) : q.tolerance ≤ q.emissionInterval * q.burst :=
  q.tolerance_eq ▸ saturatingMul_le _ _

theorem Quota.partitioned_fields {q q' : Quota} {n : ℕ} (hn : 1 ≤ n)
    (hs : q.emissionInterval * n ≤ u64Max) (h : q.partitioned n = .ok q') :
    q'.burst * n ≤ q.burst ∧ q'.emissionInterval = q.emissionInterval * n := by
  by_cases h₁ : n ≤ 1
  · obtain rfl : n = 1 := le_antisymm h₁ hn
    simp only [Quota.partitioned, le_refl, dite_true, Except.ok.injEq] at h
    subst h
    simp
  · by_cases h₂ : q.burst / n = 0
    · simp only [Quota.partitioned, h₁, h₂, dite_true, dite_false, reduceCtorEq] at h
    · simp only [Quota.partitioned, h₁, h₂, dite_false, Except.ok.injEq] at h
      subst h
      exact ⟨Nat.div_mul_le_self q.burst n, saturatingMul_of_le hs⟩

inductive Decision where
  | admitted (remaining : ℕ) (resetAfter : ℕ)
  | refused (retryAfter resetAfter : ℕ)
  deriving DecidableEq

def Decision.isAdmitted : Decision → Bool
  | .admitted .. => true
  | .refused .. => false

def Decision.remaining : Decision → ℕ
  | .admitted remaining _ => remaining
  | .refused .. => 0

def Decision.resetAfter : Decision → ℕ
  | .admitted _ resetAfter | .refused _ resetAfter => resetAfter

/-- One limit's state: a single theoretical arrival time, in one 64-bit word. -/
structure Cell where
  tat : ℕ
  tat_le : tat ≤ u64Max

def Cell.new : Cell := ⟨0, Nat.zero_le _⟩

/-- Charge `weight` units at `now`. A refusal leaves the cell as it was. -/
def Cell.charge (c : Cell) (q : Quota) (now weight : ℕ) : Decision × Cell :=
  let increment := saturatingMul q.emissionInterval (max weight 1)
  let debt := c.tat - now
  if saturatingAdd debt increment > q.tolerance then
    (.refused (saturatingAdd debt increment - q.tolerance) debt, c)
  else
    let newTat := saturatingAdd (max c.tat now) increment
    let newDebt := newTat - now
    let spare := q.tolerance - newDebt
    (.admitted (min (spare / q.emissionInterval) u32Max) newDebt,
      ⟨newTat, saturatingAdd_le_max _ _⟩)

/-- Advance the cell whether or not a charge would have been admitted. The clamp
is on the increment. Returns the remaining debt. -/
def Cell.debit (c : Cell) (q : Quota) (now weight : ℕ) : ℕ × Cell :=
  if weight = 0 then (c.tat - now, c)
  else
    let increment := min (saturatingMul q.emissionInterval weight) q.tolerance
    let newTat := saturatingAdd (max c.tat now) increment
    (newTat - now, ⟨newTat, saturatingAdd_le_max _ _⟩)

/-- Would `charge` admit this, without charging it? -/
def Cell.peek (c : Cell) (q : Quota) (now weight : ℕ) : Bool :=
  let increment := saturatingMul q.emissionInterval (max weight 1)
  saturatingAdd (c.tat - now) increment ≤ q.tolerance

def Cell.isReplenished (c : Cell) (now : ℕ) : Bool := c.tat ≤ now

theorem Cell.charge_cases (c : Cell) (q : Quota) (now weight : ℕ) :
    ((c.charge q now weight).1.isAdmitted = false ∧ (c.charge q now weight).2 = c) ∨
    ((c.charge q now weight).1.isAdmitted = true ∧
      saturatingAdd (c.tat - now) (saturatingMul q.emissionInterval (max weight 1)) ≤
        q.tolerance ∧
      (c.charge q now weight).2.tat =
        saturatingAdd (max c.tat now) (saturatingMul q.emissionInterval (max weight 1))) := by
  unfold Cell.charge
  dsimp only
  split_ifs with hr
  · exact Or.inl ⟨rfl, rfl⟩
  · exact Or.inr ⟨rfl, not_lt.mp hr, rfl⟩

theorem Cell.charge_isAdmitted_iff {c : Cell} {q : Quota} {now weight : ℕ} :
    (c.charge q now weight).1.isAdmitted = true ↔
      saturatingAdd (c.tat - now) (saturatingMul q.emissionInterval (max weight 1)) ≤
        q.tolerance := by
  unfold Cell.charge
  dsimp only
  split_ifs with hover
  · exact iff_of_false Bool.false_ne_true (not_le.mpr hover)
  · exact iff_of_true rfl (not_lt.mp hover)

theorem Cell.charge_refused {c : Cell} {q : Quota} {now : ℕ} {weight : ℕ}
    (h : (c.charge q now weight).1.isAdmitted = false) : (c.charge q now weight).2 = c := by
  rcases c.charge_cases q now weight with ⟨_, hc⟩ | ⟨ha, _⟩
  · exact hc
  · rw [ha] at h
    exact absurd h (by decide)

/-- The bare tolerance test, where no operation saturates: an admitted charge
moves the arrival time by its full cost and stays within the tolerance. -/
theorem Cell.charge_admitted {c : Cell} {q : Quota} {now : ℕ} {weight : ℕ}
    (hs : q.UnsaturatedAt now) (h : (c.charge q now weight).1.isAdmitted = true) :
    (c.charge q now weight).2.tat = max c.tat now + q.emissionInterval * max weight 1 ∧
      max c.tat now + q.emissionInterval * max weight 1 ≤ now + q.tolerance := by
  rcases c.charge_cases q now weight with ⟨hr, _⟩ | ⟨_, hle, htat⟩
  · rw [hr] at h
    exact absurd h (by decide)
  · generalize hcost : q.emissionInterval * max weight 1 = cost at *
    have hmul : saturatingMul q.emissionInterval (max weight 1) = min cost u64Max := by
      rw [saturatingMul, hcost]
    rw [hmul] at hle htat
    unfold saturatingAdd at hle
    obtain ⟨htol, hnow⟩ := hs
    have hexact : c.tat - now + cost ≤ q.tolerance := by omega
    have hbound : max c.tat now + cost ≤ now + q.tolerance := by omega
    have hmin : min cost u64Max = cost := min_eq_left (by omega)
    refine ⟨?_, hbound⟩
    rw [htat, hmin, saturatingAdd_of_le (by omega)]

theorem Cell.le_charge (c : Cell) (q : Quota) (now weight : ℕ) :
    c.tat ≤ (c.charge q now weight).2.tat := by
  rcases c.charge_cases q now weight with ⟨_, hr⟩ | ⟨_, _, ha⟩
  · rw [hr]
  · rw [ha]
    exact le_min ((le_max_left _ _).trans (Nat.le_add_right _ _)) c.tat_le

theorem Cell.le_debit (c : Cell) (q : Quota) (now weight : ℕ) :
    c.tat ≤ (c.debit q now weight).2.tat := by
  unfold Cell.debit
  split_ifs
  · exact le_rfl
  · exact le_min ((le_max_left _ _).trans (Nat.le_add_right _ _)) c.tat_le

/-- A cell with no more debt admits whatever an indebted one admits, and stays
below it. Holds with or without saturation. -/
theorem Cell.charge_mono {own c : Cell} {q : Quota} {now weight : ℕ}
    (hle : own.tat ≤ max c.tat now) (h : (c.charge q now weight).1.isAdmitted = true) :
    (own.charge q now weight).1.isAdmitted = true ∧
      (own.charge q now weight).2.tat ≤ (c.charge q now weight).2.tat := by
  generalize hinc : saturatingMul q.emissionInterval (max weight 1) = increment
  have hdebt : own.tat - now ≤ c.tat - now := by omega
  have hadd : saturatingAdd (own.tat - now) increment ≤ saturatingAdd (c.tat - now) increment :=
    min_le_min_right _ (Nat.add_le_add_right hdebt _)
  rcases c.charge_cases q now weight with ⟨hr, _⟩ | ⟨_, htol, htat⟩
  · rw [hr] at h
    exact absurd h (by decide)
  · rw [hinc] at htol htat
    rcases own.charge_cases q now weight with ⟨hown, _⟩ | ⟨hown, _, htat'⟩
    · unfold Cell.charge at hown
      simp only [hinc, gt_iff_lt, not_lt.mpr (hadd.trans htol), if_false,
        Decision.isAdmitted, reduceCtorEq] at hown
    · refine ⟨hown, ?_⟩
      rw [htat, htat', hinc]
      exact min_le_min_right _ (Nat.add_le_add_right (by omega) _)

/-! ### Runs of one cell -/

structure Charge where
  now : ℕ
  weight : ℕ

def Quota.arrival (q : Quota) (x : Charge) : Arrival ℤ :=
  ⟨x.now, q.emissionInterval * max x.weight 1⟩

/-- Total weight a cell admits in the closed window `[s, t]` over a list of charges. -/
def Cell.admittedIn (q : Quota) (s t : ℕ) : Cell → List Charge → ℕ
  | _, [] => 0
  | c, x :: xs =>
      let r := c.charge q x.now x.weight
      (if r.1.isAdmitted ∧ s ≤ x.now ∧ x.now ≤ t then x.weight else 0) +
        Cell.admittedIn q s t r.2 xs

/-- Total weight of the charges that fall in the closed window `[s, t]`. -/
def weightIn (s t : ℕ) (xs : List Charge) : ℕ :=
  ((xs.filter fun x => s ≤ x.now ∧ x.now ≤ t).map Charge.weight).sum

def Cell.AdmitsAll (q : Quota) : Cell → List Charge → Prop
  | _, [] => True
  | c, x :: xs =>
      (c.charge q x.now x.weight).1.isAdmitted = true ∧
        Cell.AdmitsAll q (c.charge q x.now x.weight).2 xs

theorem Cell.admittedIn_of_admitsAll (q : Quota) (s t : ℕ) (c : Cell) (xs : List Charge)
    (h : c.AdmitsAll q xs) : c.admittedIn q s t xs = weightIn s t xs := by
  induction xs generalizing c with
  | nil => rfl
  | cons x xs ih =>
      have hrest := ih _ h.2
      by_cases hin : s ≤ x.now ∧ x.now ≤ t
      · simp [Cell.admittedIn, h.1, hin, hrest, weightIn]
      · simp [Cell.admittedIn, hin, hrest, weightIn]

def Cell.arrivals (q : Quota) : Cell → List Charge → List (Arrival ℤ)
  | _, [] => []
  | c, x :: xs =>
      let r := c.charge q x.now x.weight
      if r.1.isAdmitted then q.arrival x :: Cell.arrivals q r.2 xs
      else Cell.arrivals q r.2 xs

theorem Quota.arrival_cost_nonneg (q : Quota) (x : Charge) : 0 ≤ (q.arrival x).cost := by
  unfold Quota.arrival
  positivity

theorem Cell.arrivals_cost_nonneg (q : Quota) (c : Cell) (xs : List Charge) :
    ∀ a ∈ c.arrivals q xs, 0 ≤ a.cost := by
  induction xs generalizing c with
  | nil => simp [Cell.arrivals]
  | cons x xs ih =>
      simp only [Cell.arrivals]
      split_ifs
      · intro a ha
        rcases List.mem_cons.mp ha with rfl | ha
        · exact q.arrival_cost_nonneg x
        · exact ih _ a ha
      · exact ih _

theorem Cell.arrivals_conforming (q : Quota) (c : Cell) (xs : List Charge)
    (hs : ∀ x ∈ xs, q.UnsaturatedAt x.now) :
    Conforming (q.tolerance : ℤ) (c.tat : ℤ) (c.arrivals q xs) := by
  induction xs generalizing c with
  | nil => trivial
  | cons x xs ih =>
      have hrest := ih (c.charge q x.now x.weight).2 (fun y hy => hs y (by simp [hy]))
      simp only [Cell.arrivals]
      split_ifs with ha
      · obtain ⟨htat, hle⟩ := Cell.charge_admitted (hs x (by simp)) ha
        have hadv : (q.arrival x).advance (c.tat : ℤ) = ((c.charge q x.now x.weight).2.tat : ℤ) := by
          rw [htat]
          simp [Quota.arrival, Arrival.advance]
        refine ⟨?_, ?_⟩
        · rw [hadv, htat]
          change _ ≤ (x.now : ℤ) + q.tolerance
          exact_mod_cast hle
        · rw [hadv]
          exact hrest
      · rw [Cell.charge_refused (by simpa using ha)] at hrest ⊢
        exact hrest

theorem Cell.admittedIn_le_spent (q : Quota) (s t : ℕ) (c : Cell) (xs : List Charge) :
    (q.emissionInterval : ℤ) * c.admittedIn q s t xs ≤ spent (s : ℤ) t (c.arrivals q xs) := by
  induction xs generalizing c with
  | nil => simp [Cell.admittedIn, Cell.arrivals]
  | cons x xs ih =>
      have hrest := ih (c.charge q x.now x.weight).2
      have hw : (q.emissionInterval : ℤ) * x.weight ≤ (q.arrival x).cost := by
        unfold Quota.arrival
        have hmax : (x.weight : ℤ) ≤ ((max x.weight 1 : ℕ) : ℤ) := by
          exact_mod_cast le_max_left x.weight 1
        exact mul_le_mul_of_nonneg_left hmax (by positivity)
      simp only [Cell.admittedIn, Cell.arrivals]
      by_cases ha : (c.charge q x.now x.weight).1.isAdmitted = true
      · rw [if_pos ha, spent_cons]
        by_cases hin : s ≤ x.now ∧ x.now ≤ t
        · have hin' : (s : ℤ) ≤ (q.arrival x).time ∧ (q.arrival x).time ≤ t := by
            simpa [Quota.arrival] using hin
          rw [if_pos ⟨ha, hin⟩, if_pos hin']
          push_cast
          linarith
        · have hin' : ¬ ((s : ℤ) ≤ (q.arrival x).time ∧ (q.arrival x).time ≤ t) := by
            simpa [Quota.arrival] using hin
          rw [if_neg (fun h => hin h.2), if_neg hin']
          simpa using hrest
      · rw [if_neg ha, if_neg (fun h => ha h.1)]
        simpa using hrest

/-- One cell in one window: at most the burst, and one unit for each emission
interval the window lasts. -/
theorem Cell.admittedIn_le (q : Quota) (c : Cell) (xs : List Charge) (s d : ℕ)
    (hs : ∀ x ∈ xs, q.UnsaturatedAt x.now) :
    (c.admittedIn q s (s + d) xs : ℚ) ≤ q.burst + (d : ℚ) / q.emissionInterval := by
  have hwin := conforming_window (q.tolerance : ℤ) (s : ℤ) ((s + d : ℕ) : ℤ) c.tat _
    (by positivity) (by push_cast; omega) (c.arrivals_cost_nonneg q xs)
    (c.arrivals_conforming q xs hs)
  have hsp := c.admittedIn_le_spent q s (s + d) xs
  have htol : (q.tolerance : ℤ) ≤ q.emissionInterval * q.burst := by exact_mod_cast q.tolerance_le
  have hlen : ((s + d : ℕ) : ℤ) - s = d := by push_cast; ring
  have hint : (q.emissionInterval : ℤ) * c.admittedIn q s (s + d) xs ≤
      q.emissionInterval * q.burst + d := by
    rw [hlen] at hwin
    linarith
  have hrat : (q.emissionInterval : ℚ) * c.admittedIn q s (s + d) xs ≤
      q.emissionInterval * q.burst + d := by exact_mod_cast hint
  have hpos : (0 : ℚ) < q.emissionInterval := by exact_mod_cast q.emission_pos
  have hdiv : (c.admittedIn q s (s + d) xs : ℚ) ≤
      (q.emissionInterval * q.burst + d) / q.emissionInterval := by
    rw [le_div_iff₀ hpos]
    linarith
  calc (c.admittedIn q s (s + d) xs : ℚ)
      ≤ (q.emissionInterval * q.burst + d) / q.emissionInterval := hdiv
    _ = q.burst + (d : ℚ) / q.emissionInterval := by field_simp

/-- Split budgets: whatever charges reach the `n` independent cells, together
they admit no more in a window than the whole budget would. The floored burst
and the stretched interval cancel: `n` shares give back at most the burst, and
`n` windows of the stretched interval one window of the original. Each instance
reads a clock of its own, so each has its own window start. -/
theorem partitioned_within_whole {q q' : Quota} {n : ℕ} (hn : 1 ≤ n)
    (hq : q.partitioned n = .ok q') (hsat : q.emissionInterval * n ≤ u64Max)
    (cells : Fin n → Cell) (charges : Fin n → List Charge) (s : Fin n → ℕ) (d : ℕ)
    (hnow : ∀ i, ∀ x ∈ charges i, q'.UnsaturatedAt x.now) :
    ((∑ i, (cells i).admittedIn q' (s i) (s i + d) (charges i) : ℕ) : ℚ) ≤
      q.burst + (d : ℚ) / q.emissionInterval := by
  obtain ⟨hburst, hemit⟩ := Quota.partitioned_fields hn hsat hq
  have hnpos : (0 : ℚ) < n := by exact_mod_cast hn
  have hepos : (0 : ℚ) < q.emissionInterval := by exact_mod_cast q.emission_pos
  have hb : (q'.burst : ℚ) * n ≤ q.burst := by exact_mod_cast hburst
  have he : (q'.emissionInterval : ℚ) = q.emissionInterval * n := by exact_mod_cast hemit
  have hone : ∀ i ∈ Finset.univ, ((cells i).admittedIn q' (s i) (s i + d) (charges i) : ℚ) ≤
      q'.burst + (d : ℚ) / q'.emissionInterval :=
    fun i _ => (cells i).admittedIn_le q' (charges i) (s i) d (hnow i)
  have hsum := Finset.sum_le_sum hone
  rw [Finset.sum_const, Finset.card_univ, Fintype.card_fin, nsmul_eq_mul] at hsum
  push_cast
  calc (∑ i, ((cells i).admittedIn q' (s i) (s i + d) (charges i) : ℚ))
      ≤ n * (q'.burst + (d : ℚ) / q'.emissionInterval) := hsum
    _ = q'.burst * n + (d : ℚ) / q.emissionInterval := by
        rw [he]
        field_simp
    _ ≤ q.burst + (d : ℚ) / q.emissionInterval := by linarith

def fourPerSecond : Quota where
  emissionInterval := 250000000
  tolerance := 1000000000
  burst := 4
  emission_pos := by decide
  burst_pos := by decide
  tolerance_eq := by decide

/-- The share each of two instances gets of `fourPerSecond`. -/
def twoPerSecond : Quota where
  emissionInterval := 500000000
  tolerance := 1000000000
  burst := 2
  emission_pos := by decide
  burst_pos := by decide
  tolerance_eq := by decide

theorem partitioned_within_whole_two :
    fourPerSecond.partitioned 2 = .ok twoPerSecond ∧
      ((∑ _i : Fin 2, Cell.new.admittedIn twoPerSecond 0 (0 + 1000)
        [⟨5, 1⟩, ⟨7, 1⟩, ⟨9, 1⟩] : ℕ) : ℚ) ≤
          fourPerSecond.burst + ((1000 : ℕ) : ℚ) / fourPerSecond.emissionInterval :=
  ⟨by decide, partitioned_within_whole (by decide) (by decide : _ = Except.ok twoPerSecond)
    (by decide) (fun _ => Cell.new) (fun _ => [⟨5, 1⟩, ⟨7, 1⟩, ⟨9, 1⟩]) (fun _ => 0) 1000
    (fun _ => by decide)⟩

end Albedo.RateLimit
