import Mathlib.Algebra.Group.Int.Defs
import Mathlib.Order.Bounds.Defs
import Mathlib.Tactic.Common
import Mathlib.Tactic.Linarith

/-!
# When a scheduled job is next due

A schedule is a set of instants, in milliseconds since the epoch, and `nextAfter` is the
first of them strictly after a given one. Every instant is on a whole second.
-/
namespace Albedo.Jobs

/-- A period as `every` accepts it: whole seconds, and at least one. -/
structure Period where
  seconds : ℕ
  pos : 0 < seconds

def Period.ms (period : Period) : ℤ := period.seconds * 1000

/-- A cron expression: the instants it names, which are whole seconds, and the first of them
after an instant. -/
structure Cron where
  fires : ℤ → Prop
  after : ℤ → Option ℤ
  seconds : ∀ t, fires t → t % 1000 = 0
  after_some : ∀ t u, after t = some u → IsLeast {v | fires v ∧ t < v} u

inductive Schedule where
  | cron (cron : Cron)
  | every (period : Period)

/-- A result that fits a signed 64-bit integer. -/
def checked (n : ℤ) : Option ℤ := if -2 ^ 63 ≤ n ∧ n ≤ 2 ^ 63 - 1 then some n else none

/-- The first instant this schedule fires strictly after `after`. -/
def Schedule.nextAfter : Schedule → ℤ → Option ℤ
  | .cron c, after => c.after after
  | .every period, after =>
      match checked period.ms with
      | none => none
      | some periodMs =>
          if periodMs ≤ 0 then none
          else
            let elapsed := after / periodMs
            (checked (elapsed + 1)).bind fun n => checked (n * periodMs)

def Schedule.Instant : Schedule → ℤ → Prop
  | .cron c, t => c.fires t
  | .every period, t => period.ms ∣ t

theorem checked_eq_some {n u : ℤ} : checked n = some u ↔ n = u ∧ -2 ^ 63 ≤ u ∧ u ≤ 2 ^ 63 - 1 := by
  unfold checked
  split_ifs with h
  · simp only [Option.some.injEq]
    exact ⟨fun hn => ⟨hn, hn ▸ h⟩, And.left⟩
  · simp only [false_iff]
    rintro ⟨rfl, hu⟩
    exact h hu

theorem Period.ms_pos (period : Period) : 0 < period.ms := by
  have hpos := period.pos
  unfold Period.ms
  omega

theorem isLeast_multiple {p : ℤ} (hp : 0 < p) (t : ℤ) :
    IsLeast {u | p ∣ u ∧ t < u} ((t / p + 1) * p) := by
  constructor
  · exact ⟨Dvd.intro_left _ rfl, Int.lt_ediv_add_one_mul_self t hp⟩
  · rintro u ⟨⟨k, rfl⟩, hlt⟩
    have hk : t / p < k := Int.ediv_lt_of_lt_mul hp (by rwa [mul_comm k p])
    rw [mul_comm p k]
    exact mul_le_mul_of_nonneg_right hk hp.le

/-- The next instant of a period is the multiple after the last one that went by, where the
numbers fit. -/
theorem Schedule.nextAfter_eq_some {period : Period} {t u : ℤ} :
    (Schedule.every period).nextAfter t = some u ↔ period.ms ≤ 2 ^ 63 - 1 ∧
      (-2 ^ 63 ≤ t / period.ms + 1 ∧ t / period.ms + 1 ≤ 2 ^ 63 - 1) ∧
      (t / period.ms + 1) * period.ms = u ∧ -2 ^ 63 ≤ u ∧ u ≤ 2 ^ 63 - 1 := by
  have hpos := period.ms_pos
  by_cases hfits : period.ms ≤ 2 ^ 63 - 1
  · have hperiod : checked period.ms = some period.ms := checked_eq_some.mpr ⟨rfl, by omega, hfits⟩
    simp only [Schedule.nextAfter, hperiod, not_le.mpr hpos, if_false, Option.bind_eq_some_iff,
      checked_eq_some, hfits, true_and]
    constructor
    · rintro ⟨n, ⟨rfl, hn⟩, hu⟩
      exact ⟨hn, hu⟩
    · rintro ⟨hn, hu⟩
      exact ⟨_, ⟨rfl, hn⟩, hu⟩
  · have hperiod : checked period.ms = none := if_neg fun h => hfits h.2
    simp only [Schedule.nextAfter, hperiod, reduceCtorEq, false_iff]
    exact fun h => hfits h.1

/-- `every` fires at the multiples of its period, and next at the least one that is still
to come, unless that is more than 64 bits hold. -/
theorem Schedule.nextAfter_every (period : Period) (hperiod : period.ms ≤ 2 ^ 63 - 1) {t : ℤ}
    (ht : -2 ^ 63 ≤ t) (u : ℤ) : (Schedule.every period).nextAfter t = some u ↔
      IsLeast {v | period.ms ∣ v ∧ t < v} u ∧ u ≤ 2 ^ 63 - 1 := by
  have hpos := period.ms_pos
  have hleast := isLeast_multiple hpos t
  have hlow : t < (t / period.ms + 1) * period.ms := hleast.1.2
  rw [Schedule.nextAfter_eq_some]
  constructor
  · rintro ⟨-, -, rfl, -, hmax⟩
    exact ⟨hleast, hmax⟩
  · rintro ⟨hu, hmax⟩
    obtain rfl := hleast.unique hu
    refine ⟨hperiod, ?_, rfl, by omega, hmax⟩
    constructor
    · have hdiv : -2 ^ 63 ≤ t / period.ms := by
        refine Int.le_ediv_of_mul_le hpos ?_
        nlinarith
      omega
    · nlinarith

theorem Schedule.instant_nextAfter {schedule : Schedule} {t u : ℤ}
    (h : schedule.nextAfter t = some u) : schedule.Instant u ∧ t < u := by
  cases schedule with
  | cron c => exact (c.after_some t u h).1
  | every period =>
      obtain ⟨-, -, rfl, -⟩ := Schedule.nextAfter_eq_some.mp h
      exact (isLeast_multiple period.ms_pos t).1

theorem Schedule.Instant.seconds {schedule : Schedule} {t : ℤ} (h : schedule.Instant t) :
    t % 1000 = 0 := by
  cases schedule with
  | cron c => exact c.seconds t h
  | every period => exact Int.emod_eq_zero_of_dvd ((Dvd.intro_left _ rfl).trans h)

end Albedo.Jobs
