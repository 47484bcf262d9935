import Mathlib.Algebra.Order.Group.Basic
import Mathlib.Algebra.BigOperators.Group.List.Basic
import Mathlib.Tactic.Abel

/-!
# Virtual scheduling over an ordered group

A meter is one instant, the theoretical arrival time. An arrival at `time` with
cost `cost` moves it to `max tat time + cost`, and the arrival conforms to the
tolerance `τ` when the new instant is at most `time + τ`. Nothing here fixes the
group: times may be integers, rationals or reals, and they need not be monotone.

The main rule is `conforming_window`: a conforming run spends at most
`τ + (t - s)` on the arrivals it takes inside the window `[s, t]`.
-/
namespace Albedo.VirtualScheduling

structure Arrival (α : Type*) where
  time : α
  cost : α

variable {α : Type*} [AddCommGroup α] [LinearOrder α] [IsOrderedAddMonoid α]

def Arrival.advance (a : Arrival α) (tat : α) : α := max tat a.time + a.cost

def meter (tat : α) (as : List (Arrival α)) : α := as.foldl (fun t a => a.advance t) tat

def Conforming (τ : α) : α → List (Arrival α) → Prop
  | _, [] => True
  | tat, a :: as => a.advance tat ≤ a.time + τ ∧ Conforming τ (a.advance tat) as

/-- Total cost of the arrivals inside the closed window `[s, t]`. -/
def spent (s t : α) (as : List (Arrival α)) : α :=
  ((as.filter fun a => s ≤ a.time ∧ a.time ≤ t).map Arrival.cost).sum

omit [IsOrderedAddMonoid α] in
@[simp] theorem meter_nil (tat : α) : meter tat [] = tat := rfl

omit [IsOrderedAddMonoid α] in
@[simp] theorem meter_cons (tat : α) (a : Arrival α) (as : List (Arrival α)) :
    meter tat (a :: as) = meter (a.advance tat) as := rfl

theorem Arrival.le_advance (a : Arrival α) (ha : 0 ≤ a.cost) (tat : α) : tat ≤ a.advance tat :=
  (le_max_left tat a.time).trans (le_add_of_nonneg_right ha)

omit [IsOrderedAddMonoid α] in
@[simp] theorem spent_nil (s t : α) : spent s t ([] : List (Arrival α)) = 0 := rfl

omit [IsOrderedAddMonoid α] in
theorem spent_cons (s t : α) (a : Arrival α) (as : List (Arrival α)) :
    spent s t (a :: as) =
      (if s ≤ a.time ∧ a.time ≤ t then a.cost else 0) + spent s t as := by
  by_cases h : s ≤ a.time ∧ a.time ≤ t
  · simp [spent, h]
  · simp [spent, h]

/-- The meter carries everything the window has taken: either the window took
nothing, or the larger of the meter and the window's start, plus what was taken,
is still at most `t + τ`. The induction generalises the meter, since arrivals
outside the window only push it up. -/
theorem conforming_spent (τ s t tat : α) (as : List (Arrival α))
    (hc : ∀ a ∈ as, 0 ≤ a.cost) (h : Conforming τ tat as) :
    spent s t as = 0 ∨ max tat s + spent s t as ≤ t + τ := by
  induction as generalizing tat with
  | nil => exact Or.inl rfl
  | cons a as ih =>
      have ha : 0 ≤ a.cost := hc a (by simp)
      have hup : tat ≤ a.advance tat := a.le_advance ha tat
      have hrest := ih (a.advance tat) (fun b hb => hc b (by simp [hb])) h.2
      rw [spent_cons]
      split_ifs with hin
      · have hnow : max tat s + a.cost ≤ a.advance tat := by
          unfold Arrival.advance
          gcongr
          exact hin.1
        have hlate : a.advance tat ≤ t + τ := h.1.trans (by gcongr; exact hin.2)
        right
        rcases hrest with h0 | hle
        · rw [h0, add_zero]
          exact hnow.trans hlate
        · calc max tat s + (a.cost + spent s t as)
              = (max tat s + a.cost) + spent s t as := by rw [add_assoc]
            _ ≤ max (a.advance tat) s + spent s t as := by
                gcongr
                exact hnow.trans (le_max_left _ _)
            _ ≤ t + τ := hle
      · rw [zero_add]
        rcases hrest with h0 | hle
        · exact Or.inl h0
        · right
          refine le_trans ?_ hle
          gcongr

theorem conforming_window (τ s t tat : α) (as : List (Arrival α)) (hτ : 0 ≤ τ) (hst : s ≤ t)
    (hc : ∀ a ∈ as, 0 ≤ a.cost) (h : Conforming τ tat as) :
    spent s t as ≤ τ + (t - s) := by
  rcases conforming_spent τ s t tat as hc h with h0 | hle
  · rw [h0]
    exact add_nonneg hτ (sub_nonneg.mpr hst)
  · have hs : s + spent s t as ≤ t + τ := by
      refine le_trans ?_ hle
      gcongr
      exact le_max_right _ _
    have := le_sub_iff_add_le'.mpr hs
    calc spent s t as ≤ t + τ - s := this
      _ = τ + (t - s) := by abel

end Albedo.VirtualScheduling
