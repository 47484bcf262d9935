import Albedo.Shutter.Limiter

/-!
# When to come back

A refusal names the span after which the same charge is admitted. Nothing here asks how the
cell came by its debt, so every cell that charges and debits can leave is meant.
-/
namespace Albedo.RateLimit

def nanosPerSec : ℕ := 1000000000

/-- The header's unit: whole seconds, rounded up. -/
def Verdict.retryAfterSecs (v : Verdict) : Option ℕ :=
  match v.decision with
  | .admitted .. => none
  | .refused retryAfter _ =>
      some (saturatingAdd (retryAfter / nanosPerSec) (if 0 < retryAfter % nanosPerSec then 1 else 0))

def Cell.retried (c : Cell) (q : Quota) (weight : ℕ) (instants : List ℕ) : Cell :=
  instants.foldl (fun c now => (c.charge q now weight).2) c

variable {q : Quota} {c : Cell} {now weight retryAfter resetAfter : ℕ}

theorem Quota.increment_le_tolerance (hweight : weight ≤ q.burst) :
    saturatingMul q.emissionInterval (max weight 1) ≤ q.tolerance := by
  rw [q.tolerance_eq]
  exact min_le_min_right _ (Nat.mul_le_mul_left _ (max_le hweight q.burst_pos))

theorem Cell.refused_eq (h : (c.charge q now weight).1 = .refused retryAfter resetAfter) :
    q.tolerance <
        saturatingAdd (c.tat - now) (saturatingMul q.emissionInterval (max weight 1)) ∧
      retryAfter = saturatingAdd (c.tat - now)
        (saturatingMul q.emissionInterval (max weight 1)) - q.tolerance := by
  unfold Cell.charge at h
  dsimp only at h
  split_ifs at h with hover
  obtain ⟨hretry, -⟩ := Decision.refused.inj h
  exact ⟨hover, hretry.symm⟩

theorem Cell.admitted_iff_waited (hweight : weight ≤ q.burst)
    (hexact : c.tat - now + q.emissionInterval * max weight 1 ≤ u64Max)
    (h : (c.charge q now weight).1 = .refused retryAfter resetAfter) {instant : ℕ}
    (hinstant : now ≤ instant) :
    (c.charge q instant weight).1.isAdmitted = true ↔ now + retryAfter ≤ instant := by
  obtain ⟨hover, hretry⟩ := Cell.refused_eq h
  have hfits : saturatingMul q.emissionInterval (max weight 1) ≤ q.tolerance :=
    Quota.increment_le_tolerance hweight
  have hincrement : saturatingMul q.emissionInterval (max weight 1) =
      q.emissionInterval * max weight 1 := saturatingMul_of_le (by omega)
  rw [hincrement] at hover hretry hfits
  rw [saturatingAdd_of_le hexact] at hover hretry
  rw [Cell.charge_isAdmitted_iff, hincrement, saturatingAdd_of_le (by omega)]
  omega

theorem Cell.retried_eq {instants : List ℕ}
    (h : ∀ t ∈ instants, (c.charge q t weight).1.isAdmitted = false) :
    c.retried q weight instants = c := by
  induction instants with
  | nil => rfl
  | cons t instants ih =>
      have hkept : (c.charge q t weight).2 = c := Cell.charge_refused (h t List.mem_cons_self)
      rw [Cell.retried, List.foldl_cons, hkept]
      exact ih fun u hu => h u (List.mem_cons_of_mem t hu)

theorem le_retryAfterSecs {v : Verdict} {secs : ℕ} (hword : retryAfter ≤ u64Max)
    (hv : v.decision = .refused retryAfter resetAfter) (hsecs : v.retryAfterSecs = some secs) :
    retryAfter ≤ secs * nanosPerSec := by
  have hparts : nanosPerSec * (retryAfter / nanosPerSec) + retryAfter % nanosPerSec = retryAfter :=
    Nat.div_add_mod _ _
  have hrest : retryAfter % nanosPerSec < nanosPerSec := Nat.mod_lt _ (by decide)
  have hsmall : retryAfter / nanosPerSec + 1 ≤ u64Max := by
    unfold nanosPerSec u64Max at *
    omega
  rw [Verdict.retryAfterSecs, hv] at hsecs
  have hsum := (Option.some.inj hsecs).symm
  split_ifs at hsum with hpart
  · rw [saturatingAdd_of_le hsmall] at hsum
    rw [hsum, Nat.add_mul, Nat.mul_comm]
    omega
  · rw [saturatingAdd_of_le (by omega)] at hsum
    rw [hsum, Nat.add_zero, Nat.mul_comm]
    omega

end Albedo.RateLimit
