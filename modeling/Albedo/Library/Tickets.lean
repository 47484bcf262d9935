import Mathlib.Data.List.Basic
import Mathlib.Data.List.Nodup
import Mathlib.Data.List.Perm.Basic

/-!
# Numbers that are handed out

One counter gives each that asks the next number. Some of those that asked send what they have
under their number, the others send nothing. Who receives it all in any order can put it in
order by the numbers, but can only tell that nothing is missing while no number is missing.
-/
namespace Albedo.Tickets

variable {α : Type} {number : α → ℕ}

def kept (asked : List (Option α)) : List α := asked.filterMap id

@[simp] theorem kept_nil : kept ([] : List (Option α)) = [] := rfl

@[simp] theorem kept_none (asked : List (Option α)) : kept (none :: asked) = kept asked := rfl

@[simp] theorem kept_some (x : α) (asked : List (Option α)) :
    kept (some x :: asked) = x :: kept asked := rfl

/-- Each that sends has the number it was given, from a first number on. -/
def Numbered (number : α → ℕ) : ℕ → List (Option α) → Prop
  | _, [] => True
  | n, none :: asked => Numbered number (n + 1) asked
  | n, some x :: asked => number x = n ∧ Numbered number (n + 1) asked

def KeptFirst (asked : List (Option α)) : Prop :=
  asked.Pairwise fun earlier later => later.isSome → earlier.isSome

instance (asked : List (Option α)) : Decidable (KeptFirst asked) :=
  inferInstanceAs (Decidable (asked.Pairwise fun earlier later => later.isSome → earlier.isSome))

def inOrder (number : α → ℕ) (xs : List α) : List α := xs.mergeSort fun x y => number x ≤ number y

variable {asked : List (Option α)} {sent : List α} {n : ℕ}

theorem Numbered.snoc {o : Option α} (h : Numbered number n asked)
    (ho : ∀ x, o = some x → number x = n + asked.length) : Numbered number n (asked ++ [o]) := by
  induction asked generalizing n with
  | nil =>
      cases o with
      | none => exact trivial
      | some x => exact ⟨ho x rfl, trivial⟩
  | cons first asked ih =>
      have hlater : ∀ x, o = some x → number x = n + 1 + asked.length := by
        intro x hx
        rw [ho x hx, List.length_cons]
        omega
      cases first with
      | none => exact ih h hlater
      | some y => exact ⟨h.1, ih h.2 hlater⟩

theorem Numbered.le (h : Numbered number n asked) : ∀ x ∈ kept asked, n ≤ number x := by
  induction asked generalizing n with
  | nil => exact fun x hx => absurd hx List.not_mem_nil
  | cons first asked ih =>
      cases first with
      | none => exact fun x hx => Nat.le_of_succ_le (ih h x hx)
      | some y =>
          intro x hx
          rcases List.mem_cons.mp hx with rfl | hx
          · exact Nat.le_of_eq h.1.symm
          · exact Nat.le_of_succ_le (ih h.2 x hx)

theorem Numbered.pairwise (h : Numbered number n asked) :
    (kept asked).Pairwise fun x y => number x < number y := by
  induction asked generalizing n with
  | nil => exact List.Pairwise.nil
  | cons first asked ih =>
      cases first with
      | none => exact ih h
      | some y =>
          refine List.pairwise_cons.mpr ⟨?_, ih h.2⟩
          intro x hx
          have hlater := h.2.le x hx
          have hfirst := h.1
          omega

theorem Numbered.inj (h : Numbered number n asked) {x y : α} (hx : x ∈ kept asked)
    (hy : y ∈ kept asked) (hxy : number x = number y) : x = y := by
  have hnumbers : ((kept asked).map number).Pairwise (· < ·) := List.pairwise_map.mpr h.pairwise
  exact List.inj_on_of_nodup_map (hnumbers.imp Nat.ne_of_lt) hx hy hxy

theorem Numbered.inOrder_eq (h : Numbered number n asked) (hsent : sent.Perm (kept asked)) :
    inOrder number sent = kept asked := by
  have hsorted : (inOrder number sent).Pairwise fun x y => number x ≤ number y := by
    have hpairwise : (inOrder number sent).Pairwise fun x y => decide (number x ≤ number y) :=
      List.pairwise_mergeSort (fun a b c hab hbc => by simp only [decide_eq_true_eq] at *; omega)
        (fun a b => by simp only [Bool.or_eq_true, decide_eq_true_eq]; omega) sent
    exact hpairwise.imp of_decide_eq_true
  have hkept : (kept asked).Pairwise fun x y => number x ≤ number y := h.pairwise.imp Nat.le_of_lt
  refine List.Perm.eq_of_pairwise ?_ hsorted hkept ((List.mergeSort_perm sent _).trans hsent)
  intro x y hx hy hxy hyx
  exact h.inj (hsent.subset (List.mem_mergeSort.mp hx)) hy (Nat.le_antisymm hxy hyx)

theorem keptFirst_of_forall (h : ∀ o ∈ asked, o.isSome) : KeptFirst asked :=
  List.pairwise_of_forall_mem_list fun o ho _ _ _ => h o ho

theorem keptFirst_none : KeptFirst (none :: asked) ↔ kept asked = [] := by
  simp only [KeptFirst, List.pairwise_cons, kept, List.filterMap_eq_nil_iff]
  constructor
  · rintro ⟨hfirst, -⟩ o ho
    cases o with
    | none => rfl
    | some x => cases hfirst _ ho rfl
  · intro hnone
    refine ⟨fun o ho hsome => ?_, List.pairwise_of_forall_mem_list fun o _ o' ho' hsome => ?_⟩
    · rw [show o = none from hnone o ho] at hsome
      cases hsome
    · rw [show o' = none from hnone o' ho'] at hsome
      cases hsome

/-- Nothing is missing just when none that sends nothing asked before one that sends. -/
theorem Numbered.range_iff (h : Numbered number n asked) :
    (kept asked).map number = List.range' n (kept asked).length ↔ KeptFirst asked := by
  induction asked generalizing n with
  | nil => simp [KeptFirst]
  | cons first asked ih =>
      cases first with
      | none =>
          rw [keptFirst_none, kept_none]
          constructor
          · intro hrange
            cases hkept : kept asked with
            | nil => rfl
            | cons x xs =>
                have hlater : Numbered number (n + 1) asked := h
                have hle := hlater.le x (hkept ▸ List.mem_cons_self)
                rw [hkept, List.map_cons, List.length_cons, List.range'_succ] at hrange
                have hx := (List.cons.inj hrange).1
                omega
          · intro hkept
            rw [hkept]
            rfl
      | some y =>
          have hsome : KeptFirst (some y :: asked) ↔ KeptFirst asked := by
            simp [KeptFirst]
          rw [hsome, kept_some, List.map_cons, List.length_cons, List.range'_succ, h.1,
            List.cons.injEq, ← ih h.2]
          exact and_iff_right rfl

end Albedo.Tickets
