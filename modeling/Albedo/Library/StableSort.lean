import Mathlib.Data.List.Basic
import Mathlib.Order.Lattice

/-!
# Stable sorting by a key

A stable sort keeps the elements of one key in their order, and a sorted list is determined by
what it holds of each key. So the result only depends on what a list holds of each key.
-/
namespace StableSort

variable {α κ : Type} [LinearOrder κ] {key : α → κ} {l l' : List α}

def sortBy (key : α → κ) (l : List α) : List α := l.mergeSort fun a b => key a ≤ key b

theorem pairwise_sortBy (key : α → κ) (l : List α) :
    (sortBy key l).Pairwise fun a b => key a ≤ key b := by
  have hsorted : (sortBy key l).Pairwise fun a b => decide (key a ≤ key b) = true := by
    refine List.pairwise_mergeSort (fun a b c hab hbc => ?_) (fun a b => ?_) l
    · simp only [decide_eq_true_eq] at hab hbc ⊢
      exact le_trans hab hbc
    · simpa using le_total (key a) (key b)
  exact hsorted.imp fun h => of_decide_eq_true h

theorem filter_sortBy (key : α → κ) (l : List α) (k : κ) :
    (sortBy key l).filter (key · = k) = l.filter (key · = k) := by
  have hperm : (sortBy key l).Perm l := List.mergeSort_perm l _
  have hclass : (l.filter (key · = k)).Pairwise fun a b => decide (key a ≤ key b) = true := by
    refine List.pairwise_of_forall_mem_list fun a ha b hb => ?_
    have hka : key a = k := of_decide_eq_true (List.mem_filter.mp ha).2
    have hkb : key b = k := of_decide_eq_true (List.mem_filter.mp hb).2
    rw [hka, hkb]
    exact decide_eq_true le_rfl
  have hsub : (l.filter (key · = k)).Sublist (sortBy key l) :=
    List.sublist_mergeSort
      (fun a b c hab hbc => by
        simp only [decide_eq_true_eq] at hab hbc ⊢
        exact le_trans hab hbc)
      (fun a b => by simpa using le_total (key a) (key b)) hclass List.filter_sublist
  have hkept : (l.filter (key · = k)).Sublist ((sortBy key l).filter (key · = k)) := by
    have hfilter := hsub.filter (key · = k)
    rwa [List.filter_filter, List.filter_congr fun a _ => Bool.and_self _] at hfilter
  exact (hkept.eq_of_length (hperm.filter _).length_eq.symm).symm

theorem head_le (h : l.Pairwise fun a b => key a ≤ key b) {a b : α} (ha : l.head? = some a)
    (hb : b ∈ l) : key a ≤ key b := by
  cases l with
  | nil => cases ha
  | cons c l =>
      obtain rfl := Option.some.inj ha
      rcases List.mem_cons.mp hb with rfl | hb
      · exact le_rfl
      · exact (List.pairwise_cons.mp h).1 b hb

theorem eq_of_sorted (hl : l.Pairwise fun a b => key a ≤ key b)
    (hl' : l'.Pairwise fun a b => key a ≤ key b)
    (h : ∀ k, l.filter (key · = k) = l'.filter (key · = k)) : l = l' := by
  have hmem : ∀ a, a ∈ l ↔ a ∈ l' := fun a => by
    have hclass : a ∈ l.filter (key · = key a) ↔ a ∈ l'.filter (key · = key a) := by rw [h]
    simpa using hclass
  induction l generalizing l' with
  | nil =>
      cases l' with
      | nil => rfl
      | cons b l' => exact absurd ((hmem b).mpr List.mem_cons_self) List.not_mem_nil
  | cons a l ih =>
      cases l' with
      | nil => exact absurd ((hmem a).mp List.mem_cons_self) List.not_mem_nil
      | cons b l' =>
          have hab : key a = key b :=
            le_antisymm (head_le hl rfl ((hmem b).mpr List.mem_cons_self))
              (head_le hl' rfl ((hmem a).mp List.mem_cons_self))
          have hfirst := h (key a)
          rw [List.filter_cons_of_pos (by simp), List.filter_cons_of_pos (by simp [hab])] at hfirst
          obtain ⟨rfl, hrest⟩ := List.cons.inj hfirst
          have hclasses : ∀ k, l.filter (key · = k) = l'.filter (key · = k) := by
            intro k
            by_cases hk : key a = k
            · exact hk ▸ hrest
            · have hother := h k
              rwa [List.filter_cons_of_neg (by simpa using hk),
                List.filter_cons_of_neg (by simpa using hk)] at hother
          have hmem' : ∀ c, c ∈ l ↔ c ∈ l' := fun c => by
            have hclass : c ∈ l.filter (key · = key c) ↔ c ∈ l'.filter (key · = key c) := by
              rw [hclasses]
            simpa using hclass
          rw [ih hl.of_cons hl'.of_cons hclasses hmem']

theorem sortBy_congr (h : ∀ k, l.filter (key · = k) = l'.filter (key · = k)) :
    sortBy key l = sortBy key l' :=
  eq_of_sorted (pairwise_sortBy key l) (pairwise_sortBy key l') fun k => by
    rw [filter_sortBy, filter_sortBy, h k]

end StableSort
