import Mathlib.Data.List.Nodup
import Mathlib.Data.List.Range

/-!
# Sorting into buckets

Each element of a list has a bucket, a number below `k`. `order` lists the positions bucket by
bucket, each bucket's in their order. The place of a position in it can be told beforehand:
after all of the buckets before, and after those of its own bucket that come before it.
-/
namespace Buckets

variable {α β : Type} {k b j : ℕ} {buckets : List ℕ}

def positions (buckets : List ℕ) (b : ℕ) : List ℕ :=
  (List.range buckets.length).filter fun i => buckets[i]? = some b

def order (k : ℕ) (buckets : List ℕ) : List ℕ := (List.range k).flatMap (positions buckets)

/-- The place of a position of bucket `b`. -/
def rank (buckets : List ℕ) (b j : ℕ) : ℕ :=
  buckets.countP (· < b) + (buckets.take j).count b

@[simp] theorem mem_positions : j ∈ positions buckets b ↔ buckets[j]? = some b := by
  rw [positions, List.mem_filter, List.mem_range, decide_eq_true_eq, and_iff_right_iff_imp]
  exact fun h => (List.getElem?_eq_some_iff.mp h).choose

theorem length_filter_range (hj : j ≤ buckets.length) :
    ((List.range j).filter fun i => buckets[i]? = some b).length = (buckets.take j).count b := by
  induction j with
  | zero => rfl
  | succ j ih =>
      obtain ⟨c, hc⟩ : ∃ c, buckets[j]? = some c := ⟨_, List.getElem?_eq_getElem hj⟩
      rw [List.range_succ, List.filter_append, List.length_append, ih (by omega), List.take_add_one,
        List.count_append, hc]
      by_cases hcb : c = b
      · simp [hc, hcb]
      · simp [hc, hcb]

theorem length_positions (buckets : List ℕ) (b : ℕ) :
    (positions buckets b).length = buckets.count b := by
  rw [positions, length_filter_range le_rfl, List.take_length]

theorem countP_lt_succ (buckets : List ℕ) (b : ℕ) :
    buckets.countP (· < b + 1) = buckets.countP (· < b) + buckets.count b := by
  induction buckets with
  | nil => rfl
  | cons c buckets ih =>
      rw [List.countP_cons, List.countP_cons, List.count_cons, ih]
      rcases Nat.lt_trichotomy c b with h | rfl | h
      · simp [h, h.ne, Nat.lt_succ_of_lt h]
        omega
      · simp
        omega
      · simp [h.ne', Nat.not_lt_of_gt h, Nat.not_lt.mpr h]

theorem length_order (k : ℕ) (buckets : List ℕ) :
    (order k buckets).length = buckets.countP (· < k) := by
  induction k with
  | zero => simp [order]
  | succ k ih =>
      rw [countP_lt_succ, ← ih, ← length_positions]
      simp only [order, List.range_succ, List.flatMap_append, List.flatMap_singleton,
        List.length_append]

theorem mem_order : j ∈ order k buckets ↔ ∃ b < k, buckets[j]? = some b := by
  simp only [order, List.mem_flatMap, List.mem_range, mem_positions]

theorem pairwise_order (k : ℕ) (buckets : List ℕ) :
    (order k buckets).Pairwise fun i j => ∃ b c, buckets[i]? = some b ∧ buckets[j]? = some c ∧
      (b < c ∨ b = c ∧ i < j) := by
  refine List.pairwise_flatMap.mpr ⟨fun b _ => ?_, ?_⟩
  · have hsorted : (positions buckets b).Pairwise (· < ·) :=
      List.pairwise_lt_range.filter _
    refine hsorted.imp_of_mem fun hi hj hij => ?_
    exact ⟨b, b, mem_positions.mp hi, mem_positions.mp hj, Or.inr ⟨rfl, hij⟩⟩
  · refine List.pairwise_lt_range.imp fun {b c} hbc i hi j hj => ?_
    exact ⟨b, c, mem_positions.mp hi, mem_positions.mp hj, Or.inl hbc⟩

theorem nodup_order (k : ℕ) (buckets : List ℕ) : (order k buckets).Nodup := by
  refine (pairwise_order k buckets).imp ?_
  rintro i j ⟨b, c, hb, hc, hlt⟩ rfl
  obtain rfl := Option.some.inj (hb.symm.trans hc)
  omega

theorem order_perm (h : ∀ b ∈ buckets, b < k) :
    (order k buckets).Perm (List.range buckets.length) := by
  refine (List.perm_ext_iff_of_nodup (nodup_order k buckets) List.nodup_range).mpr fun j => ?_
  rw [mem_order, List.mem_range]
  constructor
  · rintro ⟨b, -, hb⟩
    exact (List.getElem?_eq_some_iff.mp hb).choose
  · intro hj
    exact ⟨buckets[j], h _ (List.getElem_mem hj), List.getElem?_eq_getElem hj⟩

theorem getElem?_order (hb : b < k) (hj : buckets[j]? = some b) :
    (order k buckets)[rank buckets b j]? = some j := by
  obtain ⟨hlt, -⟩ := List.getElem?_eq_some_iff.mp hj
  have hbuckets : order k buckets = order b buckets ++
      (positions buckets b ++ ((List.range (k - b - 1)).map (b + 1 + ·)).flatMap
        (positions buckets)) := by
    have hk : k = b + 1 + (k - b - 1) := by omega
    rw [order, hk, List.range_add, List.range_succ]
    simp only [List.flatMap_append, List.flatMap_singleton, List.append_assoc, order,
      Nat.add_sub_cancel_left, Nat.add_assoc]
  obtain ⟨m, hm⟩ : ∃ m, buckets.length = j + 1 + m := ⟨buckets.length - (j + 1), by omega⟩
  have hpositions : positions buckets b =
      ((List.range j).filter fun i => buckets[i]? = some b) ++
        j :: ((List.range m).map (j + 1 + ·)).filter fun i => buckets[i]? = some b := by
    rw [positions, hm, List.range_add, List.range_succ]
    simp [List.filter_append, hj]
  rw [hbuckets, rank, ← length_order, List.getElem?_append_right (Nat.le_add_right _ _),
    Nat.add_sub_cancel_left, hpositions, ← length_filter_range hlt.le, List.append_assoc,
    List.getElem?_append_right le_rfl, Nat.sub_self]
  rfl

theorem rank_lt (hb : b < k) (hj : buckets[j]? = some b) :
    rank buckets b j < (order k buckets).length :=
  (List.getElem?_eq_some_iff.mp (getElem?_order hb hj)).choose

theorem rank_bounds (hj : buckets[j]? = some b) :
    buckets.countP (· < b) ≤ rank buckets b j ∧
      rank buckets b j < buckets.countP (· < b + 1) := by
  have hlt := rank_lt (Nat.lt_succ_self b) hj
  rw [length_order] at hlt
  exact ⟨Nat.le_add_right _ _, hlt⟩

/-! ### What is sorted -/

variable {f : α → ℕ} {l : List α} {p : α → Bool}

theorem filterMap_order (k : ℕ) (f : α → ℕ) (l : List α) :
    (order k (l.map f)).filterMap (l[·]?) = (List.range k).flatMap fun b => l.filter (f · = b) := by
  rw [order, List.filterMap_flatMap]
  refine List.flatMap_congr fun b _ => ?_
  rw [positions, List.length_map]
  induction l using List.reverseRecOn with
  | nil => rfl
  | append_singleton l a ih =>
      rw [List.length_append, List.length_singleton, List.range_succ, List.filter_append,
        List.filterMap_append, List.filter_append, ← ih]
      have hold : ∀ i ∈ List.range l.length, ((l ++ [a]).map f)[i]? = (l.map f)[i]? := by
        intro i hi
        rw [List.map_append, List.getElem?_append_left (by simpa using hi)]
      congr 1
      · rw [List.filter_congr fun i hi => by rw [hold i hi]]
        refine List.filterMap_congr fun i hi => ?_
        exact List.getElem?_append_left (by simpa using (List.mem_filter.mp hi).1)
      · by_cases ha : f a = b
        · simp [ha]
        · simp [ha]

theorem filter_buckets (hk : ∀ a ∈ l, f a < k)
    (hone : ∀ a ∈ l, ∀ c ∈ l, p a = true → p c = true → f a = f c) :
    ((List.range k).flatMap fun b => l.filter (f · = b)).filter p = l.filter p := by
  rw [List.filter_flatMap]
  by_cases hex : ∃ a ∈ l, p a = true
  · obtain ⟨a, ha, hpa⟩ := hex
    have hblock : ∀ b, (l.filter (f · = b)).filter p = if b = f a then l.filter p else [] := by
      intro b
      rw [List.filter_filter]
      split_ifs with hb
      · refine List.filter_congr fun c hc => ?_
        by_cases hpc : p c = true
        · simp [hpc, hb, hone c hc a ha hpc hpa]
        · simp [hpc]
      · refine List.filter_eq_nil_iff.mpr fun c hc => ?_
        intro hboth
        rw [Bool.and_eq_true, decide_eq_true_eq] at hboth
        exact hb (hboth.2.symm.trans (hone c hc a ha hboth.1 hpa))
    rw [List.flatMap_congr fun b _ => hblock b]
    obtain ⟨pre, post, hsplit⟩ := List.append_of_mem (List.mem_range.mpr (hk a ha))
    have hnodup : (pre ++ f a :: post).Nodup := hsplit ▸ List.nodup_range
    rw [hsplit]
    rw [List.nodup_append, List.nodup_cons] at hnodup
    obtain ⟨-, ⟨hpost, -⟩, hpre⟩ := hnodup
    have hzero : ∀ bs : List ℕ, f a ∉ bs →
        (bs.flatMap fun b => if b = f a then l.filter p else []) = [] := by
      intro bs hbs
      refine List.flatMap_eq_nil_iff.mpr fun b hb => if_neg ?_
      rintro rfl
      exact hbs hb
    rw [List.flatMap_append, List.flatMap_cons, if_pos rfl, hzero post hpost,
      hzero pre fun h => hpre _ h _ List.mem_cons_self rfl]
    simp
  · push Not at hex
    have hnil : l.filter p = [] := List.filter_eq_nil_iff.mpr fun a ha => by simpa using hex a ha
    rw [hnil]
    refine List.flatMap_eq_nil_iff.mpr fun b _ => ?_
    refine List.filter_eq_nil_iff.mpr fun c hc => ?_
    simpa using hex c (List.mem_filter.mp hc).1

/-! ### Writing each value under the other -/

def scatter (write : ℕ → β) (first : ℕ) : List ℕ → List β → List β
  | [], out => out
  | place :: places, out => scatter write (first + 1) places (out.set place (write first))

@[simp] theorem length_scatter (write : ℕ → β) (first : ℕ) (places : List ℕ) (out : List β) :
    (scatter write first places out).length = out.length := by
  induction places generalizing first out with
  | nil => rfl
  | cons place places ih => rw [scatter, ih, List.length_set]

theorem scatter_other {write : ℕ → β} {first : ℕ} {places : List ℕ} {out : List β} {i : ℕ}
    (h : i ∉ places) : (scatter write first places out)[i]? = out[i]? := by
  induction places generalizing first out with
  | nil => rfl
  | cons place places ih =>
      rw [List.mem_cons, not_or] at h
      rw [scatter, ih h.2, List.getElem?_set_ne (Ne.symm h.1)]

theorem scatter_at {write : ℕ → β} {first : ℕ} {places : List ℕ} {out : List β} {i j : ℕ}
    (hnodup : places.Nodup) (hlt : i < out.length) (h : places[j]? = some i) :
    (scatter write first places out)[i]? = some (write (first + j)) := by
  induction places generalizing first out j with
  | nil => cases h
  | cons place places ih =>
      obtain ⟨hnot, hnodup⟩ := List.nodup_cons.mp hnodup
      rw [scatter]
      cases j with
      | zero =>
          obtain rfl := Option.some.inj h
          rw [scatter_other hnot, List.getElem?_set_self hlt]
          rfl
      | succ j =>
          rw [ih hnodup (by simpa using hlt) h]
          congr 2
          omega

end Buckets
