import Mathlib.Data.List.Infix
import Mathlib.Data.List.MinMax
import Mathlib.Tactic.SplitIfs

/-!
# Places in a text

Where one text stands in another: for the first time, for the last, or the first of several. A text
with no letter of some kind stands between two such letters, or nowhere.
-/
namespace Albedo.Places

variable {α : Type*}

section Infix

variable {c : α} {w a b s t x y : List α}

theorem infix_append_cons (hc : c ∉ w) (h : w <:+: a ++ c :: b) : w <:+: a ∨ w <:+: b := by
  obtain ⟨before, after, heq⟩ := h
  rcases List.append_eq_append_iff.mp heq with ⟨m, ha, -⟩ | ⟨m, hleft, hright⟩
  · exact Or.inl ⟨before, m, ha.symm⟩
  · cases m with
    | nil =>
        rw [List.append_nil] at hleft
        exact Or.inl ⟨before, [], by rw [List.append_nil, hleft]⟩
    | cons d m =>
        obtain ⟨rfl, hb⟩ := List.cons.inj hright
        rcases List.append_eq_append_iff.mp hleft with ⟨n, -, hw⟩ | ⟨n, -, hm⟩
        · exact absurd (hw ▸ List.mem_append_right n List.mem_cons_self) hc
        · cases n with
          | nil =>
              obtain rfl : c :: m = w := hm
              exact absurd List.mem_cons_self hc
          | cons e n =>
              obtain ⟨-, rfl⟩ := List.cons.inj hm
              exact Or.inr ⟨n, after, hb.symm⟩

/-- A text with the letter once in it reaches over the letter's first place, or is after it. -/
theorem infix_across (hx : c ∉ x) (hs : c ∉ s) (h : x ++ c :: y <:+: s ++ c :: t) :
    (x <:+ s ∧ y <+: t) ∨ x ++ c :: y <:+: t := by
  obtain ⟨before, after, heq⟩ := h
  have heq : (before ++ x) ++ c :: (y ++ after) = s ++ c :: t := by simpa using heq
  rcases List.append_eq_append_iff.mp heq with ⟨m, hbefore, hright⟩ | ⟨m, hbefore, hright⟩
  · cases m with
    | nil =>
        rw [List.append_nil] at hbefore
        obtain ⟨-, rfl⟩ := List.cons.inj hright
        exact Or.inl ⟨⟨before, hbefore.symm⟩, ⟨after, rfl⟩⟩
    | cons d m =>
        obtain ⟨rfl, -⟩ := List.cons.inj hright
        exact absurd (hbefore ▸ List.mem_append_right _ List.mem_cons_self) hs
  · cases m with
    | nil =>
        rw [List.append_nil] at hbefore
        obtain ⟨-, rfl⟩ := List.cons.inj hright
        exact Or.inl ⟨⟨before, hbefore⟩, ⟨after, rfl⟩⟩
    | cons d m =>
        obtain ⟨rfl, rfl⟩ := List.cons.inj hright
        rcases List.append_eq_append_iff.mp hbefore with ⟨n, -, hxn⟩ | ⟨n, -, hm⟩
        · exact absurd (hxn ▸ List.mem_append_right n List.mem_cons_self) hx
        · cases n with
          | nil =>
              obtain rfl : c :: m = x := hm
              exact absurd List.mem_cons_self hx
          | cons e n =>
              obtain ⟨-, rfl⟩ := List.cons.inj hm
              exact Or.inr ⟨n, after, by simp⟩

theorem head_splitOnP {p : α → Bool} {others : List (List α)} (h : s.splitOnP p = w :: others) :
    w <+: s := by
  induction s generalizing w others with
  | nil =>
      obtain ⟨rfl, -⟩ := List.cons.inj (show [[]] = w :: others by simpa using h)
      exact List.prefix_rfl
  | cons d s ih =>
      rw [List.splitOnP_cons_eq_if_modifyHead] at h
      split_ifs at h
      · obtain ⟨rfl, -⟩ := List.cons.inj h
        exact List.nil_prefix
      · obtain ⟨first, rest, hsplit⟩ := List.exists_cons_of_ne_nil (List.splitOnP_ne_nil p s)
        rw [hsplit, List.modifyHead_cons] at h
        obtain ⟨rfl, -⟩ := List.cons.inj h
        exact List.cons_prefix_cons.mpr ⟨rfl, ih hsplit⟩

theorem infix_of_mem_splitOnP {p : α → Bool} (h : w ∈ s.splitOnP p) : w <:+: s := by
  induction s generalizing w with
  | nil =>
      obtain rfl : w = [] := by simpa using h
      exact List.infix_rfl
  | cons d s ih =>
      have hlater : ∀ v ∈ s.splitOnP p, v <:+: d :: s := fun v hv =>
        (ih hv).trans (List.suffix_cons d s).isInfix
      cases hsplit : (d :: s).splitOnP p with
      | nil => exact absurd hsplit (List.splitOnP_ne_nil p (d :: s))
      | cons first others =>
          rw [hsplit] at h
          rcases List.mem_cons.mp h with rfl | hmem
          · exact (head_splitOnP hsplit).isInfix
          · rw [List.splitOnP_cons_eq_if_modifyHead] at hsplit
            split_ifs at hsplit
            · obtain ⟨-, rfl⟩ := List.cons.inj hsplit
              exact hlater w hmem
            · obtain ⟨head, rest, hs⟩ := List.exists_cons_of_ne_nil (List.splitOnP_ne_nil p s)
              rw [hs, List.modifyHead_cons] at hsplit
              obtain ⟨-, rfl⟩ := List.cons.inj hsplit
              exact hlater w (hs ▸ List.mem_cons_of_mem head hmem)

end Infix

/-! ### Searching -/

section Search

variable [DecidableEq α] {needle text rest : List α} {n : ℕ}

def firstPlace (needle : List α) : List α → Option ℕ
  | [] => if needle = [] then some 0 else none
  | x :: l => if needle <+: x :: l then some 0 else (firstPlace needle l).map (· + 1)

def lastPlace (needle : List α) : List α → Option ℕ
  | [] => if needle = [] then some 0 else none
  | x :: l =>
      match lastPlace needle l with
      | some n => some (n + 1)
      | none => if needle <+: x :: l then some 0 else none

def endPlace (needles : List (List α)) (text : List α) : ℕ :=
  (needles.filterMap fun needle => firstPlace needle text).min?.getD text.length

theorem firstPlace_eq_none (h : ¬ needle <:+: text) : firstPlace needle text = none := by
  induction text with
  | nil =>
      have hneedle : needle ≠ [] := by
        rintro rfl
        exact h List.infix_rfl
      rw [firstPlace, if_neg hneedle]
  | cons x text ih =>
      have hhead : ¬ needle <+: x :: text := fun hp => h hp.isInfix
      have htail : ¬ needle <:+: text := fun hi => h (hi.trans (List.suffix_cons x text).isInfix)
      rw [firstPlace, if_neg hhead, ih htail]
      rfl

theorem firstPlace_le (needle text rest : List α) :
    ∃ n ≤ text.length, firstPlace needle (text ++ (needle ++ rest)) = some n := by
  induction text with
  | nil =>
      refine ⟨0, Nat.le_refl 0, ?_⟩
      cases hne : needle ++ rest with
      | nil =>
          obtain ⟨rfl, -⟩ := List.append_eq_nil_iff.mp hne
          rfl
      | cons x l =>
          have hstart : needle <+: x :: l := hne ▸ List.prefix_append needle rest
          rw [List.nil_append, firstPlace, if_pos hstart]
  | cons x text ih =>
      rw [List.cons_append, firstPlace]
      split_ifs with hhead
      · exact ⟨0, Nat.zero_le _, rfl⟩
      · obtain ⟨n, hle, hn⟩ := ih
        exact ⟨n + 1, Nat.succ_le_succ hle, by rw [hn]; rfl⟩

theorem lastPlace_eq_none (h : ¬ needle <:+: text) : lastPlace needle text = none := by
  induction text with
  | nil =>
      have hneedle : needle ≠ [] := by
        rintro rfl
        exact h List.infix_rfl
      rw [lastPlace, if_neg hneedle]
  | cons x text ih =>
      have hhead : ¬ needle <+: x :: text := fun hp => h hp.isInfix
      have htail : ¬ needle <:+: text := fun hi => h (hi.trans (List.suffix_cons x text).isInfix)
      rw [lastPlace, ih htail]
      exact if_neg hhead

theorem lastPlace_append (text : List α) (h : lastPlace needle rest = some n) :
    lastPlace needle (text ++ rest) = some (text.length + n) := by
  induction text with
  | nil => simpa using h
  | cons x text ih =>
      rw [List.cons_append, lastPlace, ih, List.length_cons]
      exact congrArg some (by omega)

theorem lastPlace_eq (a : α) (tail text rest : List α) (h : ¬ a :: tail <:+: tail ++ rest) :
    lastPlace (a :: tail) (text ++ (a :: tail ++ rest)) = some text.length := by
  have hstart : a :: tail <+: a :: (tail ++ rest) := List.prefix_append (a :: tail) rest
  have hhere : lastPlace (a :: tail) (a :: tail ++ rest) = some 0 := by
    rw [List.cons_append, lastPlace, lastPlace_eq_none h]
    exact if_pos hstart
  exact lastPlace_append text hhere

theorem endPlace_eq_length {needles : List (List α)} (h : ∀ needle ∈ needles, ¬ needle <:+: text) :
    endPlace needles text = text.length := by
  have hnone : needles.filterMap (fun needle => firstPlace needle text) = [] :=
    List.filterMap_eq_nil_iff.mpr fun needle hneedle => firstPlace_eq_none (h needle hneedle)
  rw [endPlace, hnone]
  rfl

theorem not_infix_take_endPlace {needles : List (List α)} (hmem : needle ∈ needles)
    (hne : needle ≠ []) : ¬ needle <:+: text.take (endPlace needles text) := by
  rintro ⟨before, after, heq⟩
  have htext : text = before ++ (needle ++ (after ++ text.drop (endPlace needles text))) := by
    conv => lhs; rw [← List.take_append_drop (endPlace needles text) text, ← heq]
    simp
  obtain ⟨n, hle, hfirst⟩ := firstPlace_le needle before (after ++ text.drop (endPlace needles text))
  rw [← htext] at hfirst
  have hplaces : n ∈ needles.filterMap fun needle => firstPlace needle text :=
    List.mem_filterMap.mpr ⟨needle, hmem, hfirst⟩
  have hend : endPlace needles text ≤ n := by
    unfold endPlace
    cases hmin : (needles.filterMap fun needle => firstPlace needle text).min? with
    | none =>
        rw [List.min?_eq_none_iff] at hmin
        rw [hmin] at hplaces
        exact absurd hplaces List.not_mem_nil
    | some m => exact (List.min?_eq_some_iff.mp hmin).2 n hplaces
  have hlength := congrArg List.length heq
  have hpos : 0 < needle.length := List.length_pos_iff.mpr hne
  rw [List.length_append, List.length_append, List.length_take] at hlength
  omega

theorem endPlace_cons {needles : List (List α)} {x : α} (h : ∀ needle ∈ needles, ∀ a ∈ needle.head?,
    a ≠ x) (hne : ∀ needle ∈ needles, needle ≠ []) :
    endPlace needles (x :: text) = endPlace needles text + 1 := by
  have hplaces : needles.filterMap (fun needle => firstPlace needle (x :: text)) =
      (needles.filterMap fun needle => firstPlace needle text).map (· + 1) := by
    rw [List.map_filterMap]
    refine List.filterMap_congr fun needle hneedle => ?_
    have hhead : ¬ needle <+: x :: text := by
      cases needle with
      | nil => exact absurd rfl (hne [] hneedle)
      | cons a tail => exact fun hp => h _ hneedle a rfl (List.cons_prefix_cons.mp hp).1
    rw [firstPlace, if_neg hhead]
  unfold endPlace
  rw [hplaces]
  cases hmin : (needles.filterMap fun needle => firstPlace needle text).min? with
  | none =>
      rw [List.min?_eq_none_iff] at hmin
      rw [hmin]
      rfl
  | some m =>
      obtain ⟨hm, hle⟩ := List.min?_eq_some_iff.mp hmin
      have hsucc : ((needles.filterMap fun needle => firstPlace needle text).map (· + 1)).min? =
          some (m + 1) := by
        refine List.min?_eq_some_iff.mpr ⟨List.mem_map_of_mem hm, ?_⟩
        intro k hk
        obtain ⟨j, hj, rfl⟩ := List.mem_map.mp hk
        exact Nat.succ_le_succ (hle j hj)
      rw [hsucc]
      rfl

end Search

end Albedo.Places
