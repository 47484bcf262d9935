import Mathlib.Data.List.Basic
import Mathlib.Tactic.SplitIfs
import Mathlib.Algebra.GroupWithZero.Nat

/-!
# Words of a text

A text is broken at its blanks, and put together again with one separator between the
words. A text that already has one separator between its words stays as it is.
-/
namespace Albedo.Words

variable {α : Type*}

theorem intercalate_cons (separator : α) (x : List α) (xs : List (List α)) :
    [separator].intercalate (x :: xs) = x ++ xs.flatMap fun y => separator :: y := by
  induction xs generalizing x with
  | nil => simp
  | cons y ys ih =>
      rw [List.intercalate_cons_cons, ih, List.flatMap_cons]
      simp

theorem mem_intercalate {separator a : α} {parts : List (List α)}
    (h : a ∈ [separator].intercalate parts) : a = separator ∨ ∃ part ∈ parts, a ∈ part := by
  cases parts with
  | nil => cases h
  | cons part parts =>
      rw [intercalate_cons, List.mem_append, List.mem_flatMap] at h
      rcases h with hhead | ⟨tail, htail, hmem⟩
      · exact .inr ⟨part, List.mem_cons_self, hhead⟩
      · rcases List.mem_cons.mp hmem with rfl | hmem
        · exact .inl rfl
        · exact .inr ⟨tail, List.mem_cons_of_mem _ htail, hmem⟩

variable {blank : α → Bool} {w s : List α}

structure Plain (blank : α → Bool) (w : List α) : Prop where
  not_empty : w ≠ []
  no_blank : ∀ c ∈ w, blank c = false

theorem Plain.append (hw : Plain blank w) (hs : ∀ c ∈ s, blank c = false) :
    Plain blank (w ++ s) where
  not_empty := List.append_ne_nil_of_left_ne_nil hw.not_empty s
  no_blank := fun c hc => (List.mem_append.mp hc).elim (hw.no_blank c) (hs c)

def words (blank : α → Bool) (s : List α) : List (List α) :=
  (s.splitOnP blank).filter fun w => !w.isEmpty

def collapse (blank : α → Bool) (separator : α) (s : List α) : List α :=
  [separator].intercalate (words blank s)

theorem not_mem_of_mem_splitOnP {part : List α} (h : part ∈ s.splitOnP blank) :
    ∀ c ∈ part, blank c = false := by
  induction s generalizing part with
  | nil =>
      obtain rfl : part = [] := by simpa using h
      exact fun c hc => absurd hc List.not_mem_nil
  | cons x s ih =>
      rw [List.splitOnP_cons_eq_if_modifyHead] at h
      split_ifs at h with hx
      · rcases List.mem_cons.mp h with rfl | hmem
        · exact fun c hc => absurd hc List.not_mem_nil
        · exact ih hmem
      · obtain ⟨first, others, hsplit⟩ := List.exists_cons_of_ne_nil (List.splitOnP_ne_nil blank s)
        rw [hsplit, List.modifyHead_cons] at h
        rcases List.mem_cons.mp h with rfl | hmem
        · intro c hc
          rcases List.mem_cons.mp hc with rfl | hc
          · simpa using hx
          · exact ih (hsplit ▸ List.mem_cons_self) c hc
        · exact ih (hsplit ▸ List.mem_cons_of_mem first hmem)

theorem words_plain (hw : Plain blank w) : words blank w = [w] := by
  have hne := hw.not_empty
  simp [words, List.splitOnP_eq_singleton hw.no_blank, hne]

theorem words_append_blank {b : α} (hw : Plain blank w) (hb : blank b = true) :
    words blank (w ++ b :: s) = w :: words blank s := by
  have hne := hw.not_empty
  simp [words, List.splitOnP_append_cons_of_forall_mem hw.no_blank b hb, hne]

theorem words_blank {b : α} (hb : blank b = true) : words blank (b :: s) = words blank s := by
  have hsplit : (b :: s).splitOnP blank = [] :: s.splitOnP blank :=
    List.splitOnP_append_cons_of_forall_mem (fun _ h => absurd h List.not_mem_nil) b hb s
  simp [words, hsplit]

theorem words_append {b : α} (t : List α) (hb : blank b = true) :
    words blank (s ++ b :: t) = words blank s ++ words blank t := by
  simp [words, List.splitOnP_append_cons s t hb]

theorem not_empty_of_mem_words (hw : w ∈ words blank s) : w ≠ [] := by
  have hkept := (List.mem_filter.mp hw).2
  rintro rfl
  simp at hkept

theorem length_splitOnP (blank : α → Bool) (s : List α) :
    ((s.splitOnP blank).map List.length).sum ≤ s.length := by
  induction s with
  | nil => simp
  | cons x s ih =>
      rw [List.splitOnP_cons_eq_if_modifyHead]
      split_ifs
      · simp only [List.map_cons, List.sum_cons, List.length_nil, List.length_cons]
        omega
      · obtain ⟨first, others, hsplit⟩ := List.exists_cons_of_ne_nil (List.splitOnP_ne_nil blank s)
        rw [hsplit] at ih ⊢
        simp only [List.modifyHead_cons, List.map_cons, List.sum_cons, List.length_cons] at ih ⊢
        omega

theorem length_words (blank : α → Bool) (s : List α) :
    ((words blank s).map List.length).sum ≤ s.length := by
  refine Nat.le_trans ?_ (length_splitOnP blank s)
  unfold words
  induction s.splitOnP blank with
  | nil => exact Nat.le_refl 0
  | cons part parts ih =>
      rw [List.filter_cons]
      split_ifs
      · simp only [List.map_cons, List.sum_cons]
        omega
      · simp only [List.map_cons, List.sum_cons]
        omega

inductive Spaced (blank : α → Bool) (separator : α) : List α → Prop
  | word {w : List α} : Plain blank w → Spaced blank separator w
  | cons {w s : List α} : Plain blank w → Spaced blank separator s →
      Spaced blank separator (w ++ separator :: s)

theorem Spaced.words_ne_nil {separator : α} (hseparator : blank separator = true)
    (hs : Spaced blank separator s) : words blank s ≠ [] := by
  cases hs with
  | word hplain =>
      rw [words_plain hplain]
      exact List.cons_ne_nil _ _
  | cons hplain _ =>
      rw [words_append_blank hplain hseparator]
      exact List.cons_ne_nil _ _

theorem Spaced.collapse_eq {separator : α} (hseparator : blank separator = true)
    (hs : Spaced blank separator s) : collapse blank separator s = s := by
  induction hs with
  | word hplain => rw [collapse, words_plain hplain, List.intercalate_singleton]
  | @cons w s hplain hrest ih =>
      rw [collapse] at ih ⊢
      rw [words_append_blank hplain hseparator,
        List.intercalate_cons_of_ne_nil (hrest.words_ne_nil hseparator), ih]
      simp

end Albedo.Words
