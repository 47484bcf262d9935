import Mathlib.Data.List.Basic

/-!
# Names made of parts

Two parts and a separator between them say which parts they were made of, as long as the
separator is in neither of the first parts, or in neither of the last.
-/
namespace Albedo.Separator

theorem append_separator_inj {α : Type*} {a : α} {xs ys xs' ys' : List α} (hxs : a ∉ xs)
    (hxs' : a ∉ xs') (h : xs ++ a :: ys = xs' ++ a :: ys') : xs = xs' ∧ ys = ys' := by
  induction xs generalizing xs' with
  | nil =>
      cases xs' with
      | nil => exact ⟨rfl, (List.cons.inj h).2⟩
      | cons x' xs' => exact absurd ((List.cons.inj h).1 ▸ List.mem_cons_self) hxs'
  | cons x xs ih =>
      cases xs' with
      | nil => exact absurd ((List.cons.inj h).1 ▸ List.mem_cons_self) hxs
      | cons x' xs' =>
          obtain ⟨rfl, htail⟩ := List.cons.inj h
          obtain ⟨rfl, hys⟩ := ih (fun hmem => hxs (List.mem_cons_of_mem _ hmem))
            (fun hmem => hxs' (List.mem_cons_of_mem _ hmem)) htail
          exact ⟨rfl, hys⟩

theorem append_last_separator_inj {α : Type*} {a : α} {xs ys xs' ys' : List α} (hys : a ∉ ys)
    (hys' : a ∉ ys') (h : xs ++ a :: ys = xs' ++ a :: ys') : xs = xs' ∧ ys = ys' := by
  have hreverse : ys.reverse ++ a :: xs.reverse = ys'.reverse ++ a :: xs'.reverse := by
    simpa using congrArg List.reverse h
  obtain ⟨hlast, hfirst⟩ := append_separator_inj (by simpa using hys) (by simpa using hys') hreverse
  exact ⟨List.reverse_injective hfirst, List.reverse_injective hlast⟩

/-! ### Splitting at one separator -/

section Split

variable {α : Type*} [DecidableEq α] {a : α} {l xs ys : List α}

/-- What stands before the first separator and what stands after it. -/
def splitOnce (a : α) : List α → Option (List α × List α)
  | [] => none
  | x :: l =>
      if x = a then some ([], l) else (splitOnce a l).map fun parts => (x :: parts.1, parts.2)

/-- What stands before the last separator and what stands after it. -/
def rsplitOnce (a : α) (l : List α) : Option (List α × List α) :=
  (splitOnce a l.reverse).map fun parts => (parts.2.reverse, parts.1.reverse)

theorem splitOnce_append (hxs : a ∉ xs) : splitOnce a (xs ++ a :: ys) = some (xs, ys) := by
  induction xs with
  | nil => simp [splitOnce]
  | cons x xs ih =>
      rw [List.mem_cons, not_or] at hxs
      obtain ⟨hx, htail⟩ := hxs
      simp [splitOnce, Ne.symm hx, ih htail]

theorem eq_append_of_splitOnce (h : splitOnce a l = some (xs, ys)) : l = xs ++ a :: ys ∧ a ∉ xs := by
  induction l generalizing xs with
  | nil => cases h
  | cons x l ih =>
      by_cases hx : x = a
      · rw [splitOnce, if_pos hx] at h
        obtain ⟨rfl, rfl⟩ := Prod.mk.inj (Option.some.inj h)
        exact ⟨by rw [hx]; rfl, List.not_mem_nil⟩
      · rw [splitOnce, if_neg hx, Option.map_eq_some_iff] at h
        obtain ⟨⟨before, after⟩, hsplit, heq⟩ := h
        obtain ⟨rfl, rfl⟩ := Prod.mk.inj heq
        obtain ⟨rfl, hbefore⟩ := ih hsplit
        exact ⟨rfl, List.not_mem_cons_of_ne_of_not_mem (Ne.symm hx) hbefore⟩

theorem length_lt_of_splitOnce (h : splitOnce a l = some (xs, ys)) : ys.length < l.length := by
  rw [(eq_append_of_splitOnce h).1, List.length_append, List.length_cons]
  omega

theorem length_splitOn (a : α) (l : List α) : (l.splitOn a).length = l.count a + 1 := by
  induction l with
  | nil => rfl
  | cons x l ih =>
      rw [List.splitOn_cons_eq_if_modifyHead, List.count_cons]
      split_ifs with hx
      · rw [List.length_cons, ih]
      · rw [List.length_modifyHead, ih]

theorem rsplitOnce_append (hys : a ∉ ys) : rsplitOnce a (xs ++ a :: ys) = some (xs, ys) := by
  have hreverse : (xs ++ a :: ys).reverse = ys.reverse ++ a :: xs.reverse := by simp
  rw [rsplitOnce, hreverse, splitOnce_append (by simpa using hys)]
  simp

end Split

/-! ### Searching -/

section Find

variable {α : Type*} {a : α} {needle tail text rest before body : List α}

/-- A needle whose first letter comes once in it reaches over no other such letter. -/
theorem prefix_append_mark {x : α} (ha : a ∉ tail) (h : a :: tail <+: (x :: text) ++ a :: rest) :
    a :: tail <+: x :: text := by
  obtain ⟨after, hafter⟩ := h
  rcases List.append_eq_append_iff.mp hafter with ⟨m, htext, -⟩ | ⟨m, hneedle, hm⟩
  · exact ⟨m, htext.symm⟩
  · cases m with
    | nil => exact ⟨[], by rw [hneedle, List.append_nil, List.append_nil]⟩
    | cons y m =>
        obtain ⟨rfl, -⟩ := List.cons.inj hm
        obtain ⟨-, rfl⟩ := List.cons.inj hneedle
        exact absurd (List.mem_append_right text List.mem_cons_self) ha

variable [DecidableEq α]

/-- What stands before the first place a text starts with the needle, and the text from there. -/
def find (needle : List α) : List α → Option (List α × List α)
  | [] => if needle = [] then some ([], []) else none
  | x :: l =>
      if needle <+: x :: l then some ([], x :: l)
      else (find needle l).map fun parts => (x :: parts.1, parts.2)

theorem find_at_start (h : needle <+: text) : find needle text = some ([], text) := by
  cases text with
  | nil => rw [find, if_pos (List.prefix_nil.mp h)]
  | cons x l => rw [find, if_pos h]

theorem find_append (ha : a ∉ tail) (htext : ¬ a :: tail <:+: text) :
    find (a :: tail) (text ++ a :: rest) =
      (find (a :: tail) (a :: rest)).map fun parts => (text ++ parts.1, parts.2) := by
  induction text with
  | nil => simp
  | cons x text ih =>
      have hhead : ¬ a :: tail <+: x :: (text ++ a :: rest) :=
        fun h => htext (prefix_append_mark ha h).isInfix
      have htail : ¬ a :: tail <:+: text := fun h => htext (h.trans (List.suffix_cons x text).isInfix)
      rw [List.cons_append, find, if_neg hhead, ih htail, Option.map_map]
      rfl

theorem find_eq_none (htext : ¬ needle <:+: text) : find needle text = none := by
  induction text with
  | nil =>
      have hneedle : needle ≠ [] := by
        rintro rfl
        exact htext List.infix_rfl
      rw [find, if_neg hneedle]
  | cons x text ih =>
      have hhead : ¬ needle <+: x :: text := fun h => htext h.isInfix
      have htail : ¬ needle <:+: text := fun h => htext (h.trans (List.suffix_cons x text).isInfix)
      rw [find, if_neg hhead, ih htail]
      rfl

theorem find_append_of_not_mem (ha : a ∉ text) :
    find (a :: tail) (text ++ rest) =
      (find (a :: tail) rest).map fun parts => (text ++ parts.1, parts.2) := by
  induction text with
  | nil => simp
  | cons x text ih =>
      rw [List.mem_cons, not_or] at ha
      obtain ⟨hx, htext⟩ := ha
      have hhead : ¬ a :: tail <+: x :: (text ++ rest) := by
        rintro ⟨after, h⟩
        exact hx (List.cons.inj h).1
      rw [List.cons_append, find, if_neg hhead, ih htext, Option.map_map]
      rfl

theorem find_cons_of_not {x : α} {l : List α} (h : ¬ needle <+: x :: l) :
    find needle (x :: l) = (find needle l).map fun parts => (x :: parts.1, parts.2) := by
  rw [find, if_neg h]

/-- A needle without a letter is not looked for across one. -/
theorem find_past (ha : a ∉ needle) (hne : needle ≠ []) (htext : ¬ needle <:+: text) :
    find needle (text ++ a :: rest) =
      (find needle rest).map fun parts => (text ++ a :: parts.1, parts.2) := by
  have hmark : ∀ text : List α, needle <+: text ++ a :: rest → needle <+: text := by
    rintro text ⟨after, h⟩
    rcases List.append_eq_append_iff.mp h with ⟨m, htext, -⟩ | ⟨m, hneedle, hm⟩
    · exact ⟨m, htext.symm⟩
    · cases m with
      | nil => exact ⟨[], by rw [hneedle, List.append_nil, List.append_nil]⟩
      | cons y m =>
          obtain ⟨rfl, -⟩ := List.cons.inj hm
          exact absurd (hneedle ▸ List.mem_append_right text List.mem_cons_self) ha
  induction text with
  | nil => exact find_cons_of_not fun h => hne (List.prefix_nil.mp (hmark [] h))
  | cons x text ih =>
      have hhead : ¬ needle <+: x :: (text ++ a :: rest) := fun h =>
        htext (hmark (x :: text) h).isInfix
      rw [List.cons_append, find_cons_of_not hhead,
        ih fun h => htext (h.trans (List.suffix_cons x text).isInfix), Option.map_map]
      rfl

/-- A needle that ends in a letter it does not hold otherwise is not found before the first of
these letters it could end in. -/
theorem find_past_last (hbody : a ∉ body) (htext : a ∉ text) (hend : ¬ body <:+ text) :
    find (body ++ [a]) (text ++ a :: rest) =
      (find (body ++ [a]) rest).map fun parts => (text ++ a :: parts.1, parts.2) := by
  have hmark : ∀ {text : List α}, a ∉ text → body ++ [a] <+: text ++ a :: rest → body = text := by
    rintro text htext ⟨after, h⟩
    rw [List.append_assoc] at h
    exact (append_separator_inj hbody htext h).1
  induction text with
  | nil => exact find_cons_of_not fun h => hend (hmark htext h ▸ List.suffix_rfl)
  | cons x text ih =>
      have hhead : ¬ body ++ [a] <+: x :: (text ++ a :: rest) := fun h =>
        hend (hmark htext h ▸ List.suffix_rfl)
      rw [List.cons_append, find_cons_of_not hhead, ih (fun h => htext (List.mem_cons_of_mem x h))
        fun h => hend (h.trans (List.suffix_cons x _)), Option.map_map]
      rfl

/-- A needle is found where it ends first. -/
theorem find_first (h : ¬ needle <:+: before ++ needle.dropLast) :
    find needle (before ++ (needle ++ rest)) = some (before, needle ++ rest) := by
  induction before with
  | nil => exact find_at_start (List.prefix_append needle rest)
  | cons x before ih =>
      have hhead : ¬ needle <+: x :: (before ++ (needle ++ rest)) := by
        intro hprefix
        have hsub : x :: (before ++ needle.dropLast) <+: x :: (before ++ (needle ++ rest)) :=
          (List.prefix_append_right_inj (x :: before)).mpr
            ((List.dropLast_prefix needle).trans (List.prefix_append needle rest))
        refine h (List.prefix_of_prefix_length_le hprefix hsub ?_).isInfix
        rw [List.length_cons, List.length_append, List.length_dropLast]
        omega
      rw [List.cons_append, find_cons_of_not hhead,
        ih fun hwithin => h (hwithin.trans (List.suffix_cons x _).isInfix)]
      rfl

/-- A needle that is somewhere is found there or before. -/
theorem find_le (needle before rest : List α) :
    ∃ found, find needle (before ++ (needle ++ rest)) = some found ∧
      found.1.length ≤ before.length ∧ found.1 ++ found.2 = before ++ (needle ++ rest) := by
  induction before with
  | nil => exact ⟨_, find_at_start (List.prefix_append needle rest), Nat.le_refl _, rfl⟩
  | cons x before ih =>
      by_cases h : needle <+: x :: (before ++ (needle ++ rest))
      · exact ⟨_, find_at_start h, Nat.zero_le _, rfl⟩
      · obtain ⟨found, hfind, hle, happend⟩ := ih
        refine ⟨(x :: found.1, found.2), ?_, Nat.succ_le_succ hle, congrArg (x :: ·) happend⟩
        rw [List.cons_append, find_cons_of_not h, hfind]
        rfl

end Find

def numbered (separator : Char) (name : String) (n : ℕ) : String :=
  name ++ separator.toString ++ toString n

theorem numbered_inj {separator : Char} (hseparator : separator.isDigit = false)
    {name name' : String} {n n' : ℕ} :
    numbered separator name n = numbered separator name' n' ↔ name = name' ∧ n = n' := by
  constructor
  · intro h
    have hdigits : ∀ m : ℕ, separator ∉ Nat.toDigits 10 m := by
      intro m hmem
      rw [Nat.isDigit_of_mem_toDigits (by decide) (by decide) hmem] at hseparator
      cases hseparator
    have hlist : name.toList ++ separator :: Nat.toDigits 10 n =
        name'.toList ++ separator :: Nat.toDigits 10 n' := by
      simpa [numbered, Nat.toString_eq_ofList_toDigits] using congrArg String.toList h
    obtain ⟨hname, hnumber⟩ := append_last_separator_inj (hdigits n) (hdigits n') hlist
    refine ⟨String.toList_inj.mp hname, ?_⟩
    rw [← Nat.ofDigitChars_ten_toDigits (n := n), hnumber, Nat.ofDigitChars_ten_toDigits]
  · rintro ⟨rfl, rfl⟩
    rfl

end Albedo.Separator
