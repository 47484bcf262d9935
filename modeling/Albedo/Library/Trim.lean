import Mathlib.Data.List.DropRight

/-!
# Blanks around a text

A text without the blanks before and after it.
-/
namespace Albedo.Trim

/-- The characters with the Unicode property `White_Space`. -/
def isWhitespace (c : Char) : Bool :=
  let n := c.toNat
  9 ≤ n ∧ n ≤ 13 ∨ n = 32 ∨ n = 0x85 ∨ n = 0xA0 ∨ n = 0x1680 ∨ 0x2000 ≤ n ∧ n ≤ 0x200A ∨
    n = 0x2028 ∨ n = 0x2029 ∨ n = 0x202F ∨ n = 0x205F ∨ n = 0x3000

def trim (text : List Char) : List Char :=
  (text.dropWhile isWhitespace).rdropWhile isWhitespace

theorem mem_dropWhile {α : Type*} {p : α → Bool} {a : α} {l : List α} (ha : a ∈ l)
    (hp : p a = false) : a ∈ l.dropWhile p := by
  rw [← List.takeWhile_append_dropWhile (p := p) (l := l), List.mem_append] at ha
  rcases ha with htake | hdrop
  · rw [List.mem_takeWhile_imp htake] at hp
    cases hp
  · exact hdrop

theorem mem_trim {c : Char} {text : List Char} (hc : c ∈ text) (hblank : isWhitespace c = false) :
    c ∈ trim text := by
  rw [trim, List.rdropWhile, List.mem_reverse]
  exact mem_dropWhile (List.mem_reverse.mpr (mem_dropWhile hc hblank)) hblank

theorem trim_within (text : List Char) : trim text <:+: text :=
  (List.rdropWhile_prefix isWhitespace _).isInfix.trans (List.dropWhile_suffix isWhitespace).isInfix

theorem head?_rdropWhile_dropWhile {α : Type*} (p : α → Bool) (l : List α) :
    ((l.dropWhile p).rdropWhile p).head? = (l.dropWhile p).head? := by
  cases hdrop : l.dropWhile p with
  | nil => rfl
  | cons a rest =>
      have ha : p a = false := by
        have hhead := List.head?_dropWhile_not p l
        rw [hdrop] at hhead
        simpa using hhead
      obtain ⟨dropped, hprefix⟩ := List.rdropWhile_prefix p (a :: rest)
      cases hr : (a :: rest).rdropWhile p with
      | nil =>
          have hall := List.rdropWhile_eq_nil_iff.mp hr a List.mem_cons_self
          rw [ha] at hall
          cases hall
      | cons b more =>
          rw [hr] at hprefix
          exact congrArg some (List.cons.inj hprefix).1

theorem trim_blank_cons {b : Char} {text : List Char} (hb : isWhitespace b = true)
    (hhead : ∀ c ∈ text.head?, isWhitespace c = false)
    (hlast : ∀ c ∈ text.getLast?, isWhitespace c = false) : trim (b :: text) = text := by
  have hdrop : (b :: text).dropWhile isWhitespace = text := by
    rw [List.dropWhile_cons_of_pos hb]
    cases text with
    | nil => rfl
    | cons c text =>
        have hc : ¬ isWhitespace c = true := by simpa using hhead c rfl
        exact List.dropWhile_cons_of_neg hc
  rw [trim, hdrop]
  cases htext : text.getLast? with
  | none =>
      rw [List.getLast?_eq_none_iff.mp htext]
      rfl
  | some c =>
      obtain ⟨front, rfl⟩ := List.getLast?_eq_some_iff.mp htext
      have hc : ¬ isWhitespace c = true := by simpa using hlast c htext
      exact List.rdropWhile_concat_neg isWhitespace front c hc

end Albedo.Trim
