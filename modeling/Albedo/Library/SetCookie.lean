import Albedo.Library.Separator
import Albedo.Library.Trim

/-!
# How a browser reads a cookie it is given

A cookie is the text before the first semicolon, and its name what stands before the first equals
sign. A cookie without a name is kept all the same, and sent back as its value alone: whoever reads
that finds a name in front of the value's own equals sign.
-/
namespace Albedo.SetCookie
open Separator

def isBlank (c : Char) : Bool := c = ' ' || c = '\t'

def strip (text : List Char) : List Char := (text.dropWhile isBlank).rdropWhile isBlank

/-- A control character other than a tab. A cookie with one is not kept. -/
def isControl (c : Char) : Bool := (c.toNat < 0x20 && c ≠ '\t') || c.toNat = 0x7F

def pair (value : List Char) : List Char := value.takeWhile (· ≠ ';')

/-- The value of a cookie that is given no name, and has an equals sign in front. -/
def namelessValue (value : List Char) : Option (List Char) :=
  match splitOnce '=' (pair value) with
  | some (name, rest) => if strip name = [] then some (strip rest) else none
  | none => none

def readName (value : List Char) : List Char :=
  match splitOnce '=' (pair value) with
  | none => strip (pair value)
  | some (name, rest) =>
      if strip name = [] then (strip rest).takeWhile (· ≠ '=') else strip name

def storedName (value : List Char) : Option (List Char) :=
  if value.any isControl then none else some (readName value)

/-! ### Names that begin with a prefix -/

theorem dropWhile_eq_of_head {α : Type*} {p q : α → Bool} (hpq : ∀ a, p a = true → q a = true)
    {l : List α} {a : α} (hhead : (l.dropWhile p).head? = some a) (ha : q a = false) :
    l.dropWhile q = l.dropWhile p := by
  induction l with
  | nil => rfl
  | cons b l ih =>
      by_cases hb : p b = true
      · rw [List.dropWhile_cons_of_pos hb] at hhead ⊢
        rw [List.dropWhile_cons_of_pos (hpq b hb)]
        exact ih hhead
      · rw [List.dropWhile_cons_of_neg hb] at hhead ⊢
        obtain rfl := Option.some.inj hhead
        rw [List.dropWhile_cons_of_neg (by rw [ha]; decide)]

theorem dropWhile_starts {α : Type*} {p : α → Bool} {l l' : List α} (h : l <+: l')
    (hne : l.dropWhile p ≠ []) : l.dropWhile p <+: l'.dropWhile p := by
  obtain ⟨rest, rfl⟩ := h
  rw [List.dropWhile_append, if_neg (by simpa using hne)]
  exact List.prefix_append _ _

theorem prefix_takeWhile {α : Type*} {p : α → Bool} {l l' : List α} (h : l <+: l')
    (hl : ∀ a ∈ l, p a = true) : l <+: l'.takeWhile p := by
  obtain ⟨rest, rfl⟩ := h
  rw [List.takeWhile_append_of_pos hl]
  exact List.prefix_append _ _

variable {a : Char} {start value text : List Char}

/-- A text that is stripped to a prefix of no blanks begins with it after any blanks. -/
theorem prefix_of_strip (ha : Trim.isWhitespace a = false) (h : a :: start <+: strip text)
    (htext : text <+: value) : a :: start <+: value.dropWhile Trim.isWhitespace := by
  have hdrop : a :: start <+: text.dropWhile isBlank :=
    h.trans (List.rdropWhile_prefix isBlank _)
  have hne : text.dropWhile isBlank ≠ [] := by
    intro hnil
    rw [hnil] at hdrop
    exact absurd (List.prefix_nil.mp hdrop) (List.cons_ne_nil a start)
  have hvalue : a :: start <+: value.dropWhile isBlank := hdrop.trans (dropWhile_starts htext hne)
  have hblank : ∀ c, isBlank c = true → Trim.isWhitespace c = true := by
    intro c hc
    simp only [isBlank, Bool.or_eq_true, decide_eq_true_eq] at hc
    rcases hc with rfl | rfl <;> decide
  have hhead : (value.dropWhile isBlank).head? = some a := by
    obtain ⟨rest, hrest⟩ := hvalue
    rw [← hrest]
    rfl
  rw [dropWhile_eq_of_head hblank hhead ha]
  exact hvalue

/-- Past a check of what a cookie begins with, only one without a name is read back under a name
with that prefix. -/
theorem readName_iff_nameless (ha : Trim.isWhitespace a = false) (hstart : '=' ∉ a :: start)
    (hcheck : ¬ a :: start <+: value.dropWhile Trim.isWhitespace) :
    a :: start <+: readName value ↔
      ∃ rest, namelessValue value = some rest ∧ a :: start <+: rest := by
  have hpair : pair value <+: value := List.takeWhile_prefix _
  unfold readName namelessValue
  cases hsplit : splitOnce '=' (pair value) with
  | none =>
      refine iff_of_false (fun h => hcheck (prefix_of_strip ha h hpair)) ?_
      rintro ⟨rest, hrest, -⟩
      cases hrest
  | some parts =>
      obtain ⟨name, rest⟩ := parts
      have hname : name <+: value := by
        rw [(eq_append_of_splitOnce hsplit).1] at hpair
        exact (List.prefix_append _ _).trans hpair
      dsimp only
      split_ifs with hempty
      · have hplain : ∀ c ∈ a :: start, decide (c ≠ '=') = true := fun c hc => by
          rw [decide_eq_true_eq]
          rintro rfl
          exact hstart hc
        constructor
        · exact fun h => ⟨_, rfl, h.trans (List.takeWhile_prefix _)⟩
        · rintro ⟨_, hrest, h⟩
          obtain rfl := Option.some.inj hrest
          exact prefix_takeWhile h hplain
      · refine iff_of_false (fun h => hcheck (prefix_of_strip ha h hname)) ?_
        rintro ⟨rest, hrest, -⟩
        cases hrest

end Albedo.SetCookie
