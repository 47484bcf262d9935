import Mathlib.Data.List.Basic
import Mathlib.Data.Nat.Notation
import Mathlib.Tactic.Common
import Mathlib.Tactic.SplitIfs

/-!
# Texts in UTF-16

A character is one code unit, or two surrogates where it lies beyond the first plane. Units below
the surrogates are characters of their own.
-/
namespace Albedo.Utf16

def units (c : Char) : List ℕ :=
  if c.toNat < 0x10000 then [c.toNat]
  else [0xD800 + (c.toNat - 0x10000) / 0x400, 0xDC00 + (c.toNat - 0x10000) % 0x400]

def encode (text : List Char) : List ℕ := text.flatMap units

variable {c : Char} {text rest : List Char}

@[simp] theorem encode_nil : encode [] = [] := rfl

@[simp] theorem encode_cons (c : Char) (text : List Char) :
    encode (c :: text) = units c ++ encode text := rfl

theorem units_ne_nil (c : Char) : units c ≠ [] := by
  unfold units
  split_ifs <;> simp

theorem units_of_lt (h : c.toNat < 0x10000) : units c = [c.toNat] := if_pos h

theorem le_of_mem_units {bound u : ℕ} (hbound : bound ≤ 0xD800) (hc : bound ≤ c.toNat)
    (hu : u ∈ units c) : bound ≤ u := by
  unfold units at hu
  split_ifs at hu
  · rwa [List.mem_singleton.mp hu]
  · simp only [List.mem_cons, List.not_mem_nil, or_false] at hu
    omega

/-- What is dropped from the front of the units is dropped from the front of the text. -/
theorem dropWhile_encode (bound : ℕ) {p : ℕ → Bool} (hbound : bound ≤ 0xD800)
    (hp : ∀ u, bound ≤ u → p u = false) (text : List Char) :
    (encode text).dropWhile p = encode (text.dropWhile fun c => p c.toNat) := by
  induction text with
  | nil => rfl
  | cons c text ih =>
      by_cases hc : p c.toNat = true
      · have hlow : c.toNat < bound := by
          by_contra hle
          rw [hp _ (Nat.le_of_not_lt hle)] at hc
          cases hc
        rw [encode_cons, units_of_lt (by omega), List.singleton_append,
          List.dropWhile_cons_of_pos hc, ih, List.dropWhile_cons_of_pos (a := c) hc]
      · rw [List.dropWhile_cons_of_neg (a := c) hc]
        obtain ⟨u, us, hunits⟩ := List.exists_cons_of_ne_nil (units_ne_nil c)
        have hu : ¬ p u = true := by
          by_cases hlow : c.toNat < 0x10000
          · rw [units_of_lt hlow] at hunits
            rwa [← (List.cons.inj hunits).1]
          · rw [hp u (le_of_mem_units hbound (by omega) (hunits ▸ List.mem_cons_self))]
            exact Bool.false_ne_true
        rw [encode_cons, hunits, List.cons_append, List.dropWhile_cons_of_neg hu]

theorem filter_encode (bound : ℕ) {p : ℕ → Bool} (hbound : bound ≤ 0xD800)
    (hp : ∀ u, bound ≤ u → p u = true) (text : List Char) :
    (encode text).filter p = encode (text.filter fun c => p c.toNat) := by
  induction text with
  | nil => rfl
  | cons c text ih =>
      rw [encode_cons, List.filter_append, ih, List.filter_cons]
      by_cases hlow : c.toNat < bound
      · have hunits : units c = [c.toNat] := units_of_lt (by omega)
        rw [hunits, List.filter_singleton]
        cases p c.toNat with
        | true => rw [if_pos rfl, encode_cons, hunits]; rfl
        | false => rfl
      · have hall : (units c).filter p = units c := List.filter_eq_self.mpr fun u hu =>
          hp u (le_of_mem_units hbound (Nat.le_of_not_lt hlow) hu)
        rw [hall, if_pos (hp _ (Nat.le_of_not_lt hlow)), encode_cons]

/-- A text of ASCII begins the units exactly when it begins the text, as both are read. -/
theorem prefix_map_encode_iff {f : ℕ → ℕ} {g : Char → Char}
    (hlow : ∀ c : Char, c.toNat < 128 → f c.toNat = (g c).toNat ∧ (g c).toNat < 128)
    (hhigh : ∀ u, 128 ≤ u → 128 ≤ f u) (hhigh' : ∀ c : Char, 128 ≤ c.toNat → 128 ≤ (g c).toNat)
    {pattern : List Char} (hpattern : ∀ c ∈ pattern, c.toNat < 128) :
    pattern.map Char.toNat <+: (encode text).map f ↔ pattern <+: text.map g := by
  induction pattern generalizing text with
  | nil => simp
  | cons a pattern ih =>
      rw [List.forall_mem_cons] at hpattern
      obtain ⟨ha, hpattern⟩ := hpattern
      cases text with
      | nil => simp
      | cons c text =>
          by_cases hc : c.toNat < 128
          · rw [encode_cons, units_of_lt (by omega), List.singleton_append, List.map_cons,
              List.map_cons, List.map_cons, List.cons_prefix_cons, List.cons_prefix_cons,
              ih hpattern, (hlow c hc).1, Char.toNat_inj]
          · obtain ⟨u, us, hunits⟩ := List.exists_cons_of_ne_nil (units_ne_nil c)
            have hu := hhigh u (le_of_mem_units (c := c) (by omega) (Nat.le_of_not_lt hc)
              (hunits ▸ List.mem_cons_self))
            have hg := hhigh' c (Nat.le_of_not_lt hc)
            rw [encode_cons, hunits, List.cons_append, List.map_cons, List.map_cons, List.map_cons,
              List.cons_prefix_cons, List.cons_prefix_cons]
            refine iff_of_false (fun h => ?_) (fun h => ?_)
            · omega
            · rw [← h.1] at hg
              omega

end Albedo.Utf16
