import Mathlib.Data.Finset.Card
import Mathlib.Order.Interval.Finset.Nat
import Mathlib.Tactic.Common
import Mathlib.Tactic.Ring

/-!
# Bytes at addresses

Memory is a byte at each address. Words of eight bytes, the lowest first, are written to it and
read back, and stretches are copied and filled. Two stretches that do not meet are apart.
-/
namespace Albedo.Memory

abbrev Bytes := ℕ → UInt8

variable {m m' : Bytes} {a b n : ℕ}

def readWord (m : Bytes) (a : ℕ) : ℕ :=
  (m a).toNat + 2 ^ 8 * (m (a + 1)).toNat + 2 ^ 16 * (m (a + 2)).toNat +
    2 ^ 24 * (m (a + 3)).toNat + 2 ^ 32 * (m (a + 4)).toNat + 2 ^ 40 * (m (a + 5)).toNat +
      2 ^ 48 * (m (a + 6)).toNat + 2 ^ 56 * (m (a + 7)).toNat

def writeWord (m : Bytes) (a n : ℕ) : Bytes := fun x =>
  if a ≤ x ∧ x < a + 8 then UInt8.ofNat (n / 2 ^ (8 * (x - a))) else m x

/-- A stretch of one memory laid at another place. -/
def copy (m : Bytes) (src dst n : ℕ) : Bytes := fun x =>
  if dst ≤ x ∧ x < dst + n then m (src + (x - dst)) else m x

def fill (m : Bytes) (a : ℕ) (byte : UInt8) (n : ℕ) : Bytes := fun x =>
  if a ≤ x ∧ x < a + n then byte else m x

theorem readWord_congr (h : ∀ i < 8, m (a + i) = m' (a + i)) : readWord m a = readWord m' a := by
  have h0 : m a = m' a := h 0 (by omega)
  rw [readWord, readWord, h0, h 1 (by omega), h 2 (by omega), h 3 (by omega), h 4 (by omega),
    h 5 (by omega), h 6 (by omega), h 7 (by omega)]

theorem writeWord_apply_of_not (h : b < a ∨ a + 8 ≤ b) : writeWord m a n b = m b :=
  if_neg (by omega)

theorem writeWord_apply_toNat (m : Bytes) (a n : ℕ) {i : ℕ} (hi : i < 8) :
    (writeWord m a n (a + i)).toNat = n / 2 ^ (8 * i) % 2 ^ 8 := by
  rw [writeWord, if_pos (by omega), Nat.add_sub_cancel_left]
  exact UInt8.toNat_ofNat'

theorem readWord_writeWord (h : n < 2 ^ 64) : readWord (writeWord m a n) a = n := by
  have h0 : (writeWord m a n a).toNat = n % 2 ^ 8 := by
    simpa using writeWord_apply_toNat m a n (i := 0) (by omega)
  have hi := fun i (hi : i < 8) => writeWord_apply_toNat m a n hi
  rw [readWord, h0, hi 1 (by omega), hi 2 (by omega), hi 3 (by omega), hi 4 (by omega),
    hi 5 (by omega), hi 6 (by omega), hi 7 (by omega)]
  simp only [Nat.reducePow, Nat.reduceMul]
  omega

/-! ### Stretches that are apart -/

structure Span where
  start : ℕ
  stop : ℕ

namespace Span

def Apart (s t : Span) : Prop := s.stop ≤ t.start ∨ t.stop ≤ s.start

instance (s t : Span) : Decidable (s.Apart t) := inferInstanceAs (Decidable (_ ∨ _))

theorem Apart.symm {s t : Span} (h : s.Apart t) : t.Apart s := Or.symm h

def addresses (s : Span) : Finset ℕ := Finset.Ico s.start s.stop

theorem Apart.disjoint {s t : Span} (h : s.Apart t) : Disjoint s.addresses t.addresses := by
  rw [Finset.disjoint_left]
  intro x hs ht
  rw [addresses, Finset.mem_Ico] at hs ht
  rcases h with h | h <;> omega

theorem sum_le_of_pairwise {l : List Span} {bound : ℕ} (hl : l.Pairwise Apart)
    (hbound : ∀ s ∈ l, s.stop ≤ bound) : (l.map fun s => s.stop - s.start).sum ≤ bound := by
  have hcard : ∃ used : Finset ℕ, (∀ x ∈ used, ∃ s ∈ l, x ∈ s.addresses) ∧
      used.card = (l.map fun s => s.stop - s.start).sum := by
    clear hbound
    induction hl with
    | nil => exact ⟨∅, fun x hx => absurd hx (Finset.notMem_empty x), rfl⟩
    | @cons s l hs _ ih =>
        obtain ⟨used, hused, hcard⟩ := ih
        have hdisjoint : Disjoint s.addresses used := by
          rw [Finset.disjoint_left]
          intro x hx hxu
          obtain ⟨t, ht, hxt⟩ := hused x hxu
          exact Finset.disjoint_left.mp (hs t ht).disjoint hx hxt
        refine ⟨s.addresses ∪ used, fun x hx => ?_, ?_⟩
        · rcases Finset.mem_union.mp hx with hx | hx
          · exact ⟨s, List.mem_cons_self, hx⟩
          · obtain ⟨t, ht, hxt⟩ := hused x hx
            exact ⟨t, List.mem_cons_of_mem s ht, hxt⟩
        · rw [Finset.card_union_of_disjoint hdisjoint, hcard, addresses, Nat.card_Ico,
            List.map_cons, List.sum_cons]
  obtain ⟨used, hused, hcard⟩ := hcard
  rw [← hcard]
  calc used.card ≤ (Finset.range bound).card := by
        refine Finset.card_le_card fun x hx => ?_
        obtain ⟨s, hs, hxs⟩ := hused x hx
        have hstop := hbound s hs
        rw [addresses, Finset.mem_Ico] at hxs
        exact Finset.mem_range.mpr (by omega)
    _ = bound := Finset.card_range bound

end Span

end Albedo.Memory
