import Mathlib.Data.List.Nodup
import Mathlib.Logic.Function.Basic
import Albedo.Library.Bits

/-!
# The dirty bitmap

One bit for each slot, in words of 64. Marks set bits and a drain takes a word's bits at once.
Two columns of hashes are compared four at a time, and what differs is collected into a word
before it is written.
-/
namespace Albedo.Dirty
open Bits

abbrev Word := BitVec 64

def bitsPerWord : ℕ := 64

/-- The words past the last are never read or written. -/
structure DirtyBitmap where
  capacity : ℕ
  capacity_lt : capacity < 2 ^ 64
  bits : ℕ → Word

def withCapacity (capacity : ℕ) (h : capacity < 2 ^ 64) : DirtyBitmap := ⟨capacity, h, fun _ => 0⟩

namespace DirtyBitmap

def wordCount (bitmap : DirtyBitmap) : ℕ := max ((bitmap.capacity + 63) / bitsPerWord) 1

/-- The word with what `fetch_or` adds to it. -/
def fetchOr (bitmap : DirtyBitmap) (word : ℕ) (mask : Word) : DirtyBitmap :=
  { bitmap with bits := Function.update bitmap.bits word (bitmap.bits word ||| mask) }

def mark (bitmap : DirtyBitmap) (idx : ℕ) : DirtyBitmap × Bool :=
  if bitmap.capacity ≤ idx then (bitmap, false)
  else
    let bit := 1#64 <<< (idx % bitsPerWord)
    let prev := bitmap.bits (idx / bitsPerWord)
    (bitmap.fetchOr (idx / bitsPerWord) bit, prev &&& bit == 0)

def orWord (bitmap : DirtyBitmap) (wordIdx : ℕ) (mask : Word) : DirtyBitmap :=
  if wordIdx < bitmap.wordCount then bitmap.fetchOr wordIdx mask else bitmap

/-- `swap(0)` of one word. -/
def takeWord (bitmap : DirtyBitmap) (word : ℕ) : DirtyBitmap :=
  { bitmap with bits := Function.update bitmap.bits word 0 }

def slotsOf (bitmap : DirtyBitmap) (word : ℕ) : List ℕ :=
  ((popBits bitsPerWord (bitmap.bits word)).map (word * bitsPerWord + ·)).filter
    (· < bitmap.capacity)

def isSet (bitmap : DirtyBitmap) (idx : ℕ) : Bool :=
  (bitmap.bits (idx / bitsPerWord)).getLsbD (idx % bitsPerWord)

variable {bitmap : DirtyBitmap} {idx i word : ℕ} {mask : Word}

@[simp] theorem capacity_mark : (bitmap.mark idx).1.capacity = bitmap.capacity := by
  unfold mark
  split_ifs <;> rfl

@[simp] theorem capacity_orWord : (bitmap.orWord word mask).capacity = bitmap.capacity := by
  unfold orWord
  split_ifs <;> rfl

theorem isSet_fetchOr : (bitmap.fetchOr word mask).isSet i =
    (bitmap.isSet i || (decide (i / bitsPerWord = word) && mask.getLsbD (i % bitsPerWord))) := by
  unfold isSet fetchOr
  by_cases h : i / bitsPerWord = word
  · subst h
    simp [BitVec.getLsbD_or]
  · simp [h]

theorem getLsbD_bit (i idx : ℕ) : (1#64 <<< (idx % bitsPerWord)).getLsbD (i % bitsPerWord) =
    decide (i % bitsPerWord = idx % bitsPerWord) := by
  have hi : i % bitsPerWord < 64 := Nat.mod_lt i (by decide)
  simp only [BitVec.getLsbD_shiftLeft, BitVec.getLsbD_one, hi, decide_true, Bool.true_and]
  rcases Nat.lt_trichotomy (i % bitsPerWord) (idx % bitsPerWord) with h | h | h
  · simp [h, Nat.ne_of_lt h]
  · simp [h]
  · have hne : i % bitsPerWord - idx % bitsPerWord ≠ 0 := by omega
    simp [hne, Nat.ne_of_gt h]

theorem isSet_mark (hidx : idx < bitmap.capacity) :
    (bitmap.mark idx).1.isSet i = (bitmap.isSet i || decide (i = idx)) := by
  have hslot : (i / bitsPerWord = idx / bitsPerWord ∧ i % bitsPerWord = idx % bitsPerWord) ↔
      i = idx := by
    unfold bitsPerWord
    omega
  rw [mark, if_neg (Nat.not_le.mpr hidx), isSet_fetchOr, getLsbD_bit, ← Bool.decide_and]
  simp only [hslot]

theorem mark_fresh (hidx : idx < bitmap.capacity) :
    (bitmap.mark idx).2 = true ↔ ¬ bitmap.isSet idx = true := by
  have hlt : idx % bitsPerWord < 64 := Nat.mod_lt idx (by decide)
  rw [mark, if_neg (Nat.not_le.mpr hidx)]
  simp only [isSet, ← BitVec.twoPow_eq, BitVec.and_twoPow, beq_iff_eq]
  by_cases hset : (bitmap.bits (idx / bitsPerWord)).getLsbD (idx % bitsPerWord) = true
  · rw [if_pos hset]
    refine iff_of_false (fun hzero => ?_) (not_not_intro hset)
    have hbit : (BitVec.twoPow 64 (idx % bitsPerWord)).getLsbD (idx % bitsPerWord) = true := by
      simp [BitVec.getLsbD_twoPow, hlt]
    rw [hzero] at hbit
    simp at hbit
  · rw [if_neg hset]
    exact iff_of_true rfl hset

theorem mark_of_le (hidx : bitmap.capacity ≤ idx) : (bitmap.mark idx).1 = bitmap := by
  rw [mark, if_pos hidx]

theorem isSet_takeWord : (bitmap.takeWord word).isSet i =
    (bitmap.isSet i && decide (i / bitsPerWord ≠ word)) := by
  unfold isSet takeWord
  by_cases h : i / bitsPerWord = word
  · subst h
    simp
  · simp [h]

theorem div_lt_wordCount (h : idx < bitmap.capacity) : idx / bitsPerWord < bitmap.wordCount := by
  unfold wordCount bitsPerWord
  omega

theorem isSet_orWord (hi : i < bitmap.capacity) : (bitmap.orWord word mask).isSet i =
    (bitmap.isSet i || (decide (i / bitsPerWord = word) && mask.getLsbD (i % bitsPerWord))) := by
  unfold orWord
  split_ifs with hword
  · exact isSet_fetchOr
  · have hne : i / bitsPerWord ≠ word := by
      rintro rfl
      exact hword (div_lt_wordCount hi)
    simp [hne]

theorem mem_slotsOf :
    i ∈ bitmap.slotsOf word ↔ i < bitmap.capacity ∧ i / bitsPerWord = word ∧ bitmap.isSet i := by
  have hspec := (popBits_spec bitsPerWord (x := bitmap.bits word) (by simp [bitsPerWord])).1
  simp only [slotsOf, List.mem_filter, List.mem_map, hspec, decide_eq_true_eq, isSet]
  constructor
  · rintro ⟨⟨b, hb, rfl⟩, hlt⟩
    have hb64 : b < 64 := by
      by_contra hge
      rw [BitVec.getLsbD_of_ge _ _ (by omega)] at hb
      cases hb
    have hdiv : (word * bitsPerWord + b) / bitsPerWord = word := by
      unfold bitsPerWord
      omega
    have hmod : (word * bitsPerWord + b) % bitsPerWord = b := by
      unfold bitsPerWord
      omega
    rw [hdiv, hmod]
    exact ⟨hlt, rfl, hb⟩
  · rintro ⟨hlt, rfl, hset⟩
    exact ⟨⟨i % bitsPerWord, hset, by unfold bitsPerWord; omega⟩, hlt⟩

theorem nodup_slotsOf : (bitmap.slotsOf word).Nodup := by
  have hspec := (popBits_spec bitsPerWord (x := bitmap.bits word) (by simp [bitsPerWord])).2
  have hnodup : (popBits bitsPerWord (bitmap.bits word)).Nodup := hspec.imp Nat.ne_of_lt
  exact (List.Nodup.map (fun a b h => Nat.add_left_cancel h) hnodup).filter _

def orWords (bitmap : DirtyBitmap) (words : List (ℕ × Word)) : DirtyBitmap :=
  words.foldl (fun b w => b.orWord w.1 w.2) bitmap

theorem isSet_orWords (words : List (ℕ × Word)) (hi : i < bitmap.capacity) :
    (bitmap.orWords words).isSet i = true ↔ bitmap.isSet i = true ∨
      ∃ m, (i / bitsPerWord, m) ∈ words ∧ m.getLsbD (i % bitsPerWord) = true := by
  induction words generalizing bitmap with
  | nil => simp [orWords]
  | cons w words ih =>
      change ((bitmap.orWord w.1 w.2).orWords words).isSet i = true ↔ _
      rw [ih (by simpa using hi), isSet_orWord hi]
      obtain ⟨w, m⟩ := w
      simp only [Bool.or_eq_true, Bool.and_eq_true, decide_eq_true_eq, List.mem_cons,
        Prod.mk.injEq, or_assoc]
      refine or_congr_right ⟨?_, ?_⟩
      · rintro (⟨hw, hm⟩ | ⟨m', hm', hbit⟩)
        · exact ⟨m, .inl ⟨hw, rfl⟩, hm⟩
        · exact ⟨m', .inr hm', hbit⟩
      · rintro ⟨m', ⟨hw, rfl⟩ | hm', hbit⟩
        · exact .inl ⟨hw, hbit⟩
        · exact .inr ⟨m', hm', hbit⟩

end DirtyBitmap

/-! ### Comparing hashes -/

/-- `saturating_add` of two sizes. -/
def satAdd (a b : ℕ) : ℕ := min (a + b) (2 ^ 64 - 1)

/-- How many differ so far, the word that is collected and what of it, and the words written. -/
structure Diff where
  total : ℕ
  curWord : ℕ
  curMask : Word
  written : List (ℕ × Word)

def Diff.flush (d : Diff) : List (ℕ × Word) :=
  if d.curMask = 0 then d.written else d.written ++ [(d.curWord, d.curMask)]

def Diff.mark (d : Diff) (global : ℕ) : Diff :=
  let wordIdx := global / bitsPerWord
  let bit := 1#64 <<< (global % bitsPerWord)
  if wordIdx = d.curWord then
    { d with curMask := d.curMask ||| bit, total := satAdd d.total 1 }
  else ⟨satAdd d.total 1, wordIdx, 0 ||| bit, d.flush⟩

def Diff.compare (d : Diff) (global : ℕ) (old new : UInt64) : Diff :=
  if old = new then d else d.mark global

/-- One at a time, until one of the columns ends. -/
def tailLoop (startIdx : ℕ) : ℕ → List UInt64 → List UInt64 → Diff → Diff
  | i, a :: old, b :: new, d =>
      tailLoop startIdx (i + 1) old new (d.compare (satAdd startIdx i) a b)
  | _, _, _, d => d

/-- Four at a time, while both columns have four. -/
def chunkLoop (startIdx : ℕ) : ℕ → List UInt64 → List UInt64 → Diff → Diff
  | i, a :: b :: c :: e :: old, a' :: b' :: c' :: e' :: new, d =>
      let lane := fun k => satAdd (satAdd startIdx i) k
      chunkLoop startIdx (i + 4) old new
        ((((d.compare (lane 0) a a').compare (lane 1) b b').compare (lane 2) c c').compare
          (lane 3) e e')
  | i, old, new, d => tailLoop startIdx i old new d

/-- The words that are written, and how many slots differ. -/
def hashDiff (old new : List UInt64) (startIdx : ℕ) : List (ℕ × Word) × ℕ :=
  if min old.length new.length = 0 then ([], 0)
  else
    let d := chunkLoop startIdx 0 old new ⟨0, startIdx / bitsPerWord, 0, []⟩
    (d.flush, d.total)

def hashDiffIntoBitmapAt (old new : List UInt64) (bitmap : DirtyBitmap) (startIdx : ℕ) :
    DirtyBitmap × ℕ :=
  (bitmap.orWords (hashDiff old new startIdx).1, (hashDiff old new startIdx).2)

theorem chunkLoop_eq (startIdx i : ℕ) (old new : List UInt64) (d : Diff) :
    chunkLoop startIdx i old new d = tailLoop startIdx i old new d := by
  have hlane (i k : ℕ) : satAdd (satAdd startIdx i) k = satAdd startIdx (i + k) := by
    unfold satAdd
    omega
  induction i, old, new, d using chunkLoop.induct startIdx with
  | case1 i a b c e old a' b' c' e' new d lane ih =>
      rw [chunkLoop, ih]
      simp only [tailLoop, lane, hlane, Nat.add_zero, Nat.add_assoc, Nat.reduceAdd]
  | case2 i old new d h => rw [chunkLoop]; exact h

def Diff.Has (d : Diff) (g : ℕ) : Prop :=
  ∃ m, (g / bitsPerWord, m) ∈ d.flush ∧ m.getLsbD (g % bitsPerWord) = true

theorem Diff.has_iff {d : Diff} {g : ℕ} : d.Has g ↔
    (∃ m, (g / bitsPerWord, m) ∈ d.written ∧ m.getLsbD (g % bitsPerWord) = true) ∨
      g / bitsPerWord = d.curWord ∧ d.curMask.getLsbD (g % bitsPerWord) = true := by
  unfold Diff.Has Diff.flush
  split_ifs with hmask
  · simp [hmask]
  · simp only [List.mem_append, List.mem_singleton, Prod.mk.injEq]
    constructor
    · rintro ⟨m, hm | ⟨hw, rfl⟩, hbit⟩
      · exact .inl ⟨m, hm, hbit⟩
      · exact .inr ⟨hw, hbit⟩
    · rintro (⟨m, hm, hbit⟩ | ⟨hw, hbit⟩)
      · exact ⟨m, .inl hm, hbit⟩
      · exact ⟨_, .inr ⟨hw, rfl⟩, hbit⟩

theorem Diff.has_mark {d : Diff} {g global : ℕ} :
    (d.mark global).Has g ↔ d.Has g ∨ g = global := by
  have hslot : g = global ↔
      g / bitsPerWord = global / bitsPerWord ∧ g % bitsPerWord = global % bitsPerWord := by
    unfold bitsPerWord
    omega
  rw [hslot]
  by_cases hword : global / bitsPerWord = d.curWord
  · have hmark : d.mark global = { d with
        curMask := d.curMask ||| 1#64 <<< (global % bitsPerWord), total := satAdd d.total 1 } :=
      if_pos hword
    rw [hmark, Diff.has_iff, Diff.has_iff, or_assoc]
    refine or_congr_right ?_
    simp only [BitVec.getLsbD_or, DirtyBitmap.getLsbD_bit, Bool.or_eq_true, decide_eq_true_eq,
      hword]
    tauto
  · have hmark : d.mark global = ⟨satAdd d.total 1, global / bitsPerWord,
        0 ||| 1#64 <<< (global % bitsPerWord), d.flush⟩ := if_neg hword
    rw [hmark, Diff.has_iff]
    refine or_congr_right ?_
    have hor : (0 : Word) ||| 1#64 <<< (global % bitsPerWord) = 1#64 <<< (global % bitsPerWord) :=
      BitVec.zero_or
    rw [hor, DirtyBitmap.getLsbD_bit, decide_eq_true_eq]

theorem has_tailLoop {startIdx i g : ℕ} {old new : List UInt64} {d : Diff} :
    (tailLoop startIdx i old new d).Has g ↔ d.Has g ∨
      ∃ k a b, old[k]? = some a ∧ new[k]? = some b ∧ a ≠ b ∧ g = satAdd startIdx (i + k) := by
  induction old generalizing i new d with
  | nil => simp [tailLoop]
  | cons a old ih =>
      cases new with
      | nil => simp [tailLoop]
      | cons b new =>
          rw [tailLoop, ih]
          have hfirst : (d.compare (satAdd startIdx i) a b).Has g ↔
              d.Has g ∨ a ≠ b ∧ g = satAdd startIdx i := by
            unfold Diff.compare
            split_ifs with hab
            · simp [hab]
            · simp [hab, Diff.has_mark]
          rw [hfirst, or_assoc]
          refine or_congr_right ⟨?_, ?_⟩
          · rintro (⟨hab, hg⟩ | ⟨k, x, y, hx, hy, hxy, hg⟩)
            · exact ⟨0, a, b, rfl, rfl, hab, hg⟩
            · exact ⟨k + 1, x, y, hx, hy, hxy, by rw [hg]; congr 1; omega⟩
          · rintro ⟨k, x, y, hx, hy, hxy, hg⟩
            cases k with
            | zero =>
                obtain rfl := Option.some.inj hx
                obtain rfl := Option.some.inj hy
                exact .inl ⟨hxy, hg⟩
            | succ k => exact .inr ⟨k, x, y, hx, hy, hxy, by rw [hg]; congr 1; omega⟩

def DiffersAt (old new : List UInt64) (k : ℕ) : Prop :=
  ∃ a b, old[k]? = some a ∧ new[k]? = some b ∧ a ≠ b

theorem hashDiff_bits (old new : List UInt64) (startIdx : ℕ) {idx : ℕ} (hidx : idx < 2 ^ 64 - 1) :
    (∃ m, (idx / bitsPerWord, m) ∈ (hashDiff old new startIdx).1 ∧
      m.getLsbD (idx % bitsPerWord) = true) ↔
      ∃ k, startIdx + k = idx ∧ DiffersAt old new k := by
  have hsat (k : ℕ) : idx = satAdd startIdx (0 + k) ↔ startIdx + k = idx := by
    unfold satAdd
    omega
  unfold hashDiff
  split_ifs with hlen
  · simp only [List.not_mem_nil, false_and, exists_false, false_iff]
    rintro ⟨k, -, a, b, ha, hb, -⟩
    have hk := (List.getElem?_eq_some_iff.mp ha).choose
    have hk' := (List.getElem?_eq_some_iff.mp hb).choose
    omega
  · rw [chunkLoop_eq]
    refine has_tailLoop.trans ?_
    simp only [hsat, Diff.has_iff, DiffersAt]
    constructor
    · rintro ((⟨m, hm, -⟩ | ⟨-, hbit⟩) | ⟨k, a, b, ha, hb, hab, hk⟩)
      · cases hm
      · simp at hbit
      · exact ⟨k, hk, a, b, ha, hb, hab⟩
    · rintro ⟨k, hk, a, b, ha, hb, hab⟩
      exact .inr ⟨k, a, b, ha, hb, hab, hk⟩

theorem isSet_hashDiff (old new : List UInt64) (bitmap : DirtyBitmap) (startIdx : ℕ) {idx : ℕ}
    (hidx : idx < bitmap.capacity) :
    (hashDiffIntoBitmapAt old new bitmap startIdx).1.isSet idx = true ↔
      bitmap.isSet idx = true ∨ ∃ k, startIdx + k = idx ∧ DiffersAt old new k := by
  have hbound := bitmap.capacity_lt
  rw [hashDiffIntoBitmapAt, DirtyBitmap.isSet_orWords _ hidx, hashDiff_bits _ _ _ (by omega)]

end Albedo.Dirty
