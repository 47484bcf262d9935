import Mathlib.Data.List.Basic
import Mathlib.Tactic.SplitIfs

/-!
# Text as bytes

UTF-8 and how bytes are read back: strictly, where bytes that are no text are refused, and
lossily, where each longest piece that is none stands for one replacement character.
-/
namespace Albedo.Utf8

def encode (s : List Char) : List UInt8 := s.flatMap String.utf8EncodeChar

@[simp] theorem encode_nil : encode [] = [] := rfl

@[simp] theorem encode_cons (c : Char) (s : List Char) :
    encode (c :: s) = String.utf8EncodeChar c ++ encode s := rfl

/-- A byte between two others, both included. -/
def within (low high : ℕ) (b : UInt8) : Bool := low ≤ b.toNat ∧ b.toNat ≤ high

def continues : UInt8 → Bool := within 0x80 0xBF

def tail (b : UInt8) : ℕ := b.toNat - 0x80

def second₃ (b : UInt8) : UInt8 → Bool :=
  if b.toNat = 0xE0 then within 0xA0 0xBF
  else if b.toNat = 0xED then within 0x80 0x9F
  else continues

def second₄ (b : UInt8) : UInt8 → Bool :=
  if b.toNat = 0xF0 then within 0x90 0xBF
  else if b.toNat = 0xF4 then within 0x80 0x8F
  else continues

/-- The character that starts with a byte, and how many more bytes it takes; or how many bytes
after the first belong to no character with it. -/
def step (b : UInt8) (rest : List UInt8) : Option Char × ℕ :=
  if b.toNat < 0x80 then (some (Char.ofNat b.toNat), 0)
  else if within 0xC2 0xDF b then
    match rest with
    | x :: _ =>
        if continues x then (some (Char.ofNat ((b.toNat - 0xC0) * 64 + tail x)), 1) else (none, 0)
    | [] => (none, 0)
  else if within 0xE0 0xEF b then
    match rest with
    | x :: rest =>
        if second₃ b x then
          match rest with
          | y :: _ =>
              if continues y then
                (some (Char.ofNat ((b.toNat - 0xE0) * 4096 + tail x * 64 + tail y)), 2)
              else (none, 1)
          | [] => (none, 1)
        else (none, 0)
    | [] => (none, 0)
  else if within 0xF0 0xF4 b then
    match rest with
    | x :: rest =>
        if second₄ b x then
          match rest with
          | y :: rest =>
              if continues y then
                match rest with
                | z :: _ =>
                    if continues z then
                      (some (Char.ofNat ((b.toNat - 0xF0) * 262144 + tail x * 4096 + tail y * 64 +
                        tail z)), 3)
                    else (none, 2)
                | [] => (none, 2)
              else (none, 1)
          | [] => (none, 1)
        else (none, 0)
    | [] => (none, 0)
  else (none, 0)

/-- The text some bytes spell once the first few are skipped. -/
def decodeFrom : ℕ → List UInt8 → Option (List Char)
  | _, [] => some []
  | skip + 1, _ :: rest => decodeFrom skip rest
  | 0, b :: rest =>
      match step b rest with
      | (some c, n) => (decodeFrom n rest).map (c :: ·)
      | (none, _) => none

/-- `String::from_utf8`. -/
def decode (bytes : List UInt8) : Option (List Char) := decodeFrom 0 bytes

def replacement : Char := Char.ofNat 0xFFFD

def lossyFrom : ℕ → List UInt8 → List Char
  | _, [] => []
  | skip + 1, _ :: rest => lossyFrom skip rest
  | 0, b :: rest => (step b rest).1.getD replacement :: lossyFrom (step b rest).2 rest

/-- `String::from_utf8_lossy`. -/
def lossy (bytes : List UInt8) : List Char := lossyFrom 0 bytes

@[simp] theorem lossy_nil : lossy [] = [] := rfl

/-! ### One character -/

theorem step_append {b x : UInt8} {rest tail : List UInt8} (hx : ¬ 0x80 ≤ x.toNat ∨ 0xC0 ≤ x.toNat) :
    step b (rest ++ x :: tail) = step b rest ∧ (step b rest).2 ≤ rest.length := by
  have hcontinues : continues x = false := by
    simp only [continues, within, decide_eq_false_iff_not]
    omega
  have hsecond₃ : second₃ b x = false := by
    unfold second₃
    split_ifs <;> simp only [continues, within, decide_eq_false_iff_not] <;> omega
  have hsecond₄ : second₄ b x = false := by
    unfold second₄
    split_ifs <;> simp only [continues, within, decide_eq_false_iff_not] <;> omega
  unfold step
  match rest with
  | [] => simp [hcontinues, hsecond₃, hsecond₄]; split_ifs <;> simp
  | [y] => simp [hcontinues]; split_ifs <;> simp
  | [y, z] => simp [hcontinues]; split_ifs <;> simp
  | y :: z :: w :: rest => simp; split_ifs <;> simp

theorem toNat_byte {n : ℕ} (h : n < 256) : (UInt8.ofNat n).toNat = n := by
  rw [UInt8.toNat_ofNat', Nat.mod_eq_of_lt h]

theorem within_byte {low high n : ℕ} (hlow : low ≤ n) (hhigh : n ≤ high) (h : n < 256) :
    within low high (UInt8.ofNat n) = true := by
  simp only [within, toNat_byte h, decide_eq_true_eq]
  exact ⟨hlow, hhigh⟩

theorem step_two {b x : UInt8} {rest : List UInt8} (hb : within 0xC2 0xDF b = true)
    (hx : continues x = true) :
    step b (x :: rest) = (some (Char.ofNat ((b.toNat - 0xC0) * 64 + tail x)), 1) := by
  have hrange : 0xC2 ≤ b.toNat ∧ b.toNat ≤ 0xDF := of_decide_eq_true hb
  unfold step
  rw [if_neg (by omega), if_pos hb]
  dsimp only
  rw [if_pos hx]

theorem step_three {b x y : UInt8} {rest : List UInt8} (hb : within 0xE0 0xEF b = true)
    (hx : second₃ b x = true) (hy : continues y = true) :
    step b (x :: y :: rest) =
      (some (Char.ofNat ((b.toNat - 0xE0) * 4096 + tail x * 64 + tail y)), 2) := by
  have hrange : 0xE0 ≤ b.toNat ∧ b.toNat ≤ 0xEF := of_decide_eq_true hb
  have hother : ¬ within 0xC2 0xDF b = true := by
    simp only [within, decide_eq_true_eq]
    omega
  unfold step
  rw [if_neg (by omega), if_neg hother, if_pos hb]
  dsimp only
  rw [if_pos hx, if_pos hy]

theorem step_four {b x y z : UInt8} {rest : List UInt8} (hb : within 0xF0 0xF4 b = true)
    (hx : second₄ b x = true) (hy : continues y = true) (hz : continues z = true) :
    step b (x :: y :: z :: rest) =
      (some (Char.ofNat ((b.toNat - 0xF0) * 262144 + tail x * 4096 + tail y * 64 + tail z)), 3) := by
  have hrange : 0xF0 ≤ b.toNat ∧ b.toNat ≤ 0xF4 := of_decide_eq_true hb
  have hother₂ : ¬ within 0xC2 0xDF b = true := by
    simp only [within, decide_eq_true_eq]
    omega
  have hother₃ : ¬ within 0xE0 0xEF b = true := by
    simp only [within, decide_eq_true_eq]
    omega
  unfold step
  rw [if_neg (by omega), if_neg hother₂, if_neg hother₃, if_pos hb]
  dsimp only
  rw [if_pos hx, if_pos hy, if_pos hz]

theorem utf8EncodeChar_eq (c : Char) : String.utf8EncodeChar c =
    if c.toNat ≤ 0x7F then [UInt8.ofNat c.toNat]
    else if c.toNat ≤ 0x7FF then
      [UInt8.ofNat (c.toNat / 64 % 32 + 192), UInt8.ofNat (c.toNat % 64 + 128)]
    else if c.toNat ≤ 0xFFFF then
      [UInt8.ofNat (c.toNat / 4096 % 16 + 224), UInt8.ofNat (c.toNat / 64 % 64 + 128),
        UInt8.ofNat (c.toNat % 64 + 128)]
    else
      [UInt8.ofNat (c.toNat / 262144 % 8 + 240), UInt8.ofNat (c.toNat / 4096 % 64 + 128),
        UInt8.ofNat (c.toNat / 64 % 64 + 128), UInt8.ofNat (c.toNat % 64 + 128)] := rfl

theorem mem_encode {b : UInt8} (hb : b.toNat < 0x80) {s : List Char} (h : b ∈ encode s) :
    ∃ c ∈ s, c.toNat = b.toNat := by
  obtain ⟨c, hc, hbyte⟩ := List.mem_flatMap.mp h
  refine ⟨c, hc, ?_⟩
  rw [utf8EncodeChar_eq] at hbyte
  split_ifs at hbyte
  · rw [List.mem_singleton.mp hbyte, toNat_byte (by omega)]
  all_goals
    simp only [List.mem_cons, List.not_mem_nil, or_false] at hbyte
    rcases hbyte with rfl | rfl | rfl | rfl <;> rw [toNat_byte (by omega)] at hb <;> omega

theorem continues_byte (n : ℕ) : continues (UInt8.ofNat (n % 64 + 128)) = true :=
  within_byte (by omega) (by omega) (by omega)

theorem tail_byte (n : ℕ) : tail (UInt8.ofNat (n % 64 + 128)) = n % 64 := by
  unfold tail
  rw [toNat_byte (by omega)]
  omega

/-- The bytes of a character are read as that character, whatever comes after them; and the
first of them continues no other. -/
theorem step_encodeChar (c : Char) (rest : List UInt8) :
    ∃ b bytes, String.utf8EncodeChar c = b :: bytes ∧ step b (bytes ++ rest) = (some c, bytes.length) ∧
      (¬ 0x80 ≤ b.toNat ∨ 0xC0 ≤ b.toNat) := by
  have hchar : Char.ofNat c.toNat = c := Char.ofNat_toNat c
  have hvalid : c.toNat < 0xD800 ∨ 0xDFFF < c.toNat ∧ c.toNat < 0x110000 := c.valid
  rw [utf8EncodeChar_eq]
  generalize c.toNat = v at hchar hvalid
  by_cases h₁ : v ≤ 0x7F
  · rw [if_pos h₁]
    refine ⟨_, _, rfl, ?_, Or.inl ?_⟩
    · unfold step
      rw [toNat_byte (by omega), if_pos (by omega), hchar]
      rfl
    · rw [toNat_byte (by omega)]
      omega
  rw [if_neg h₁]
  by_cases h₂ : v ≤ 0x7FF
  · rw [if_pos h₂]
    have hfirst : (UInt8.ofNat (v / 64 % 32 + 192)).toNat = v / 64 % 32 + 192 := toNat_byte (by omega)
    refine ⟨_, _, rfl, ?_, Or.inr (by omega)⟩
    refine (step_two (within_byte (by omega) (by omega) (by omega)) (continues_byte v)).trans ?_
    rw [tail_byte, hfirst, show (v / 64 % 32 + 192 - 192) * 64 + v % 64 = v by omega, hchar]
    rfl
  rw [if_neg h₂]
  by_cases h₃ : v ≤ 0xFFFF
  · rw [if_pos h₃]
    have hfirst : (UInt8.ofNat (v / 4096 % 16 + 224)).toNat = v / 4096 % 16 + 224 :=
      toNat_byte (by omega)
    have hsecond : second₃ (UInt8.ofNat (v / 4096 % 16 + 224)) (UInt8.ofNat (v / 64 % 64 + 128)) =
        true := by
      unfold second₃
      rw [hfirst]
      split_ifs
      · exact within_byte (by omega) (by omega) (by omega)
      · exact within_byte (by omega) (by omega) (by omega)
      · exact continues_byte (v / 64)
    refine ⟨_, _, rfl, ?_, Or.inr (by omega)⟩
    refine (step_three (within_byte (by omega) (by omega) (by omega)) hsecond
      (continues_byte v)).trans ?_
    rw [tail_byte, tail_byte, hfirst,
      show (v / 4096 % 16 + 224 - 224) * 4096 + v / 64 % 64 * 64 + v % 64 = v by omega, hchar]
    rfl
  · rw [if_neg h₃]
    have hfirst : (UInt8.ofNat (v / 262144 % 8 + 240)).toNat = v / 262144 % 8 + 240 :=
      toNat_byte (by omega)
    have hsecond : second₄ (UInt8.ofNat (v / 262144 % 8 + 240))
        (UInt8.ofNat (v / 4096 % 64 + 128)) = true := by
      unfold second₄
      rw [hfirst]
      split_ifs
      · exact within_byte (by omega) (by omega) (by omega)
      · exact within_byte (by omega) (by omega) (by omega)
      · exact continues_byte (v / 4096)
    refine ⟨_, _, rfl, ?_, Or.inr (by omega)⟩
    refine (step_four (within_byte (by omega) (by omega) (by omega)) hsecond
      (continues_byte (v / 64)) (continues_byte v)).trans ?_
    rw [tail_byte, tail_byte, tail_byte, hfirst,
      show (v / 262144 % 8 + 240 - 240) * 262144 + v / 4096 % 64 * 4096 + v / 64 % 64 * 64 + v % 64 =
        v by omega, hchar]
    rfl

/-! ### Whole texts -/

theorem decodeFrom_skip (skipped rest : List UInt8) :
    decodeFrom skipped.length (skipped ++ rest) = decodeFrom 0 rest := by
  induction skipped with
  | nil => rfl
  | cons b skipped ih => exact ih

theorem lossyFrom_skip (skipped rest : List UInt8) :
    lossyFrom skipped.length (skipped ++ rest) = lossyFrom 0 rest := by
  induction skipped with
  | nil => rfl
  | cons b skipped ih => exact ih

theorem decode_encodeChar (c : Char) (rest : List UInt8) :
    decode (String.utf8EncodeChar c ++ rest) = (decode rest).map (c :: ·) := by
  obtain ⟨b, bytes, hc, hstep, -⟩ := step_encodeChar c rest
  rw [hc]
  change (match step b (bytes ++ rest) with
    | (some c, n) => (decodeFrom n (bytes ++ rest)).map (c :: ·)
    | (none, _) => none) = _
  rw [hstep]
  exact congrArg (Option.map (c :: ·)) (decodeFrom_skip bytes rest)

theorem decode_encode (s : List Char) : decode (encode s) = some s := by
  induction s with
  | nil => rfl
  | cons c s ih => rw [encode_cons, decode_encodeChar, ih, Option.map_some]

theorem lossy_encodeChar (c : Char) (rest : List UInt8) :
    lossy (String.utf8EncodeChar c ++ rest) = c :: lossy rest := by
  obtain ⟨b, bytes, hc, hstep, -⟩ := step_encodeChar c rest
  rw [hc]
  change (step b (bytes ++ rest)).1.getD replacement ::
    lossyFrom (step b (bytes ++ rest)).2 (bytes ++ rest) = _
  rw [hstep]
  exact congrArg (c :: ·) (lossyFrom_skip bytes rest)

theorem lossyFrom_append {b : UInt8} {rest : List UInt8} (hb : ¬ 0x80 ≤ b.toNat ∨ 0xC0 ≤ b.toNat) :
    ∀ (skip : ℕ) (bytes : List UInt8), skip ≤ bytes.length →
      lossyFrom skip (bytes ++ b :: rest) = lossyFrom skip bytes ++ lossyFrom 0 (b :: rest) := by
  intro skip bytes
  induction bytes generalizing skip with
  | nil =>
      intro hskip
      obtain rfl := Nat.le_zero.mp hskip
      rfl
  | cons x bytes ih =>
      intro hskip
      match skip with
      | skip + 1 => exact ih skip (Nat.le_of_succ_le_succ hskip)
      | 0 =>
          obtain ⟨hstep, hle⟩ := @step_append x b bytes rest hb
          change (step x (bytes ++ b :: rest)).1.getD replacement ::
            lossyFrom (step x (bytes ++ b :: rest)).2 (bytes ++ b :: rest) = _
          rw [hstep, ih _ hle]
          rfl

theorem lossy_append_encodeChar (bytes : List UInt8) (c : Char) (rest : List UInt8) :
    lossy (bytes ++ (String.utf8EncodeChar c ++ rest)) = lossy bytes ++ c :: lossy rest := by
  obtain ⟨b, bytes', hc, -, hb⟩ := step_encodeChar c rest
  rw [← lossy_encodeChar, hc]
  exact lossyFrom_append hb 0 bytes (Nat.zero_le _)

theorem lossy_append_encode (bytes : List UInt8) (s : List Char) (rest : List UInt8) (hs : s ≠ []) :
    lossy (bytes ++ (encode s ++ rest)) = lossy bytes ++ s ++ lossy rest := by
  induction s generalizing bytes with
  | nil => exact absurd rfl hs
  | cons c s ih =>
      rw [encode_cons, List.append_assoc, lossy_append_encodeChar]
      cases s with
      | nil => simp
      | cons d s =>
          have hrest := ih [] (List.cons_ne_nil d s)
          rw [List.nil_append] at hrest
          rw [hrest]
          simp

@[simp] theorem lossy_encode (s : List Char) : lossy (encode s) = s := by
  cases s with
  | nil => rfl
  | cons c s =>
      have h := lossy_append_encode [] (c :: s) [] (List.cons_ne_nil c s)
      simpa using h

theorem length_lossyFrom (skip : ℕ) (bytes : List UInt8) :
    (lossyFrom skip bytes).length ≤ bytes.length := by
  induction bytes generalizing skip with
  | nil => cases skip <;> exact Nat.le_refl _
  | cons b bytes ih =>
      match skip with
      | skip + 1 => exact Nat.le_succ_of_le (ih skip)
      | 0 => exact Nat.succ_le_succ (ih _)

end Albedo.Utf8
