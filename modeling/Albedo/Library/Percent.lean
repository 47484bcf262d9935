import Albedo.Library.Utf8
import Albedo.Library.Words

/-!
# Percent-encoding

A `%` and two hexadecimal digits stand for a byte, and a text of escapes and characters for
the bytes they spell together. What is encoded component by component is read back as it was.
-/
namespace Albedo.Percent
open Utf8

/-- `char::to_digit(16)`. -/
def hexValue (c : Char) : Option ℕ :=
  if '0' ≤ c ∧ c ≤ '9' then some (c.toNat - '0'.toNat)
  else if 'a' ≤ c ∧ c ≤ 'f' then some (c.toNat - 'a'.toNat + 10)
  else if 'A' ≤ c ∧ c ≤ 'F' then some (c.toNat - 'A'.toNat + 10)
  else none

def escaped (c high low : Char) : Option UInt8 :=
  if c = '%' then do
    let high ← hexValue high
    let low ← hexValue low
    some (UInt8.ofNat (high * 16 + low))
  else none

/-- The bytes a percent-encoded text spells. A `%` that starts no escape stands for itself. An
escape is three characters of one byte each, so it is read off the text itself. -/
def percentDecode : List Char → List UInt8
  | c :: high :: low :: rest =>
      match escaped c high low with
      | some b => b :: percentDecode rest
      | none => String.utf8EncodeChar c ++ percentDecode (high :: low :: rest)
  | c :: rest => String.utf8EncodeChar c ++ percentDecode rest
  | [] => []

theorem escaped_of_ne {c high low : Char} (h : c ≠ '%') : escaped c high low = none := by
  rw [escaped, if_neg h]

theorem percentDecode_cons {c : Char} (h : c ≠ '%') (s : List Char) :
    percentDecode (c :: s) = String.utf8EncodeChar c ++ percentDecode s := by
  match s with
  | [] => rfl
  | [x] => rfl
  | x :: y :: s => rw [percentDecode, escaped_of_ne h]

/-- Characters that take no part in an escape. -/
def Neutral (d : Char) : Prop := d ≠ '%' ∧ hexValue d = none

theorem Neutral.escaped_low {d : Char} (hd : Neutral d) (c high : Char) : escaped c high d = none := by
  unfold escaped
  split_ifs
  · cases hexValue high <;> simp [hd.2]
  · rfl

theorem Neutral.escaped_high {d : Char} (hd : Neutral d) (c low : Char) : escaped c d low = none := by
  unfold escaped
  split_ifs
  · simp [hd.2]
  · rfl

theorem percentDecode_append {d : Char} (hd : Neutral d) (s t : List Char) :
    percentDecode (s ++ d :: t) = percentDecode s ++ (String.utf8EncodeChar d ++ percentDecode t) := by
  have hnext : percentDecode (d :: t) = String.utf8EncodeChar d ++ percentDecode t :=
    percentDecode_cons hd.1 t
  fun_induction percentDecode s with
  | case1 c high low rest b hescape ih =>
      rw [List.cons_append, List.cons_append, List.cons_append, percentDecode, hescape]
      exact congrArg (b :: ·) ih
  | case2 c high low rest hescape ih =>
      rw [List.cons_append, List.cons_append, List.cons_append, percentDecode, hescape,
        List.append_assoc]
      exact congrArg (String.utf8EncodeChar c ++ ·) ih
  | case3 c rest hshort ih =>
      rw [List.append_assoc, ← ih]
      match rest with
      | [] =>
          match t with
          | [] => rfl
          | x :: t =>
              change percentDecode (c :: d :: x :: t) = _
              rw [percentDecode, hd.escaped_high]
              rfl
      | [x] =>
          change percentDecode (c :: x :: d :: t) = _
          rw [percentDecode, hd.escaped_low]
          rfl
      | x :: y :: rest => exact absurd rfl (hshort x y rest)
  | case4 => exact hnext

def percentDecodePath (raw : List Char) : List Char := lossy (percentDecode raw)

theorem percentDecodePath_append {d : Char} (hd : Neutral d) (s t : List Char) :
    percentDecodePath (s ++ d :: t) = percentDecodePath s ++ d :: percentDecodePath t := by
  unfold percentDecodePath
  rw [percentDecode_append hd, lossy_append_encodeChar]

theorem percentDecode_eq_or_short (s : List Char) : percentDecode s = encode s ∨
    ∀ bytes : List UInt8, (lossy (bytes ++ percentDecode s)).length + 2 ≤ bytes.length + s.length := by
  have hlossy : ∀ bytes : List UInt8, (lossy bytes).length ≤ bytes.length := length_lossyFrom 0
  -- a character of its own is as long as before
  have hkept : ∀ (c : Char) (rest : List Char), percentDecode rest = encode rest ∨
      (∀ bytes : List UInt8,
        (lossy (bytes ++ percentDecode rest)).length + 2 ≤ bytes.length + rest.length) →
      String.utf8EncodeChar c ++ percentDecode rest = encode (c :: rest) ∨
      ∀ bytes : List UInt8, (lossy (bytes ++ (String.utf8EncodeChar c ++ percentDecode rest))).length +
        2 ≤ bytes.length + (c :: rest).length := by
    rintro c rest (hplain | hshort)
    · exact Or.inl (by rw [hplain, encode_cons])
    · refine Or.inr fun bytes => ?_
      have hbytes := hlossy bytes
      have hrest := hshort []
      rw [lossy_append_encodeChar]
      simp only [List.nil_append, List.length_append, List.length_cons, List.length_nil] at hrest ⊢
      omega
  fun_induction percentDecode s with
  | case1 c high low rest b hescape ih =>
      refine Or.inr fun bytes => ?_
      simp only [List.length_cons]
      rcases ih with hplain | hshort
      · rw [hplain, ← List.singleton_append, ← List.append_assoc]
        have hbytes := hlossy (bytes ++ [b])
        cases rest with
        | nil =>
            simp only [encode_nil, List.append_nil, List.length_append, List.length_cons,
              List.length_nil] at hbytes ⊢
            omega
        | cons d rest =>
            have happend := lossy_append_encode (bytes ++ [b]) (d :: rest) [] (List.cons_ne_nil d rest)
            rw [List.append_nil] at happend
            rw [happend]
            simp only [List.length_append, List.length_cons, List.length_nil, lossy_nil] at hbytes ⊢
            omega
      · have h := hshort (bytes ++ [b])
        simp only [List.append_assoc, List.cons_append, List.nil_append, List.length_append,
          List.length_cons, List.length_nil] at h ⊢
        omega
  | case2 c high low rest hescape ih => exact hkept c (high :: low :: rest) ih
  | case3 c rest hshort ih => exact hkept c rest ih
  | case4 => exact Or.inl rfl

theorem percentDecodePath_eq_or_short (s : List Char) :
    percentDecodePath s = s ∨ (percentDecodePath s).length + 2 ≤ s.length := by
  unfold percentDecodePath
  rcases percentDecode_eq_or_short s with hplain | hshort
  · exact Or.inl (by rw [hplain, lossy_encode])
  · refine Or.inr ?_
    have h := hshort []
    simpa using h

/-! ### Encoding -/

def hexDigit (n : ℕ) : Char := Char.ofNat (if n < 10 then 0x30 + n else 0x41 + n - 10)

def escapeByte (b : UInt8) : List Char := ['%', hexDigit (b.toNat / 16), hexDigit (b.toNat % 16)]

theorem hexValue_hexDigit : ∀ n < 16, hexValue (hexDigit n) = some n := by decide

theorem percentDecode_escapeByte (b : UInt8) (t : List Char) :
    percentDecode (escapeByte b ++ t) = b :: percentDecode t := by
  have hb : b.toNat < 256 := b.toNat_lt
  have hescape : escaped '%' (hexDigit (b.toNat / 16)) (hexDigit (b.toNat % 16)) = some b := by
    unfold escaped
    rw [if_pos rfl, hexValue_hexDigit _ (by omega), hexValue_hexDigit _ (by omega)]
    change some (UInt8.ofNat (b.toNat / 16 * 16 + b.toNat % 16)) = some b
    rw [Nat.div_add_mod', UInt8.ofNat_toNat]
  change percentDecode ('%' :: hexDigit (b.toNat / 16) :: hexDigit (b.toNat % 16) :: t) = _
  rw [percentDecode, hescape]

theorem percentDecode_escapeBytes (bytes : List UInt8) (t : List Char) :
    percentDecode (bytes.flatMap escapeByte ++ t) = bytes ++ percentDecode t := by
  induction bytes with
  | nil => rfl
  | cons b bytes ih =>
      rw [List.flatMap_cons, List.append_assoc, percentDecode_escapeByte, ih, List.cons_append]

/-- Characters in a set stand for themselves, all others are escaped byte by byte. -/
def percentEncodeChar (safe : Char → Bool) (c : Char) : List Char :=
  if safe c then [c] else (String.utf8EncodeChar c).flatMap escapeByte

def percentEncode (safe : Char → Bool) (s : List Char) : List Char :=
  s.flatMap (percentEncodeChar safe)

theorem percentDecode_percentEncode {safe : Char → Bool} (hsafe : safe '%' = false)
    (s t : List Char) : percentDecode (percentEncode safe s ++ t) = encode s ++ percentDecode t := by
  induction s with
  | nil => rfl
  | cons c s ih =>
      change percentDecode ((percentEncodeChar safe c ++ percentEncode safe s) ++ t) = _
      rw [List.append_assoc, encode_cons, List.append_assoc, percentEncodeChar]
      split_ifs with hc
      · have hne : c ≠ '%' := by
          rintro rfl
          rw [hsafe] at hc
          cases hc
        rw [List.singleton_append, percentDecode_cons hne, ih]
      · rw [percentDecode_escapeBytes, ih]

theorem hexDigit_ne {d : Char} (hd : hexValue d = none) : ∀ n < 16, hexDigit n ≠ d := by
  intro n hn heq
  rw [← heq, hexValue_hexDigit n hn] at hd
  cases hd

theorem not_mem_escapeBytes {d : Char} (hd : Neutral d) (bytes : List UInt8) :
    d ∉ bytes.flatMap escapeByte := by
  intro hmem
  obtain ⟨b, -, hb⟩ := List.mem_flatMap.mp hmem
  have hlt : b.toNat < 256 := b.toNat_lt
  simp only [escapeByte, List.mem_cons, List.not_mem_nil, or_false] at hb
  rcases hb with rfl | heq | heq
  · exact hd.1 rfl
  · exact hexDigit_ne hd.2 _ (by omega) heq.symm
  · exact hexDigit_ne hd.2 _ (by omega) heq.symm

theorem not_mem_percentEncode {safe : Char → Bool} {d : Char} (hd : Neutral d) (hsafe : safe d = false)
    (s : List Char) : d ∉ percentEncode safe s := by
  intro hmem
  obtain ⟨c, -, hc⟩ := List.mem_flatMap.mp hmem
  unfold percentEncodeChar at hc
  split_ifs at hc with hsafec
  · obtain rfl := List.mem_singleton.mp hc
    rw [hsafe] at hsafec
    cases hsafec
  · exact not_mem_escapeBytes hd _ hc

theorem count_percentEncode {safe : Char → Bool} {d : Char} (hd : Neutral d) (hsafe : safe d = true)
    (s : List Char) : (percentEncode safe s).count d = s.count d := by
  induction s with
  | nil => rfl
  | cons c s ih =>
      have hchar : (percentEncodeChar safe c).count d = [c].count d := by
        unfold percentEncodeChar
        split_ifs with hsafec
        · rfl
        · have hne : d ≠ c := by
            rintro rfl
            exact hsafec hsafe
          rw [List.count_eq_zero.mpr (not_mem_escapeBytes hd _),
            List.count_eq_zero.mpr (by simpa using hne)]
      change (percentEncodeChar safe c ++ percentEncode safe s).count d = ([c] ++ s).count d
      rw [List.count_append, List.count_append, hchar, ih]

/-- What holds of safe characters, of `%` and of digits holds of all that is written. -/
theorem forall_mem_percentEncode {safe p : Char → Bool} (hsafe : ∀ c, safe c = true → p c = true)
    (hpercent : p '%' = true) (hdigit : ∀ n < 16, p (hexDigit n) = true) (s : List Char) :
    ∀ c ∈ percentEncode safe s, p c = true := by
  intro d hd
  obtain ⟨c, -, hc⟩ := List.mem_flatMap.mp hd
  unfold percentEncodeChar at hc
  split_ifs at hc with hsafec
  · obtain rfl := List.mem_singleton.mp hc
    exact hsafe d hsafec
  · obtain ⟨b, -, hb⟩ := List.mem_flatMap.mp hc
    have hlt : b.toNat < 256 := b.toNat_lt
    simp only [escapeByte, List.mem_cons, List.not_mem_nil, or_false] at hb
    rcases hb with rfl | rfl | rfl
    · exact hpercent
    · exact hdigit _ (by omega)
    · exact hdigit _ (by omega)

theorem percentEncode_ne_nil {safe : Char → Bool} {s : List Char} (hs : s ≠ []) :
    percentEncode safe s ≠ [] := by
  cases s with
  | nil => exact absurd rfl hs
  | cons c s =>
      intro h
      obtain ⟨hfirst, -⟩ := List.append_eq_nil_iff.mp h
      obtain ⟨b, bytes, hc, -⟩ := step_encodeChar c []
      unfold percentEncodeChar at hfirst
      split_ifs at hfirst
      rw [hc] at hfirst
      cases hfirst

/-- The characters `encodeURIComponent` leaves alone. -/
def unreserved (c : Char) : Bool := c.isAlphanum || "-_.!~*'()".toList.contains c

def encodeURIComponent (s : List Char) : List Char := percentEncode unreserved s

end Albedo.Percent
