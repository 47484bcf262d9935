import Mathlib.Data.Int.Notation
import Mathlib.Data.List.Basic
import Mathlib.Data.List.TakeDrop
import Mathlib.Data.Nat.Notation
import Mathlib.Tactic.Common

/-!
# JSON values and their compact text

`Value.encode` writes the compact text of a value and `decode` reads such texts
back. A text is its list of characters, so a prefix of the text is a prefix of
its UTF-8 bytes. A float is named by the text the writer gives it. The reader
accepts exactly the spellings the writer uses, with keys in any order.

The main results are `decode_encode` and what it gives for prefixes: an encoded
array followed by anything is read back to that array and that rest.
-/
namespace Albedo.Json

def isNumberChar (c : Char) : Bool := c.isDigit || c = '-' || c = '.' || c = 'e'

def isExponent : List Char → Bool
  | [] => true
  | 'e' :: '-' :: ds => !ds.isEmpty && ds.all Char.isDigit
  | 'e' :: ds => !ds.isEmpty && ds.all Char.isDigit
  | _ => false

/-- The texts of finite floats: an optional sign, digits, and a fraction or an
exponent. -/
def isFloatText (cs : List Char) : Bool :=
  let body := if cs.head? = some '-' then cs.tail else cs
  let (whole, rest) := body.span Char.isDigit
  cs.all isNumberChar && cs.any (fun c => c = '.' || c = 'e') && !whole.isEmpty &&
    match rest with
    | '.' :: rest =>
        let (fraction, rest) := rest.span Char.isDigit
        !fraction.isEmpty && isExponent rest
    | rest => isExponent rest

structure F64 where
  text : List Char
  isFloat : isFloatText text = true
  deriving DecidableEq

def F64.isZero (x : F64) : Bool := x.text = ['0', '.', '0'] || x.text = ['-', '0', '.', '0']

def F64.same (x y : F64) : Bool := x = y || (x.isZero && y.isZero)

inductive Number where
  | int (i : ℤ)
  | float (f : F64)

inductive Value where
  | null
  | bool (b : Bool)
  | number (n : Number)
  | string (s : String)
  | array (items : List Value)
  | object (fields : List (String × Value))

def Value.asArray : Value → Option (List Value)
  | .array items => some items
  | _ => none

/-- The member of an object under `key`. -/
def Value.get (v : Value) (key : String) : Option Value :=
  match v with
  | .object fields => fields.lookup key
  | _ => none

/-! ### Comparison -/

def Number.same : Number → Number → Bool
  | .int i, .int j => i = j
  | .float x, .float y => x.same y
  | _, _ => false

mutual

/-- The comparison of values: structural, with the two float zeros equal. -/
def Value.same : Value → Value → Bool
  | .null, .null => true
  | .bool a, .bool b => a = b
  | .number m, .number n => m.same n
  | .string s, .string t => s = t
  | .array xs, .array ys => sameItems xs ys
  | .object xs, .object ys => sameFields xs ys
  | _, _ => false

def sameItems : List Value → List Value → Bool
  | [], [] => true
  | x :: xs, y :: ys => x.same y && sameItems xs ys
  | _, _ => false

def sameFields : List (String × Value) → List (String × Value) → Bool
  | [], [] => true
  | (k, x) :: xs, (l, y) :: ys => k = l && x.same y && sameFields xs ys
  | _, _ => false

end

theorem Number.same_refl (n : Number) : n.same n = true := by
  cases n <;> simp [Number.same, F64.same]

mutual

theorem Value.same_refl : ∀ v : Value, v.same v = true
  | .null => rfl
  | .bool b => by simp [Value.same]
  | .number n => by simp [Value.same, n.same_refl]
  | .string s => by simp [Value.same]
  | .array items => by simp [Value.same, sameItems_refl items]
  | .object fields => by simp [Value.same, sameFields_refl fields]

theorem sameItems_refl : ∀ items : List Value, sameItems items items = true
  | [] => rfl
  | v :: vs => by simp [sameItems, v.same_refl, sameItems_refl vs]

theorem sameFields_refl : ∀ fields : List (String × Value), sameFields fields fields = true
  | [] => rfl
  | (k, v) :: rest => by simp [sameFields, v.same_refl, sameFields_refl rest]

end

/-! ### Writing -/

def Number.text : Number → List Char
  | .int i => (toString i).toList
  | .float f => f.text

def hexDigit (n : ℕ) : Char := if n < 10 then Char.ofNat (48 + n) else Char.ofNat (87 + n)

/-- How one character of a string is written. -/
def escape (c : Char) : List Char :=
  if c = '"' then ['\\', '"']
  else if c = '\\' then ['\\', '\\']
  else if c = '\x08' then ['\\', 'b']
  else if c = '\t' then ['\\', 't']
  else if c = '\n' then ['\\', 'n']
  else if c = '\x0c' then ['\\', 'f']
  else if c = '\r' then ['\\', 'r']
  else if c.toNat < 32 then
    ['\\', 'u', '0', '0', hexDigit (c.toNat / 16), hexDigit (c.toNat % 16)]
  else [c]

def encodeString (s : String) : List Char := '"' :: (s.toList.flatMap escape ++ ['"'])

mutual

def Value.encode : Value → List Char
  | .null => ['n', 'u', 'l', 'l']
  | .bool true => ['t', 'r', 'u', 'e']
  | .bool false => ['f', 'a', 'l', 's', 'e']
  | .number n => n.text
  | .string s => encodeString s
  | .array [] => ['[', ']']
  | .array (v :: vs) => '[' :: (v.encode ++ (encodeItems vs ++ [']']))
  | .object [] => ['{', '}']
  | .object ((k, v) :: rest) =>
      '{' :: (encodeString k ++ ':' :: (v.encode ++ (encodeFields rest ++ ['}'])))

def encodeItems : List Value → List Char
  | [] => []
  | v :: vs => ',' :: (v.encode ++ encodeItems vs)

/-- The members of an object after its first one. -/
def encodeFields : List (String × Value) → List Char
  | [] => []
  | (k, v) :: rest => ',' :: (encodeString k ++ ':' :: (v.encode ++ encodeFields rest))

end

mutual

def Value.depth : Value → ℕ
  | .array items => depthItems items + 1
  | .object fields => depthFields fields + 1
  | _ => 0

def depthItems : List Value → ℕ
  | [] => 0
  | v :: vs => max v.depth (depthItems vs)

def depthFields : List (String × Value) → ℕ
  | [] => 0
  | (_, v) :: rest => max v.depth (depthFields rest)

end

/-! ### Reading -/

def readInt (cs : List Char) : Option ℤ :=
  let i : ℤ :=
    if cs.head? = some '-' then -(Nat.ofDigitChars 10 cs.tail 0 : ℤ) else Nat.ofDigitChars 10 cs 0
  if (toString i).toList = cs then some i else none

def readNumber (cs : List Char) : Option Number :=
  match readInt cs with
  | some i => some (.int i)
  | none => if h : isFloatText cs = true then some (.float ⟨cs, h⟩) else none

def hexValue (c : Char) : ℕ := if c.isDigit then c.toNat - 48 else c.toNat - 87

/-- The character an escape stands for, and what follows it. -/
def unescape : List Char → Option (Char × List Char)
  | '"' :: r => some ('"', r)
  | '\\' :: r => some ('\\', r)
  | 'b' :: r => some ('\x08', r)
  | 't' :: r => some ('\t', r)
  | 'n' :: r => some ('\n', r)
  | 'f' :: r => some ('\x0c', r)
  | 'r' :: r => some ('\r', r)
  | 'u' :: '0' :: '0' :: a :: b :: r => some (Char.ofNat (16 * hexValue a + hexValue b), r)
  | _ => none

/-- The characters of a string up to its closing quote, and what follows it. -/
def decodeChars : ℕ → List Char → Option (List Char × List Char)
  | 0, _ => none
  | _, [] => none
  | fuel + 1, c :: r =>
      if c = '"' then some ([], r)
      else if c = '\\' then do
        let (c, r) ← unescape r
        let (cs, r) ← decodeChars fuel r
        some (c :: cs, r)
      else do
        let (cs, r) ← decodeChars fuel r
        some (c :: cs, r)

def decodeString (fuel : ℕ) : List Char → Option (String × List Char)
  | '"' :: r => (decodeChars fuel r).map fun (cs, r) => (String.ofList cs, r)
  | _ => none

def expect (word : List Char) (cs : List Char) : Option (List Char) :=
  if word.isPrefixOf cs then some (cs.drop word.length) else none

mutual

def decodeValue : ℕ → List Char → Option (Value × List Char)
  | 0, _ => none
  | _, [] => none
  | fuel + 1, c :: r =>
      if isNumberChar c then
        let (text, rest) := (c :: r).span isNumberChar
        (readNumber text).map fun n => (.number n, rest)
      else if c = '"' then (decodeString fuel (c :: r)).map fun (s, r) => (.string s, r)
      else if c = '[' then
        if r.head? = some ']' then some (.array [], r.tail)
        else do
          let (v, r) ← decodeValue fuel r
          let (vs, r) ← decodeItems fuel r
          some (.array (v :: vs), r)
      else if c = '{' then
        if r.head? = some '}' then some (.object [], r.tail)
        else do
          let (k, r) ← decodeString fuel r
          let r ← expect [':'] r
          let (v, r) ← decodeValue fuel r
          let (rest, r) ← decodeFields fuel r
          some (.object ((k, v) :: rest), r)
      else if c = 'n' then (expect ['u', 'l', 'l'] r).map fun r => (.null, r)
      else if c = 't' then (expect ['r', 'u', 'e'] r).map fun r => (.bool true, r)
      else if c = 'f' then (expect ['a', 'l', 's', 'e'] r).map fun r => (.bool false, r)
      else none

def decodeItems : ℕ → List Char → Option (List Value × List Char)
  | 0, _ => none
  | _, [] => none
  | fuel + 1, c :: r =>
      if c = ']' then some ([], r)
      else if c = ',' then do
        let (v, r) ← decodeValue fuel r
        let (vs, r) ← decodeItems fuel r
        some (v :: vs, r)
      else none

def decodeFields : ℕ → List Char → Option (List (String × Value) × List Char)
  | 0, _ => none
  | _, [] => none
  | fuel + 1, c :: r =>
      if c = '}' then some ([], r)
      else if c = ',' then do
        let (k, r) ← decodeString fuel r
        let r ← expect [':'] r
        let (v, r) ← decodeValue fuel r
        let (rest, r) ← decodeFields fuel r
        some ((k, v) :: rest, r)
      else none

end

def decode (cs : List Char) : Option Value :=
  match decodeValue (cs.length + 1) cs with
  | some (v, []) => some v
  | _ => none

/-! ### Reading what was written -/

theorem toString_int_toList (i : ℤ) :
    (toString i).toList = match i with
      | .ofNat n => Nat.toDigits 10 n
      | .negSucc n => '-' :: Nat.toDigits 10 (n + 1) := by
  cases i with
  | ofNat n => simp [toString, Int.repr, Nat.repr]
  | negSucc n => simp [toString, Int.repr, Nat.repr]

theorem toDigits_head (n : ℕ) : (Nat.toDigits 10 n).head? ≠ some '-' := by
  intro h
  have hmem : '-' ∈ Nat.toDigits 10 n := List.mem_of_head? h
  exact absurd (Nat.isDigit_of_mem_toDigits (by decide) (by decide) hmem) (by decide)

theorem readInt_toString (i : ℤ) : readInt (toString i).toList = some i := by
  rw [readInt]
  cases i with
  | ofNat n =>
      have hl : (toString (Int.ofNat n)).toList = Nat.toDigits 10 n := toString_int_toList _
      simp only [hl, toDigits_head, if_false, Nat.ofDigitChars_ten_toDigits]
      simp [← hl]
  | negSucc n =>
      have hl : (toString (Int.negSucc n)).toList = '-' :: Nat.toDigits 10 (n + 1) :=
        toString_int_toList _
      simp only [hl, List.head?_cons, if_true, List.tail_cons, Nat.ofDigitChars_ten_toDigits]
      have hneg : (-((n + 1 : ℕ) : ℤ)) = Int.negSucc n := rfl
      rw [hneg, hl, if_pos rfl]

theorem isNumberChar_toString (i : ℤ) : ∀ c ∈ (toString i).toList, isNumberChar c = true := by
  have hdigit : ∀ n, ∀ c ∈ Nat.toDigits 10 n, isNumberChar c = true := by
    intro n c hc
    have := Nat.isDigit_of_mem_toDigits (by decide) (by decide) hc
    simp [isNumberChar, this]
  rw [toString_int_toList]
  cases i with
  | ofNat n => exact hdigit n
  | negSucc n =>
      intro c hc
      rcases List.mem_cons.mp hc with rfl | hc
      · decide
      · exact hdigit (n + 1) c hc

theorem toString_not_float (i : ℤ) : ∀ c ∈ (toString i).toList, c ≠ '.' ∧ c ≠ 'e' := by
  have hdigit : ∀ n, ∀ c ∈ Nat.toDigits 10 n, c ≠ '.' ∧ c ≠ 'e' := by
    intro n c hc
    have := Nat.isDigit_of_mem_toDigits (by decide) (by decide) hc
    constructor <;> (rintro rfl; exact absurd this (by decide))
  rw [toString_int_toList]
  cases i with
  | ofNat n => exact hdigit n
  | negSucc n =>
      intro c hc
      rcases List.mem_cons.mp hc with rfl | hc
      · decide
      · exact hdigit (n + 1) c hc

theorem F64.text_chars (f : F64) :
    (∀ c ∈ f.text, isNumberChar c = true) ∧ ∃ c ∈ f.text, c = '.' ∨ c = 'e' := by
  have h := f.isFloat
  simp only [isFloatText, Bool.and_eq_true, List.all_eq_true, List.any_eq_true,
    Bool.or_eq_true, decide_eq_true_eq] at h
  exact ⟨h.1.1.1, h.1.1.2⟩

theorem Number.text_chars (n : Number) : ∀ c ∈ n.text, isNumberChar c = true := by
  cases n with
  | int i => exact isNumberChar_toString i
  | float f => exact f.text_chars.1

theorem readNumber_text (n : Number) : readNumber n.text = some n := by
  cases n with
  | int i => simp only [readNumber, Number.text, readInt_toString]
  | float f =>
      have hint : readInt f.text = none := by
        obtain ⟨c, hc, hmark⟩ := f.text_chars.2
        unfold readInt
        dsimp only
        rw [if_neg]
        intro htext
        rw [← htext] at hc
        have := toString_not_float _ c hc
        tauto
      simp only [readNumber, Number.text, hint]
      exact dif_pos f.isFloat

theorem Number.text_ne_nil (n : Number) : n.text ≠ [] := by
  intro h
  have hread := readNumber_text n
  rw [h] at hread
  cases hread

/-- What may follow a value: nothing a number could take for its own. -/
def Stops (rest : List Char) : Prop := ∀ c ∈ rest.head?, isNumberChar c = false

theorem stops_nil : Stops [] := by simp [Stops]

theorem stops_cons {c : Char} (hc : isNumberChar c = false) (r : List Char) : Stops (c :: r) := by
  simp [Stops, hc]

theorem span_number {text rest : List Char} (ht : ∀ c ∈ text, isNumberChar c = true)
    (hr : Stops rest) : (text ++ rest).span isNumberChar = (text, rest) := by
  rw [List.span_eq_takeWhile_dropWhile, List.takeWhile_append_of_pos ht,
    List.dropWhile_append_of_pos ht]
  cases rest with
  | nil => simp
  | cons c r =>
      have hc : isNumberChar c = false := hr c (by simp)
      simp [hc]

theorem hexValue_hexDigit : ∀ n < 16, hexValue (hexDigit n) = n := by decide

theorem decodeChars_escape (fuel : ℕ) (c : Char) (r : List Char) :
    decodeChars (fuel + 1) (escape c ++ r) =
      (decodeChars fuel r).map fun (cs, r) => (c :: cs, r) := by
  unfold escape
  split_ifs with h₁ h₂ h₃ h₄ h₅ h₆ h₇ h₈
  · subst h₁; cases hd : decodeChars fuel r <;> simp [decodeChars, unescape, hd]
  · subst h₂; cases hd : decodeChars fuel r <;> simp [decodeChars, unescape, hd]
  · subst h₃; cases hd : decodeChars fuel r <;> simp [decodeChars, unescape, hd]
  · subst h₄; cases hd : decodeChars fuel r <;> simp [decodeChars, unescape, hd]
  · subst h₅; cases hd : decodeChars fuel r <;> simp [decodeChars, unescape, hd]
  · subst h₆; cases hd : decodeChars fuel r <;> simp [decodeChars, unescape, hd]
  · subst h₇; cases hd : decodeChars fuel r <;> simp [decodeChars, unescape, hd]
  · have hhi := hexValue_hexDigit (c.toNat / 16) (by omega)
    have hlo := hexValue_hexDigit (c.toNat % 16) (by omega)
    have hc : Char.ofNat (16 * (c.toNat / 16) + c.toNat % 16) = c := by
      rw [Nat.div_add_mod]
      exact Char.ofNat_toNat c
    cases hd : decodeChars fuel r <;> simp [decodeChars, unescape, hhi, hlo, hc, hd]
  · cases hd : decodeChars fuel r <;> simp [decodeChars, h₁, h₂, hd]

theorem decodeChars_escaped (cs : List Char) (fuel : ℕ) (r : List Char)
    (hf : (cs.flatMap escape).length < fuel) :
    decodeChars fuel (cs.flatMap escape ++ '"' :: r) = some (cs, r) := by
  induction cs generalizing fuel with
  | nil =>
      obtain ⟨fuel, rfl⟩ : ∃ n, fuel = n + 1 := ⟨fuel - 1, by simp at hf; omega⟩
      simp [decodeChars]
  | cons c cs ih =>
      have hpos : 0 < (escape c).length := by
        unfold escape
        split_ifs <;> simp
      simp only [List.flatMap_cons, List.length_append] at hf
      obtain ⟨fuel, rfl⟩ : ∃ n, fuel = n + 1 := ⟨fuel - 1, by omega⟩
      rw [List.flatMap_cons, List.append_assoc, decodeChars_escape, ih fuel (by omega)]
      rfl

theorem decodeString_encode (s : String) (fuel : ℕ) (r : List Char)
    (hf : (encodeString s).length ≤ fuel + 1) :
    decodeString fuel (encodeString s ++ r) = some (s, r) := by
  simp only [encodeString, List.length_cons, List.length_append, List.length_nil] at hf
  simp only [encodeString, List.cons_append, List.append_assoc, List.nil_append, decodeString]
  rw [decodeChars_escaped s.toList fuel r (by omega)]
  simp

theorem Value.encode_head (v : Value) : ∃ c r, v.encode = c :: r ∧ c ≠ ']' ∧ c ≠ '}' ∧ c ≠ ',' := by
  cases v with
  | null => exact ⟨_, _, rfl, by decide, by decide, by decide⟩
  | bool b => cases b <;> exact ⟨_, _, rfl, by decide, by decide, by decide⟩
  | number n =>
      obtain ⟨c, r, hcr⟩ := List.exists_cons_of_ne_nil n.text_ne_nil
      have hc : isNumberChar c = true := n.text_chars c (by simp [hcr])
      refine ⟨c, r, by simpa [Value.encode] using hcr, ?_, ?_, ?_⟩ <;>
        (rintro rfl; exact absurd hc (by decide))
  | string s => exact ⟨_, _, rfl, by decide, by decide, by decide⟩
  | array items => cases items <;> exact ⟨_, _, rfl, by decide, by decide, by decide⟩
  | object fields =>
      rcases fields with _ | ⟨⟨k, v⟩, rest⟩ <;> exact ⟨_, _, rfl, by decide, by decide, by decide⟩

theorem stops_encodeItems (vs : List Value) (r : List Char) : Stops (encodeItems vs ++ ']' :: r) := by
  cases vs <;> exact stops_cons (by decide) _

theorem stops_encodeFields (fields : List (String × Value)) (r : List Char) :
    Stops (encodeFields fields ++ '}' :: r) := by
  rcases fields with _ | ⟨⟨k, v⟩, rest⟩ <;> exact stops_cons (by decide) _

def Value.EndsBefore (v : Value) (r : List Char) : Prop := ∀ n, v = .number n → Stops r

theorem Value.endsBefore_of_stops (v : Value) {r : List Char} (h : Stops r) : v.EndsBefore r :=
  fun _ _ => h

mutual

theorem decodeValue_encode : ∀ (v : Value) (fuel : ℕ) (r : List Char),
    v.encode.length ≤ fuel → v.EndsBefore r → decodeValue fuel (v.encode ++ r) = some (v, r)
  | v, 0, r, hf, _ => by
      obtain ⟨c, t, hc, _⟩ := v.encode_head
      simp [hc] at hf
  | .null, fuel + 1, r, _, _ => by
      simp [Value.encode, decodeValue, isNumberChar, expect]
  | .bool true, fuel + 1, r, _, _ => by
      simp [Value.encode, decodeValue, isNumberChar, expect]
  | .bool false, fuel + 1, r, _, _ => by
      simp [Value.encode, decodeValue, isNumberChar, expect]
  | .number n, fuel + 1, r, _, hr => by
      obtain ⟨c, t, hct⟩ := List.exists_cons_of_ne_nil n.text_ne_nil
      have hc : isNumberChar c = true := n.text_chars c (by simp [hct])
      have hspan := span_number n.text_chars (hr n rfl)
      rw [hct, List.cons_append] at hspan
      simp only [Value.encode, hct, List.cons_append, decodeValue, hc, if_true, hspan]
      rw [← hct, readNumber_text]
      rfl
  | .string s, fuel + 1, r, hf, _ => by
      have hs := decodeString_encode s fuel r hf
      have hq : encodeString s ++ r = '"' :: (s.toList.flatMap escape ++ ['"'] ++ r) := rfl
      rw [hq] at hs
      rw [Value.encode, hq]
      simpa [decodeValue, isNumberChar] using hs
  | .array [], fuel + 1, r, _, _ => by
      simp [Value.encode, decodeValue, isNumberChar]
  | .array (v :: vs), fuel + 1, r, hf, _ => by
      simp only [Value.encode, List.length_cons, List.length_append, List.length_nil] at hf
      obtain ⟨c, t, hc, hclose, _⟩ := v.encode_head
      have hv := decodeValue_encode v fuel (encodeItems vs ++ ']' :: r) (by omega)
        (v.endsBefore_of_stops (stops_encodeItems vs r))
      have hvs := decodeItems_encode vs fuel r (by omega)
      rw [hc, List.cons_append] at hv
      simp [Value.encode, decodeValue, isNumberChar, hc, hclose, hv, hvs]
  | .object [], fuel + 1, r, _, _ => by
      simp [Value.encode, decodeValue, isNumberChar]
  | .object ((k, v) :: rest), fuel + 1, r, hf, _ => by
      simp only [Value.encode, List.length_cons, List.length_append, List.length_nil] at hf
      have hk := decodeString_encode k fuel (':' :: (v.encode ++ (encodeFields rest ++ '}' :: r)))
        (by omega)
      have hv := decodeValue_encode v fuel (encodeFields rest ++ '}' :: r) (by omega)
        (v.endsBefore_of_stops (stops_encodeFields rest r))
      have hrest := decodeFields_encode rest fuel r (by omega)
      have hq : ∀ t, encodeString k ++ t = '"' :: (k.toList.flatMap escape ++ ['"'] ++ t) :=
        fun _ => rfl
      rw [hq] at hk
      simp [Value.encode, decodeValue, isNumberChar, hq, expect] at hk ⊢
      simp [hk, hv, hrest]

theorem decodeItems_encode : ∀ (vs : List Value) (fuel : ℕ) (r : List Char),
    (encodeItems vs).length < fuel →
      decodeItems fuel (encodeItems vs ++ ']' :: r) = some (vs, r)
  | _, 0, r, hf => absurd hf (Nat.not_lt_zero _)
  | [], fuel + 1, r, hf => by simp [encodeItems, decodeItems]
  | v :: vs, fuel + 1, r, hf => by
      simp only [encodeItems, List.length_cons, List.length_append] at hf
      have hv := decodeValue_encode v fuel (encodeItems vs ++ ']' :: r) (by omega)
        (v.endsBefore_of_stops (stops_encodeItems vs r))
      have hvs := decodeItems_encode vs fuel r (by omega)
      simp [encodeItems, decodeItems, hv, hvs]

theorem decodeFields_encode : ∀ (fields : List (String × Value)) (fuel : ℕ) (r : List Char),
    (encodeFields fields).length < fuel →
      decodeFields fuel (encodeFields fields ++ '}' :: r) = some (fields, r)
  | _, 0, r, hf => absurd hf (Nat.not_lt_zero _)
  | [], fuel + 1, r, hf => by simp [encodeFields, decodeFields]
  | (k, v) :: rest, fuel + 1, r, hf => by
      simp only [encodeFields, List.length_cons, List.length_append] at hf
      have hk := decodeString_encode k fuel (':' :: (v.encode ++ (encodeFields rest ++ '}' :: r)))
        (by omega)
      have hv := decodeValue_encode v fuel (encodeFields rest ++ '}' :: r) (by omega)
        (v.endsBefore_of_stops (stops_encodeFields rest r))
      have hrest := decodeFields_encode rest fuel r (by omega)
      simp [encodeFields, decodeFields, hk, hv, hrest, expect]

end

theorem decode_encode (v : Value) : decode v.encode = some v := by
  have h := decodeValue_encode v (v.encode.length + 1) [] (by omega)
    (v.endsBefore_of_stops stops_nil)
  rw [List.append_nil] at h
  simp [decode, h]

theorem encode_injective {v w : Value} (h : v.encode = w.encode) : v = w := by
  have hv := decode_encode v
  rw [h, decode_encode w] at hv
  exact (Option.some.inj hv).symm

theorem encode_append_inj {v w : Value} {r t : List Char} (hv : v.EndsBefore r)
    (hw : w.EndsBefore t) (h : v.encode ++ r = w.encode ++ t) : v = w ∧ r = t := by
  have hleft := decodeValue_encode v (v.encode.length + w.encode.length) r (by omega) hv
  have hright := decodeValue_encode w (v.encode.length + w.encode.length) t (by omega) hw
  rw [h, hright] at hleft
  simpa [eq_comm] using hleft

instance : DecidableEq Value := fun v w =>
  decidable_of_iff (v.encode = w.encode) ⟨encode_injective, fun h => by rw [h]⟩

/-- Read one value that takes the whole text and nests at most `limit` deep. -/
def decodeWithin (limit : ℕ) (cs : List Char) : Option Value :=
  (decode cs).filter fun v => v.depth ≤ limit

theorem decodeWithin_encode (limit : ℕ) (v : Value) :
    decodeWithin limit v.encode = if v.depth ≤ limit then some v else none := by
  simp [decodeWithin, decode_encode, Option.filter]

/-! ### Arrays as joined texts -/

def joined : List Value → List Char
  | [] => []
  | v :: vs => v.encode ++ encodeItems vs

theorem encode_array (items : List Value) :
    (Value.array items).encode = '[' :: (joined items ++ [']']) := by
  cases items <;> simp [Value.encode, joined]

theorem encodeItems_append (xs ys : List Value) :
    encodeItems (xs ++ ys) = encodeItems xs ++ encodeItems ys := by
  induction xs with
  | nil => rfl
  | cons x xs ih => simp [encodeItems, ih]

theorem encodeItems_eq_cons {xs : List Value} (h : xs ≠ []) : encodeItems xs = ',' :: joined xs := by
  cases xs with
  | nil => exact absurd rfl h
  | cons x xs => rfl

theorem joined_append {xs ys : List Value} (hx : xs ≠ []) :
    joined (xs ++ ys) = joined xs ++ encodeItems ys := by
  cases xs with
  | nil => exact absurd rfl hx
  | cons x xs => simp [joined, encodeItems_append]

theorem joined_ne_nil {xs : List Value} (h : xs ≠ []) : joined xs ≠ [] := by
  cases xs with
  | nil => exact absurd rfl h
  | cons x xs =>
      obtain ⟨c, r, hc, _⟩ := x.encode_head
      simp [joined, hc]

theorem joined_eq_intercalate (xs : List Value) :
    joined xs = [','].intercalate (xs.map Value.encode) := by
  cases xs with
  | nil => rfl
  | cons x xs =>
      induction xs generalizing x with
      | nil => simp [joined, encodeItems]
      | cons y ys ih =>
          have h := ih y
          simp only [joined, encodeItems, List.map_cons] at h ⊢
          rw [List.intercalate_cons_cons, ← h]
          simp

theorem encodeItems_of_prefix {xs ys : List Value} (hx : ∀ x ∈ xs, ∀ n, x ≠ .number n)
    (h : encodeItems xs <+: encodeItems ys ++ [']']) : ∃ zs, ys = xs ++ zs := by
  induction xs generalizing ys with
  | nil => exact ⟨ys, rfl⟩
  | cons x xs ih =>
      obtain ⟨t, ht⟩ := h
      cases ys with
      | nil => simp [encodeItems] at ht
      | cons y ys =>
          simp only [encodeItems, List.cons_append, List.append_assoc, List.cons.injEq,
            true_and] at ht
          obtain ⟨rfl, hrest⟩ := encode_append_inj
            (fun n hn => absurd hn (hx x (by simp) n))
            (y.endsBefore_of_stops (stops_encodeItems ys [])) ht
          obtain ⟨zs, rfl⟩ := ih (fun z hz => hx z (by simp [hz])) ⟨t, hrest⟩
          exact ⟨zs, rfl⟩

/-- An array's text without its closing bracket is a prefix of another's only
when its items are. Numbers are excepted: `1` is a prefix of `12`. -/
theorem prefix_of_encode_array {xs ys : List Value} (hx : ∀ x ∈ xs, ∀ n, x ≠ .number n)
    (h : '[' :: joined xs <+: (Value.array ys).encode) : ∃ zs, ys = xs ++ zs := by
  rw [encode_array, List.cons_prefix_cons] at h
  cases xs with
  | nil => exact ⟨ys, rfl⟩
  | cons x xs =>
      obtain ⟨t, ht⟩ := h.2
      cases ys with
      | nil =>
          obtain ⟨c, r, hc, hclose, _⟩ := x.encode_head
          simp [joined, hc, hclose] at ht
      | cons y ys =>
          simp only [joined, List.append_assoc] at ht
          obtain ⟨rfl, hrest⟩ := encode_append_inj
            (fun n hn => absurd hn (hx x (by simp) n))
            (y.endsBefore_of_stops (stops_encodeItems ys [])) ht
          obtain ⟨zs, rfl⟩ := encodeItems_of_prefix (fun z hz => hx z (by simp [hz])) ⟨t, hrest⟩
          exact ⟨zs, rfl⟩

end Albedo.Json
