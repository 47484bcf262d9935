import Mathlib.Algebra.Group.Int.Defs
import Mathlib.Algebra.GroupWithZero.Nat
import Mathlib.Data.List.Basic
import Mathlib.Data.String.Basic
import Mathlib.Tactic.SplitIfs

/-!
# A wire of bytes

Numbers are written lowest byte first: small ones in one byte, larger ones after a marker that
says how wide they are. A reader takes bytes from where it stands. What it makes of bytes that
were written is put together from what its parts make of theirs, whatever bytes follow.
-/
namespace Albedo.Bincode

/-! ### Numbers -/

def leBytes : ℕ → ℕ → List UInt8
  | 0, _ => []
  | width + 1, n => UInt8.ofNat n :: leBytes width (n / 256)

def ofLe : List UInt8 → ℕ
  | [] => 0
  | b :: bytes => b.toNat + 256 * ofLe bytes

@[simp] theorem length_leBytes (width n : ℕ) : (leBytes width n).length = width := by
  induction width generalizing n with
  | zero => rfl
  | succ width ih => rw [leBytes, List.length_cons, ih]

theorem ofLe_leBytes (width n : ℕ) : ofLe (leBytes width n) = n % 256 ^ width := by
  induction width generalizing n with
  | zero => rw [pow_zero, Nat.mod_one, leBytes, ofLe]
  | succ width ih =>
      have hlow : (UInt8.ofNat n).toNat = n % 256 := by simp
      rw [leBytes, ofLe, ih, hlow, pow_succ', Nat.mod_mul]

/-- An unsigned number, after a marker where one byte is too small for it. -/
def encodeVarint (n : ℕ) : List UInt8 :=
  if n < 251 then [UInt8.ofNat n]
  else if n < 2 ^ 16 then 251 :: leBytes 2 n
  else if n < 2 ^ 32 then 252 :: leBytes 4 n
  else 253 :: leBytes 8 n

/-- A signed number as an unsigned one, near zero where it is. -/
def zigzag (n : ℤ) : ℕ := if n < 0 then 2 * (-n - 1).toNat + 1 else 2 * n.toNat

theorem zigzag_lt {n : ℤ} (hlow : -2 ^ 31 ≤ n) (hhigh : n < 2 ^ 31) : zigzag n < 2 ^ 32 := by
  unfold zigzag
  split_ifs <;> omega

/-! ### Readers -/

/-- What is left to read, and how far in it is. -/
structure Cursor where
  rest : List UInt8
  offset : ℕ

abbrev Reader (ε α : Type) := StateT Cursor (Except ε) α

section
variable {ε α β : Type}

def take (n : ℕ) (short : Cursor → ε) : Reader ε (List UInt8) := fun c =>
  if n ≤ c.rest.length then .ok (c.rest.take n, ⟨c.rest.drop n, c.offset + n⟩) else .error (short c)

def byte (short : Cursor → ε) : Reader ε UInt8 := fun c =>
  match c.rest with
  | [] => .error (short c)
  | b :: rest => .ok (b, ⟨rest, c.offset + 1⟩)

def number (width : ℕ) (short : Cursor → ε) : Reader ε ℕ := ofLe <$> take width short

def fail (error : Cursor → ε) : Reader ε α := fun c => .error (error c)

def afterMarker (widest : ℕ) (short : ℕ → Cursor → ε) (other : UInt8 → Cursor → ε)
    (marker : UInt8) : Reader ε ℕ :=
  if marker.toNat < 251 then pure marker.toNat
  else if marker = 251 ∧ 2 ≤ widest then number 2 (short 2)
  else if marker = 252 ∧ 4 ≤ widest then number 4 (short 4)
  else if marker = 253 ∧ 8 ≤ widest then number 8 (short 8)
  else fail (other marker)

def varint (widest : ℕ) (short : ℕ → Cursor → ε) (other : UInt8 → Cursor → ε) : Reader ε ℕ :=
  byte (short 1) >>= afterMarker widest short other

theorem number_toOption (width : ℕ) (short : Cursor → ε) (c : Cursor) :
    (number width short c).toOption = if width ≤ c.rest.length then
      some (ofLe (c.rest.take width), ⟨c.rest.drop width, c.offset + width⟩) else none := by
  change (Except.bind (take width short c) fun p => .ok (ofLe p.1, p.2)).toOption = _
  unfold take
  split_ifs <;> rfl

theorem ofLe_lt (bytes : List UInt8) : ofLe bytes < 256 ^ bytes.length := by
  induction bytes with
  | nil => decide
  | cons b bytes ih =>
      have hb := b.toNat_lt
      rw [ofLe, List.length_cons, pow_succ]
      omega

theorem marked_toOption {ε' : Type} {width widest : ℕ} (short : Cursor → ε) (short' : Cursor → ε')
    (rest : List UInt8) (offset : ℕ) {o : Option (ℕ × Cursor)}
    (hfits : width ≤ widest → o = (number width short ⟨rest, offset + 1⟩).toOption)
    (hwide : ¬ width ≤ widest → o = none) :
    o = (number width short' ⟨rest, offset + 1⟩).toOption.filter
      fun p => p.2.offset - offset ≤ 1 + widest := by
  have hmoved : offset + 1 + width - offset = 1 + width := by omega
  rw [number_toOption]
  by_cases h : width ≤ widest
  · rw [hfits h, number_toOption]
    split_ifs
    · simp [Option.filter, hmoved, h]
    · rfl
  · rw [hwide h]
    split_ifs
    · simp [Option.filter, hmoved, h]
    · rfl

/-- Of the numbers there are, a reader takes those no wider than asked for, and that is told by
how many bytes they take. -/
theorem varint_toOption {ε' : Type} {widest : ℕ} (h : widest = 2 ∨ widest = 4 ∨ widest = 8)
    (short : ℕ → Cursor → ε) (other : UInt8 → Cursor → ε) (short' : ℕ → Cursor → ε')
    (other' : UInt8 → Cursor → ε') (c : Cursor) :
    (varint widest short other c).toOption = (varint 8 short' other' c).toOption.filter
      fun p => p.2.offset - c.offset ≤ 1 + widest := by
  obtain ⟨rest, offset⟩ := c
  cases rest with
  | nil => rfl
  | cons marker rest =>
      change (afterMarker widest short other marker ⟨rest, offset + 1⟩).toOption =
        (afterMarker 8 short' other' marker ⟨rest, offset + 1⟩).toOption.filter _
      unfold afterMarker
      by_cases hsmall : marker.toNat < 251
      · rw [if_pos hsmall, if_pos hsmall]
        change some (marker.toNat, (⟨rest, offset + 1⟩ : Cursor)) = Option.filter _ (some _)
        simp [Option.filter]
      rw [if_neg hsmall, if_neg hsmall]
      by_cases h251 : marker = 251
      · subst h251
        have hw : 2 ≤ widest := by omega
        rw [if_pos ⟨rfl, hw⟩, if_pos ⟨rfl, by decide⟩]
        exact marked_toOption (short 2) (short' 2) rest offset (fun _ => rfl) fun h => absurd hw h
      by_cases h252 : marker = 252
      · subst h252
        simp only [show ¬ ((252 : UInt8) = 251) by decide, show ¬ ((252 : UInt8) = 253) by decide,
          false_and, if_false, true_and, show 4 ≤ 8 by decide, if_true]
        refine marked_toOption (short 4) (short' 4) rest offset (fun hw => ?_) fun hw => ?_
        · rw [if_pos hw]
        · rw [if_neg hw]
          rfl
      by_cases h253 : marker = 253
      · subst h253
        simp only [show ¬ ((253 : UInt8) = 251) by decide, show ¬ ((253 : UInt8) = 252) by decide,
          false_and, if_false, true_and, show 8 ≤ 8 by decide, if_true]
        refine marked_toOption (short 8) (short' 8) rest offset (fun hw => ?_) fun hw => ?_
        · rw [if_pos hw]
        · rw [if_neg hw]
          rfl
      simp only [h251, h252, h253, false_and, if_false]
      rfl
theorem take_any {ε' : Type} (n : ℕ) (short : Cursor → ε) (short' : Cursor → ε') (c : Cursor) :
    (take n short c).toOption = (take n short' c).toOption := by
  unfold take
  split_ifs <;> rfl

theorem byte_any {ε' : Type} (short : Cursor → ε) (short' : Cursor → ε') (c : Cursor) :
    (byte short c).toOption = (byte short' c).toOption := by
  unfold byte
  cases c.rest <;> rfl

theorem varint_any {ε' : Type} (short : ℕ → Cursor → ε) (other : UInt8 → Cursor → ε)
    (short' : ℕ → Cursor → ε') (other' : UInt8 → Cursor → ε') (c : Cursor) :
    (varint 8 short other c).toOption = (varint 8 short' other' c).toOption := by
  rw [varint_toOption (.inr (.inr rfl)) short other short' other' c]
  exact (varint_toOption (.inr (.inr rfl)) short' other' short' other' c).symm

theorem varint_lt {widest : ℕ} {short : ℕ → Cursor → ε} {other : UInt8 → Cursor → ε} {c : Cursor}
    {p : ℕ × Cursor} (h : varint widest short other c = .ok p) : p.1 < 256 ^ 8 := by
  obtain ⟨rest, offset⟩ := c
  cases rest with
  | nil => cases h
  | cons marker rest =>
      change afterMarker widest short other marker ⟨rest, offset + 1⟩ = .ok p at h
      have hnumber : ∀ width ≤ 8, number width (short width) ⟨rest, offset + 1⟩ = .ok p →
          p.1 < 256 ^ 8 := by
        intro width hwidth hok
        have hread := number_toOption width (short width) ⟨rest, offset + 1⟩
        rw [hok] at hread
        split_ifs at hread with hlength
        · rw [← Option.some.inj hread.symm]
          refine lt_of_lt_of_le (ofLe_lt _) (Nat.pow_le_pow_right (by decide) ?_)
          rw [List.length_take]
          omega
        · cases hread
      unfold afterMarker at h
      split_ifs at h with h₁ h₂ h₃ h₄
      · cases h
        change marker.toNat < 256 ^ 8
        omega
      · exact hnumber 2 (by decide) h
      · exact hnumber 4 (by decide) h
      · exact hnumber 8 (by decide) h
      · cases h

def check (allowed : Bool) (error : Cursor → ε) : Reader ε Unit := fun c =>
  if allowed then .ok ((), c) else .error (error c)

def times (r : Reader ε α) : ℕ → Reader ε (List α)
  | 0 => pure []
  | n + 1 => do
      let x ← r
      let xs ← times r n
      return x :: xs

def Reads (r : Reader ε α) (bytes : List UInt8) (o : Option α) : Prop :=
  ∀ rest offset, (r ⟨bytes ++ rest, offset⟩).toOption =
    o.map fun x => (x, ⟨rest, offset + bytes.length⟩)

variable {r : Reader ε α} {bytes bytes' : List UInt8} {o : Option α} {x : α}

theorem Reads.pure (x : α) : Reads (Pure.pure x : Reader ε α) [] (some x) := fun _ _ => rfl

theorem Reads.bind {k : α → Reader ε β} {o' : α → Option β} (hr : Reads r bytes o)
    (hk : ∀ x, o = some x → Reads (k x) bytes' (o' x)) :
    Reads (r >>= k) (bytes ++ bytes') (o.bind o') := by
  intro rest offset
  have hfirst := hr (bytes' ++ rest) offset
  rw [← List.append_assoc] at hfirst
  change (Except.bind (r ⟨bytes ++ bytes' ++ rest, offset⟩) fun p => k p.1 p.2).toOption = _
  cases hread : r ⟨bytes ++ bytes' ++ rest, offset⟩ with
  | error e =>
      rw [hread] at hfirst
      cases o with
      | none => rfl
      | some x => cases hfirst
  | ok p =>
      rw [hread] at hfirst
      cases o with
      | none => cases hfirst
      | some x =>
          obtain rfl := Option.some.inj hfirst
          have hsecond := hk x rfl rest (offset + bytes.length)
          simpa [Except.bind, List.length_append, Nat.add_assoc] using hsecond

theorem Reads.andThen {k : α → Reader ε β} {o' : Option β} (hr : Reads r bytes (some x))
    (hk : Reads (k x) bytes' o') : Reads (r >>= k) (bytes ++ bytes') o' :=
  hr.bind fun y hy => (by obtain rfl := Option.some.inj hy; exact hk : Reads (k y) bytes' o')

theorem Reads.last {f : α → β} (hr : Reads r bytes o) :
    Reads (r >>= fun x => Pure.pure (f x)) bytes (o.map f) := by
  have ho : (o.bind fun x => some (f x)) = o.map f := by cases o <;> rfl
  have h := hr.bind fun x _ => Reads.pure (ε := ε) (f x)
  rwa [List.append_nil, ho] at h

theorem Reads.map {f : α → β} (hr : Reads r bytes o) : Reads (f <$> r) bytes (o.map f) := hr.last

theorem Reads.take (bytes : List UInt8) (short : Cursor → ε) :
    Reads (Bincode.take bytes.length short) bytes (some bytes) := by
  intro rest offset
  simp [Bincode.take, Except.toOption]

theorem Reads.byte (b : UInt8) (short : Cursor → ε) : Reads (Bincode.byte short) [b] (some b) :=
  fun _ _ => rfl

theorem Reads.number (width n : ℕ) (short : Cursor → ε) :
    Reads (Bincode.number width short) (leBytes width n) (some (n % 256 ^ width)) := by
  have hread := (Reads.take (leBytes width n) short).map (f := ofLe)
  rwa [length_leBytes, Option.map_some, ofLe_leBytes] at hread

theorem Reads.fail (error : Cursor → ε) (bytes : List UInt8) :
    Reads (Bincode.fail error : Reader ε α) bytes none := fun _ _ => rfl

theorem Reads.marked {widest : ℕ} {short : ℕ → Cursor → ε} {other : UInt8 → Cursor → ε}
    {marker : UInt8} {bytes : List UInt8} {o : Option ℕ}
    (h : Reads (afterMarker widest short other marker) bytes o) :
    Reads (Bincode.varint widest short other) (marker :: bytes) o :=
  (Reads.byte marker (short 1)).andThen h

theorem Reads.narrow {widest n : ℕ} {short : ℕ → Cursor → ε} {other : UInt8 → Cursor → ε}
    (h : n < 251) : Reads (Bincode.varint widest short other) [UInt8.ofNat n] (some n) := by
  have hbyte : (UInt8.ofNat n).toNat = n := by
    rw [UInt8.toNat_ofNat']
    omega
  apply Reads.marked
  rw [afterMarker, hbyte, if_pos h]
  exact Reads.pure n

def markers : List (UInt8 × ℕ) := [(251, 2), (252, 4), (253, 8)]

theorem Reads.wide {widest width : ℕ} {marker : UInt8} {short : ℕ → Cursor → ε}
    {other : UInt8 → Cursor → ε} (hmarker : (marker, width) ∈ markers) (h : width ≤ widest) (n : ℕ) :
    Reads (Bincode.varint widest short other) (marker :: leBytes width n)
      (some (n % 256 ^ width)) := by
  apply Reads.marked
  have hread := Reads.number width n (short width)
  simp only [markers, List.mem_cons, Prod.mk.injEq, List.not_mem_nil, or_false] at hmarker
  rcases hmarker with ⟨rfl, rfl⟩ | ⟨rfl, rfl⟩ | ⟨rfl, rfl⟩ <;> simpa [afterMarker, h] using hread

theorem Reads.varint {widest n : ℕ} (h : n < 2 ^ 32 ∧ 4 ≤ widest ∨ n < 2 ^ 64 ∧ 8 ≤ widest)
    (short : ℕ → Cursor → ε) (other : UInt8 → Cursor → ε) :
    Reads (Bincode.varint widest short other) (encodeVarint n) (some n) := by
  have wide {width : ℕ} {marker : UInt8} (hmarker : (marker, width) ∈ markers)
      (hwidest : width ≤ widest) (hn : n < 256 ^ width) :
      Reads (Bincode.varint widest short other) (marker :: leBytes width n) (some n) := by
    simpa only [Nat.mod_eq_of_lt hn] using Reads.wide hmarker hwidest n
  unfold encodeVarint
  split_ifs with h₁ h₂ h₃
  · exact Reads.narrow h₁
  · exact wide (by decide) (by omega) (by omega)
  · exact wide (by decide) (by omega) (by omega)
  · exact wide (by decide) (by omega) (by omega)

theorem Reads.passed {allowed : Bool} {error : Cursor → ε} {k : Unit → Reader ε α}
    (h : allowed = true) (hk : Reads (k ()) bytes o) :
    Reads (Bincode.check allowed error >>= k) bytes o := by
  subst h
  exact hk

theorem Reads.stopped {allowed : Bool} {error : Cursor → ε} {k : Unit → Reader ε α}
    (h : allowed = false) (bytes : List UInt8) :
    Reads (Bincode.check allowed error >>= k) bytes none := by
  subst h
  exact fun _ _ => rfl

theorem Reads.times {γ : Type} {encode : γ → List UInt8} {heard : γ → Option α} {xs : List γ}
    (h : ∀ x ∈ xs, Reads r (encode x) (heard x)) :
    Reads (Bincode.times r xs.length) (xs.flatMap encode) (xs.mapM heard) := by
  induction xs with
  | nil => exact Reads.pure []
  | cons x xs ih =>
      have hrest := ih fun y hy => h y (List.mem_cons_of_mem _ hy)
      have hboth := (h x List.mem_cons_self).bind fun y (_ : heard x = some y) =>
        hrest.bind fun ys (_ : xs.mapM heard = some ys) => Reads.pure (y :: ys)
      simpa only [List.flatMap_cons, List.append_nil, List.mapM_cons, Option.bind_eq_bind,
        List.length_cons, Bincode.times, Option.pure_def] using hboth

theorem Reads.eq_ok (h : Reads r bytes (some x)) (rest : List UInt8) (offset : ℕ) :
    r ⟨bytes ++ rest, offset⟩ = .ok (x, ⟨rest, offset + bytes.length⟩) := by
  have hanswer := h rest offset
  cases hread : r ⟨bytes ++ rest, offset⟩ with
  | error e =>
      rw [hread] at hanswer
      cases hanswer
  | ok p =>
      rw [hread] at hanswer
      rw [Option.some.inj hanswer]

theorem Reads.ne_ok (h : Reads r bytes none) (rest : List UInt8) (offset : ℕ) (p : α × Cursor) :
    r ⟨bytes ++ rest, offset⟩ ≠ .ok p := by
  intro hread
  have hanswer := h rest offset
  rw [hread] at hanswer
  cases hanswer

def Yields (r : Reader ε α) (P : α → Prop) : Prop := ∀ c p, r c = .ok p → P p.1

theorem Yields.pure {P : α → Prop} (h : P x) : Yields (Pure.pure x : Reader ε α) P := by
  rintro c p ⟨⟩
  exact h

theorem Yields.andThen {P : α → Prop} {Q : β → Prop} {k : α → Reader ε β} (hr : Yields r P)
    (hk : ∀ x, P x → Yields (k x) Q) : Yields (r >>= k) Q := by
  intro c p hp
  change Except.bind (r c) (fun q => k q.1 q.2) = .ok p at hp
  cases hread : r c with
  | error e =>
      rw [hread] at hp
      cases hp
  | ok q =>
      rw [hread] at hp
      exact hk q.1 (hr c q hread) q.2 p hp

theorem Yields.bind {Q : β → Prop} {k : α → Reader ε β} (hk : ∀ x, Yields (k x) Q) :
    Yields (r >>= k) Q :=
  Yields.andThen (P := fun _ => True) (fun _ _ _ => trivial) fun x _ => hk x

theorem Yields.fail {P : α → Prop} (error : Cursor → ε) : Yields (Bincode.fail error) P :=
  fun _ _ h => nomatch h

theorem Yields.passed {P : α → Prop} {allowed : Bool} {error : Cursor → ε}
    {k : Unit → Reader ε α} (hk : allowed = true → Yields (k ()) P) :
    Yields (Bincode.check allowed error >>= k) P := by
  cases allowed with
  | false => exact fun c p h => nomatch h
  | true => exact hk rfl

theorem Yields.times {P : α → Prop} (hr : Yields r P) (n : ℕ) :
    Yields (Bincode.times r n) fun xs => ∀ x ∈ xs, P x := by
  induction n with
  | zero => exact .pure fun x hx => absurd hx List.not_mem_nil
  | succ n ih =>
      exact hr.andThen fun x hx => ih.andThen fun xs hxs =>
        .pure (List.forall_mem_cons.mpr ⟨hx, hxs⟩)

end

end Albedo.Bincode
