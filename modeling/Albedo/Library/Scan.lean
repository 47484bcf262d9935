import Mathlib.Data.List.Forall2
import Albedo.Library.Bincode

/-!
# Scans

A scan says of a wire what stands in it, field by field, without an opinion about any. A reader
follows a scan when it takes what the scan finds just where it admits the fields, one after the
other, with whatever it counts along the way.
-/
namespace Albedo.Bincode

/-- What a scan finds at a place: a value, the fields it stands in, and where they end. -/
structure Found (φ β : Type) where
  value : β
  fields : List φ
  after : Cursor

def Scan (φ β : Type) := Cursor → Option (Found φ β)

namespace Scan
variable {φ β γ ε : Type}

instance : Monad (Scan φ) where
  pure x c := some ⟨x, [], c⟩
  bind s k c := (s c).bind fun found =>
    (k found.value found.after).map fun next =>
      ⟨next.value, found.fields ++ next.fields, next.after⟩

def note (field : φ) : Scan φ Unit := fun c => some ⟨(), [field], c⟩

def nothing : Scan φ β := fun _ => none

def silent (r : Reader ε β) : Scan φ β := fun c => (r c).toOption.map fun p => ⟨p.1, [], p.2⟩

def times (s : Scan φ β) : ℕ → Scan φ (List β)
  | 0 => pure []
  | n + 1 => do
      let x ← s
      let xs ← times s n
      return x :: xs

end Scan

section
variable {φ κ σ ε α β γ δ : Type}

/-- A reader that starts from what it has counted and a place takes what a scan finds there just
where it admits the fields, and makes `f` of it. -/
def Follows (place : κ → Cursor → σ) (takes : κ → φ → Option κ) (r : StateT σ (Except ε) α)
    (s : Scan φ β) (f : β → α) : Prop :=
  ∀ count c, (r (place count c)).toOption = (s c).bind fun found =>
    (found.fields.foldlM takes count).map fun count' => (f found.value, place count' found.after)

variable {place : κ → Cursor → σ} {takes : κ → φ → Option κ}

theorem toOption_bind (r : StateT σ (Except ε) α) (k : α → StateT σ (Except ε) δ) (state : σ) :
    ((r >>= k) state).toOption = (r state).toOption.bind fun p => (k p.1 p.2).toOption := by
  change (Except.bind (r state) fun p => k p.1 p.2).toOption = _
  cases r state with
  | error e => rfl
  | ok p => rfl

theorem Follows.pure (x : β) (f : β → α) :
    Follows place takes (Pure.pure (f x) : StateT σ (Except ε) α) (Pure.pure x) f := fun _ _ => rfl

theorem Follows.bind {r : StateT σ (Except ε) α} {s : Scan φ β} {f : β → α}
    {k : α → StateT σ (Except ε) δ} {t : β → Scan φ γ} {g : γ → δ}
    (hr : Follows place takes r s f) (hk : ∀ y, Follows place takes (k (f y)) (t y) g) :
    Follows place takes (r >>= k) (s >>= t) g := by
  intro count c
  rw [toOption_bind, hr count c]
  change _ = ((s c).bind fun found => (t found.value found.after).map fun next =>
    (⟨next.value, found.fields ++ next.fields, next.after⟩ : Found φ γ)).bind _
  cases s c with
  | none => rfl
  | some found =>
      simp only [Option.bind_some, Option.bind_map, Function.comp_def, List.foldlM_append]
      cases hcount : found.fields.foldlM takes count with
      | none =>
          cases t found.value found.after with
          | none => rfl
          | some next => rfl
      | some count' =>
          simp only [Option.bind_some]
          rw [hk found.value count' found.after]
          rfl

theorem Follows.last {r : StateT σ (Except ε) α} {s : Scan φ β} {f : β → α} {k : α → δ}
    {t : β → γ} {g : γ → δ} (hr : Follows place takes r s f) (hk : ∀ y, k (f y) = g (t y)) :
    Follows place takes (r >>= fun x => Pure.pure (k x)) (s >>= fun y => Pure.pure (t y)) g :=
  hr.bind fun y => (by rw [hk]; exact Follows.pure (t y) g)

theorem Follows.mapped {r : StateT σ (Except ε) α} {s : Scan φ β} {f : β → α}
    (hr : Follows place takes r s f) :
    Follows place takes r (s >>= fun y => Pure.pure (f y)) id := by
  intro count c
  rw [hr]
  change _ = ((s c).bind fun found =>
    some (⟨f found.value, found.fields ++ [], found.after⟩ : Found φ α)).bind _
  cases s c with
  | none => rfl
  | some found => simp

theorem Follows.noted {r : StateT σ (Except ε) Unit} {field : φ}
    (h : ∀ count c, (r (place count c)).toOption =
      (takes count field).map fun count' => ((), place count' c)) :
    Follows place takes r (Scan.note field) id := by
  intro count c
  rw [h]
  change _ = ([field].foldlM takes count).map fun count' => ((), place count' c)
  rw [List.foldlM_cons]
  cases takes count field with
  | none => rfl
  | some count' => rfl

theorem Follows.uncounted {r : StateT σ (Except ε) α} {s : Scan φ β} {f : β → α} (field : φ)
    (hr : Follows place takes r s f) (h : ∀ count, takes count field = some count) :
    Follows place takes r (Scan.note field >>= fun _ => s) f := by
  intro count c
  rw [hr]
  change _ = ((s c).map fun next =>
    (⟨next.value, [field] ++ next.fields, next.after⟩ : Found φ β)).bind _
  cases s c with
  | none => rfl
  | some found => simp [h]

theorem Follows.silent {ε' : Type} {r : StateT σ (Except ε) α} {r' : Reader ε' α}
    (h : ∀ count c, (r (place count c)).toOption =
      (r' c).toOption.map fun p => (p.1, place count p.2)) :
    Follows place takes r (Scan.silent r' : Scan φ α) id := by
  intro count c
  rw [h]
  unfold Scan.silent
  cases (r' c).toOption with
  | none => rfl
  | some p => rfl

theorem Follows.nothing {r : StateT σ (Except ε) α} {f : β → α}
    (h : ∀ state, (r state).toOption = none) :
    Follows place takes r (Scan.nothing : Scan φ β) f := fun count c => h (place count c)

theorem forall₂_at {R : α → β → Prop} {xs : List α} {ys : List β} (h : List.Forall₂ R xs ys)
    (i : ℕ) : xs[i]? = none ∧ ys[i]? = none ∨ ∃ x y, xs[i]? = some x ∧ ys[i]? = some y ∧ R x y := by
  induction h generalizing i with
  | nil => exact .inl ⟨rfl, rfl⟩
  | @cons x y xs ys hxy _ ih =>
      cases i with
      | zero => exact .inr ⟨x, y, rfl, rfl, hxy⟩
      | succ i => simpa only [List.getElem?_cons_succ] using ih i

theorem Follows.times {r : StateT σ (Except ε) α} {s : Scan φ β} {f : β → α}
    {loop : ℕ → StateT σ (Except ε) (List α)} (hr : Follows place takes r s f)
    (hzero : loop 0 = Pure.pure [])
    (hsucc : ∀ n, loop (n + 1) = r >>= fun x => loop n >>= fun xs => Pure.pure (x :: xs)) (n : ℕ) :
    Follows place takes (loop n) (s.times n) (List.map f) := by
  induction n with
  | zero =>
      rw [hzero]
      exact Follows.pure [] (List.map f)
  | succ n ih =>
      rw [hsucc]
      exact hr.bind fun y => ih.last fun ys => rfl

end

end Albedo.Bincode
