import Mathlib.Data.List.Induction
import Mathlib.Logic.Function.Basic
import Mathlib.Tactic.Common

/-!
# Patches of a table

A table says what stands under each key. A list of patches is applied in its order, so the last
one that names a key decides what stands there.
-/
namespace Albedo.TableDelta

inductive Op (κ α : Type) where
  | set (key : κ) (value : α)
  | remove (key : κ)

variable {κ α : Type}

def Op.key : Op κ α → κ
  | .set key _ => key
  | .remove key => key

def Op.value : Op κ α → Option α
  | .set _ value => some value
  | .remove _ => none

variable [DecidableEq κ] {table target : κ → Option α} {ops : List (Op κ α)} {k : κ} {v : α}

def applyAll (table : κ → Option α) (ops : List (Op κ α)) : κ → Option α :=
  ops.foldl (fun t op => Function.update t op.key op.value) table

@[simp] theorem applyAll_nil : applyAll table [] = table := rfl

theorem applyAll_concat (op : Op κ α) :
    applyAll table (ops ++ [op]) = Function.update (applyAll table ops) op.key op.value := by
  rw [applyAll, List.foldl_append]
  rfl

/-- Under each key stands what some patch has put there, or what stood there before. -/
theorem applyAll_cases (table : κ → Option α) (ops : List (Op κ α)) (k : κ) :
    (∃ op ∈ ops, op.key = k ∧ applyAll table ops k = op.value) ∨
      (∀ op ∈ ops, op.key ≠ k) ∧ applyAll table ops k = table k := by
  induction ops using List.reverseRecOn with
  | nil => exact .inr ⟨fun op hop => absurd hop List.not_mem_nil, rfl⟩
  | append_singleton ops op ih =>
      rw [applyAll_concat]
      by_cases hkey : op.key = k
      · refine .inl ⟨op, List.mem_append_right _ List.mem_cons_self, hkey, ?_⟩
        rw [← hkey, Function.update_self]
      · rw [Function.update_of_ne (Ne.symm hkey)]
        rcases ih with ⟨last, hlast, hk⟩ | ⟨hnone, hk⟩
        · exact .inl ⟨last, List.mem_append_left _ hlast, hk⟩
        · refine .inr ⟨fun other hother => ?_, hk⟩
          rcases List.mem_append.mp hother with hother | hother
          · exact hnone other hother
          · rwa [List.mem_singleton.mp hother]

/-- Patches that all agree with a table, and name each key where it differs, lead to it. -/
theorem applyAll_eq (haims : ∀ op ∈ ops, op.value = target op.key)
    (hrest : ∀ k, (∀ op ∈ ops, op.key ≠ k) → table k = target k) :
    applyAll table ops = target := by
  funext k
  rcases applyAll_cases table ops k with ⟨op, hop, rfl, hk⟩ | ⟨hnone, hk⟩
  · rw [hk, haims op hop]
  · rw [hk, hrest k hnone]

/-! ### Tables of entries -/

variable {entries entries' : List (κ × α)} {e : κ × α}

def ofEntries (entries : List (κ × α)) : κ → Option α :=
  applyAll (fun _ => none) (entries.map fun e => .set e.1 e.2)

theorem mem_of_ofEntries (h : ofEntries entries k = some v) : (k, v) ∈ entries := by
  rcases applyAll_cases (fun _ => none) (entries.map fun e => .set e.1 e.2) k with
    ⟨op, hop, rfl, hk⟩ | ⟨-, hk⟩
  · obtain ⟨e, he, rfl⟩ := List.mem_map.mp hop
    obtain rfl : e.2 = v := Option.some.inj (hk.symm.trans h)
    exact he
  · cases hk.symm.trans h

def Consistent (entries : List (κ × α)) : Prop :=
  ∀ e ∈ entries, ∀ e' ∈ entries, e.1 = e'.1 → e.2 = e'.2

theorem Consistent.ofEntries_eq (h : Consistent entries) (he : e ∈ entries) :
    ofEntries entries e.1 = some e.2 := by
  rcases applyAll_cases (fun _ => none) (entries.map fun e => .set e.1 e.2) e.1 with
    ⟨op, hop, hkey, hk⟩ | ⟨hnone, -⟩
  · obtain ⟨e', he', rfl⟩ := List.mem_map.mp hop
    rw [ofEntries, hk]
    exact congrArg some (h e' he' e he hkey)
  · exact absurd rfl (hnone _ (List.mem_map_of_mem he))

def diff [DecidableEq α] (prev current : List (κ × α)) : List (Op κ α) :=
  (current.filterMap fun e =>
      if ofEntries prev e.1 = some e.2 then none else some (.set e.1 e.2)) ++
    prev.filterMap fun e => if (ofEntries current e.1).isSome then none else some (.remove e.1)

theorem applyAll_diff [DecidableEq α] (entries : List (κ × α)) (h : Consistent entries') :
    applyAll (ofEntries entries) (diff entries entries') = ofEntries entries' := by
  refine applyAll_eq (fun op hop => ?_) fun k hnone => ?_
  · rcases List.mem_append.mp hop with hop | hop
    · obtain ⟨e, he, hop⟩ := List.mem_filterMap.mp hop
      split_ifs at hop
      obtain rfl := Option.some.inj hop
      exact (h.ofEntries_eq he).symm
    · obtain ⟨e, -, hop⟩ := List.mem_filterMap.mp hop
      split_ifs at hop with hgone
      obtain rfl := Option.some.inj hop
      exact (Option.not_isSome_iff_eq_none.mp hgone).symm
  · -- a key that no patch names stands as it should already
    cases hcurrent : ofEntries entries' k with
    | some v =>
        by_contra hne
        exact hnone (.set k v) (List.mem_append_left _ (List.mem_filterMap.mpr
          ⟨(k, v), mem_of_ofEntries hcurrent, if_neg hne⟩)) rfl
    | none =>
        by_contra hne
        obtain ⟨v, hv⟩ := Option.ne_none_iff_exists'.mp hne
        have hgone : ¬ (ofEntries entries' k).isSome = true := by simp [hcurrent]
        exact hnone (.remove k) (List.mem_append_right _ (List.mem_filterMap.mpr
          ⟨(k, v), mem_of_ofEntries hv, if_neg hgone⟩)) rfl

end Albedo.TableDelta
