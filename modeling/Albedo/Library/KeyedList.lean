import Mathlib.Algebra.GroupWithZero.Nat
import Mathlib.Data.List.Nodup
import Mathlib.Order.Basic

/-!
# Keyed lists

A list of entries edited by key: replace in place or append, remove, place a run
ahead of a key. Each operation is described by the keys it leaves, in order, and
by what it leaves under each key; with distinct keys these two determine the list.
-/
namespace Albedo.KeyedList

variable {κ α : Type*}

def keys (l : List (κ × α)) : List κ := l.map Prod.fst

@[simp] theorem keys_nil : keys ([] : List (κ × α)) = [] := rfl

@[simp] theorem keys_cons (e : κ × α) (l : List (κ × α)) : keys (e :: l) = e.1 :: keys l := rfl

@[simp] theorem keys_append (l m : List (κ × α)) : keys (l ++ m) = keys l ++ keys m :=
  List.map_append

theorem mem_keys {k : κ} {l : List (κ × α)} : k ∈ keys l ↔ ∃ v, (k, v) ∈ l := by
  simp [keys]

theorem keys_filter (p : κ → Bool) (l : List (κ × α)) :
    keys (l.filter fun e => p e.1) = (keys l).filter p := by
  simp [keys, List.filter_map, Function.comp_def]

/-! ### Lists in the order of their keys -/

section Sorted

variable [Preorder κ] {l m : List (κ × α)}

def Sorted (l : List (κ × α)) : Prop := l.Pairwise fun e f => e.1 < f.1

theorem Sorted.nodup_keys (h : Sorted l) : (keys l).Nodup :=
  (List.pairwise_map.mpr h).imp fun hlt => ne_of_lt hlt

theorem Sorted.nodup (h : Sorted l) : l.Nodup := h.nodup_keys.of_map

theorem Sorted.ext (hl : Sorted l) (hm : Sorted m) (h : ∀ e, e ∈ l ↔ e ∈ m) : l = m := by
  refine List.Perm.eq_of_pairwise (fun x y _ _ hxy hyx => ?_) hl hm
    ((List.perm_ext_iff_of_nodup hl.nodup hm.nodup).mpr h)
  exact absurd hxy (lt_asymm hyx)

end Sorted

variable [DecidableEq κ]

/-- What is entered under a key, with the keys compared as they are decided. -/
def valueOf (k : κ) (l : List (κ × α)) : Option α := l.lookup k

/-- Replace the entry under the key in place, or add one at the end. -/
def put (k : κ) (v : α) : List (κ × α) → List (κ × α)
  | [] => [(k, v)]
  | e :: l => if e.1 = k then (k, v) :: l else e :: put k v l

def remove (k : κ) (l : List (κ × α)) : List (κ × α) := l.filter fun e => e.1 ≠ k

/-- Place an entry ahead of the marker, or at the end when no entry has that key. -/
def placeBefore (marker : Option κ) (e : κ × α) : List (κ × α) → List (κ × α)
  | [] => [e]
  | f :: l => if some f.1 = marker then e :: f :: l else f :: placeBefore marker e l

theorem lookup_eq_none {k : κ} {l : List (κ × α)} : l.lookup k = none ↔ k ∉ keys l := by
  rw [List.lookup_eq_none_iff, mem_keys]
  constructor
  · rintro h ⟨v, hv⟩
    simpa using h _ hv
  · intro h e he
    have hne : k ≠ e.1 := fun hk => h ⟨e.2, hk ▸ he⟩
    simpa using hne

theorem mem_of_lookup {k : κ} {v : α} {l : List (κ × α)} (h : l.lookup k = some v) : (k, v) ∈ l := by
  obtain ⟨before, after, rfl, _⟩ := List.lookup_eq_some_iff.mp h
  simp

theorem mem_keys_of_lookup {k : κ} {v : α} {l : List (κ × α)} (h : l.lookup k = some v) :
    k ∈ keys l :=
  mem_keys.mpr ⟨v, mem_of_lookup h⟩

theorem lookup_of_mem_keys {k : κ} {l : List (κ × α)} (h : k ∈ keys l) : ∃ v, l.lookup k = some v := by
  cases hl : l.lookup k with
  | none => exact absurd h (lookup_eq_none.mp hl)
  | some v => exact ⟨v, rfl⟩

theorem lookup_of_mem {k : κ} {v : α} {l : List (κ × α)} (hl : (keys l).Nodup) (h : (k, v) ∈ l) :
    l.lookup k = some v := by
  induction l with
  | nil => cases h
  | cons e l ih =>
      rw [keys_cons, List.nodup_cons] at hl
      rcases List.mem_cons.mp h with rfl | h
      · simp
      · have hne : k ≠ e.1 := fun hk => hl.1 (hk ▸ mem_keys.mpr ⟨v, h⟩)
        have hbeq : (k == e.1) = false := by simpa using hne
        rw [List.lookup_cons, hbeq]
        exact ih hl.2 h

theorem lookup_eq_some_iff {k : κ} {v : α} {l : List (κ × α)} (hl : (keys l).Nodup) :
    l.lookup k = some v ↔ (k, v) ∈ l :=
  ⟨mem_of_lookup, lookup_of_mem hl⟩

theorem Sorted.filter_eq [Preorder κ] {l m : List (κ × α)} (hl : Sorted l) (hm : Sorted m)
    {p : κ → Bool} (h : ∀ k, p k = true → l.lookup k = m.lookup k) :
    l.filter (fun e => p e.1) = m.filter fun e => p e.1 := by
  refine Sorted.ext (hl.filter _) (hm.filter _) fun ⟨k, v⟩ => ?_
  rw [List.mem_filter, List.mem_filter]
  refine and_congr_left fun hk => ?_
  rw [← lookup_eq_some_iff hl.nodup_keys, ← lookup_eq_some_iff hm.nodup_keys, h k hk]

theorem eq_of_keys_of_lookup {l m : List (κ × α)} (hl : (keys l).Nodup) (hk : keys l = keys m)
    (hv : ∀ k ∈ keys l, l.lookup k = m.lookup k) : l = m := by
  induction l generalizing m with
  | nil =>
      cases m with
      | nil => rfl
      | cons f m => simp at hk
  | cons e l ih =>
      cases m with
      | nil => simp at hk
      | cons f m =>
          obtain ⟨k, v⟩ := e
          obtain ⟨k', w⟩ := f
          simp only [keys_cons, List.cons.injEq] at hk
          obtain ⟨rfl, hk⟩ := hk
          have hvw : v = w := by simpa using hv k (by simp)
          subst hvw
          rw [keys_cons, List.nodup_cons] at hl
          rw [ih hl.2 hk]
          intro j hj
          have hne : (j == k) = false := by
            simpa using fun hjk : j = k => hl.1 (hjk ▸ hj)
          simpa [List.lookup_cons, hne] using hv j (by simp [hj])

/-! ### What each edit leaves -/

theorem lookup_put (k j : κ) (v : α) (l : List (κ × α)) :
    (put k v l).lookup j = if j = k then some v else l.lookup j := by
  induction l with
  | nil => by_cases h : j = k <;> simp [put, h]
  | cons e l ih =>
      obtain ⟨i, w⟩ := e
      by_cases hi : i = k
      · subst hi
        by_cases hj : j = i
        · simp [put, hj]
        · have hbeq : (j == i) = false := by simpa using hj
          simp [put, List.lookup_cons, hbeq, hj]
      · by_cases hj : j = i
        · subst hj
          simp [put, hi]
        · have hbeq : (j == i) = false := by simpa using hj
          simp only [put, hi, if_false, List.lookup_cons, hbeq]
          exact ih

theorem valueOf_put (k j : κ) (v : α) (l : List (κ × α)) :
    valueOf j (put k v l) = if j = k then some v else valueOf j l :=
  lookup_put k j v l

theorem mem_of_mem_put {k : κ} {v : α} {e : κ × α} {l : List (κ × α)} (h : e ∈ put k v l) :
    e = (k, v) ∨ e ∈ l := by
  induction l with
  | nil => exact .inl (List.mem_singleton.mp h)
  | cons f l ih =>
      rw [put] at h
      split_ifs at h
      · rcases List.mem_cons.mp h with rfl | htail
        · exact .inl rfl
        · exact .inr (List.mem_cons_of_mem _ htail)
      · rcases List.mem_cons.mp h with rfl | htail
        · exact .inr List.mem_cons_self
        · exact (ih htail).imp_right (List.mem_cons_of_mem _)

theorem keys_put (k : κ) (v : α) (l : List (κ × α)) :
    keys (put k v l) = if k ∈ keys l then keys l else keys l ++ [k] := by
  induction l with
  | nil => simp [put]
  | cons e l ih =>
      by_cases he : e.1 = k
      · simp [put, he]
      · have hke : k ≠ e.1 := Ne.symm he
        by_cases hk : k ∈ keys l
        · simp [put, he, ih, hk]
        · simp [put, he, ih, hk, hke]

theorem nodup_put (k : κ) (v : α) {l : List (κ × α)} (h : (keys l).Nodup) :
    (keys (put k v l)).Nodup := by
  rw [keys_put]
  split_ifs with hk
  · exact h
  · simpa using h.concat hk

theorem put_eq_append {k : κ} {v : α} {l : List (κ × α)} (h : k ∉ keys l) :
    put k v l = l ++ [(k, v)] := by
  induction l with
  | nil => rfl
  | cons e l ih =>
      rw [keys_cons, List.mem_cons, not_or] at h
      simp [put, Ne.symm h.1, ih h.2]

theorem put_eq_self {k : κ} {v : α} {l : List (κ × α)} (h : l.lookup k = some v) :
    put k v l = l := by
  induction l with
  | nil => simp at h
  | cons e l ih =>
      obtain ⟨i, w⟩ := e
      by_cases hi : i = k
      · subst hi
        have hw : w = v := by simpa using h
        simp [put, hw]
      · have hbeq : (k == i) = false := by simpa using Ne.symm hi
        rw [List.lookup_cons, hbeq] at h
        simp [put, hi, ih h]

theorem sum_map_put {k : κ} {v w : α} {l : List (κ × α)} (f : α → ℕ) (h : l.lookup k = some w)
    (hf : f v = f w) :
    ((put k v l).map fun e => f e.2).sum = (l.map fun e => f e.2).sum := by
  induction l with
  | nil => cases h
  | cons e l ih =>
      obtain ⟨i, u⟩ := e
      by_cases hi : i = k
      · subst hi
        have hu : u = w := by simpa using h
        simp [put, hf, hu]
      · have hbeq : (k == i) = false := by simpa using Ne.symm hi
        rw [List.lookup_cons, hbeq] at h
        simp [put, hi, ih h]

theorem lookup_filter (p : κ → Bool) (k : κ) (l : List (κ × α)) :
    (l.filter fun e => p e.1).lookup k = if p k then l.lookup k else none := by
  induction l with
  | nil => simp
  | cons e l ih =>
      obtain ⟨i, w⟩ := e
      by_cases hk : k = i
      · subst hk
        cases hp : p k with
        | true => simp [hp]
        | false => simpa [hp] using ih
      · have hbeq : (k == i) = false := by simpa using hk
        cases hp : p i <;> simp [hp, List.lookup_cons, hbeq, ih]

theorem lookup_remove (k j : κ) (l : List (κ × α)) :
    (remove k l).lookup j = if j = k then none else l.lookup j := by
  have h := lookup_filter (fun i => decide (i ≠ k)) j l
  by_cases hj : j = k <;> simpa [remove, hj] using h

theorem sum_map_remove {k : κ} {w : α} {l : List (κ × α)} (f : α → ℕ) (hl : (keys l).Nodup)
    (h : l.lookup k = some w) :
    ((remove k l).map fun e => f e.2).sum + f w = (l.map fun e => f e.2).sum := by
  induction l with
  | nil => cases h
  | cons e l ih =>
      obtain ⟨i, u⟩ := e
      rw [keys_cons, List.nodup_cons] at hl
      by_cases hi : i = k
      · subst hi
        have hu : u = w := by simpa using h
        have hrest : remove i l = l := by
          refine List.filter_eq_self.mpr fun e he => ?_
          have hne : e.1 ≠ i := fun heq => hl.1 (heq ▸ mem_keys.mpr ⟨e.2, he⟩)
          simpa using hne
        have hgone : remove i ((i, u) :: l) = l := by
          rw [← hrest]
          simp [remove]
        rw [hgone, List.map_cons, List.sum_cons, hu]
        exact Nat.add_comm _ _
      · have hbeq : (k == i) = false := by simpa using Ne.symm hi
        rw [List.lookup_cons, hbeq] at h
        have hkept : remove k ((i, u) :: l) = (i, u) :: remove k l := by simp [remove, hi]
        rw [hkept, List.map_cons, List.sum_cons, List.map_cons, List.sum_cons, ← ih hl.2 h]
        exact Nat.add_assoc _ _ _

theorem keys_remove (k : κ) (l : List (κ × α)) : keys (remove k l) = (keys l).filter (· ≠ k) :=
  keys_filter (fun j => decide (j ≠ k)) l

theorem lookup_map {β : Type*} (f : α → β) (k : κ) (l : List (κ × α)) :
    (l.map fun e => (e.1, f e.2)).lookup k = (l.lookup k).map f := by
  induction l with
  | nil => rfl
  | cons e l ih =>
      rw [List.map_cons, List.lookup_cons, List.lookup_cons, ih]
      cases k == e.1 <;> rfl

/-- Placing an entry under an absent key ahead of a present one splits the list there. -/
theorem placeBefore_of_split {marker : κ} {e : κ × α} {l m : List (κ × α)} {w : α}
    (h : marker ∉ keys l) :
    placeBefore (some marker) e (l ++ (marker, w) :: m) = l ++ e :: (marker, w) :: m := by
  induction l with
  | nil => simp [placeBefore]
  | cons f l ih =>
      rw [keys_cons, List.mem_cons, not_or] at h
      simp [placeBefore, Ne.symm h.1, ih h.2]

theorem placeBefore_none (e : κ × α) (l : List (κ × α)) : placeBefore none e l = l ++ [e] := by
  induction l with
  | nil => rfl
  | cons f l ih => simp [placeBefore, ih]

/-! ### Plans of edits -/

inductive Edit (κ α : Type*) where
  | put (k : κ) (v : α)
  | remove (k : κ)

def Edit.key : Edit κ α → κ
  | .put k _ => k
  | .remove k => k

def Edit.value : Edit κ α → Option α
  | .put _ v => some v
  | .remove _ => none

def Edit.apply : Edit κ α → List (κ × α) → List (κ × α)
  | .put k v, l => KeyedList.put k v l
  | .remove k, l => KeyedList.remove k l

def runEdits (edits : List (Edit κ α)) (l : List (κ × α)) : List (κ × α) :=
  edits.foldl (fun l e => e.apply l) l

theorem runEdits_append (es fs : List (Edit κ α)) (l : List (κ × α)) :
    runEdits (es ++ fs) l = runEdits fs (runEdits es l) :=
  List.foldl_append

theorem Edit.lookup_apply (e : Edit κ α) (k : κ) (l : List (κ × α)) :
    (e.apply l).lookup k = if k = e.key then e.value else l.lookup k := by
  cases e with
  | put k v => exact lookup_put _ _ _ _
  | remove k => exact lookup_remove _ _ _

theorem Edit.mem_keys_apply {e : Edit κ α} {k : κ} {l : List (κ × α)} (h : k ≠ e.key) :
    k ∈ keys (e.apply l) ↔ k ∈ keys l := by
  have hlookup := e.lookup_apply k l
  rw [if_neg h] at hlookup
  rw [← not_iff_not, ← lookup_eq_none, ← lookup_eq_none, hlookup]

theorem lookup_runEdits_of_not_mem {edits : List (Edit κ α)} {k : κ}
    (h : k ∉ edits.map Edit.key) (l : List (κ × α)) :
    (runEdits edits l).lookup k = l.lookup k := by
  induction edits generalizing l with
  | nil => rfl
  | cons e edits ih =>
      rw [List.map_cons, List.mem_cons, not_or] at h
      have hrest := ih h.2 (e.apply l)
      rw [Edit.lookup_apply, if_neg h.1] at hrest
      exact hrest

theorem lookup_runEdits_of_mem {edits : List (Edit κ α)} (hn : (edits.map Edit.key).Nodup)
    {e : Edit κ α} (he : e ∈ edits) (l : List (κ × α)) :
    (runEdits edits l).lookup e.key = e.value := by
  induction edits generalizing l with
  | nil => cases he
  | cons f edits ih =>
      rw [List.map_cons, List.nodup_cons] at hn
      rcases List.mem_cons.mp he with rfl | he
      · have hrest := lookup_runEdits_of_not_mem hn.1 (e.apply l)
        rw [Edit.lookup_apply, if_pos rfl] at hrest
        exact hrest
      · exact ih hn.2 he (f.apply l)

theorem keys_runEdits_remove (ks : List κ) (l : List (κ × α)) :
    keys (runEdits (ks.map Edit.remove) l) = (keys l).filter (· ∉ ks) := by
  induction ks generalizing l with
  | nil => simp [runEdits]
  | cons k ks ih =>
      have hrest := ih (remove k l)
      rw [keys_remove, List.filter_filter] at hrest
      simp only [List.map_cons, runEdits, List.foldl_cons, Edit.apply] at hrest ⊢
      rw [hrest]
      apply List.filter_congr
      intro j _
      by_cases hj : j = k <;> simp [hj]

/-- Puts keep the order and add the keys that were absent, in the order of the plan. -/
theorem keys_runEdits_put {es : List (κ × α)} (hn : (keys es).Nodup) (l : List (κ × α)) :
    keys (runEdits (es.map fun e => Edit.put e.1 e.2) l) =
      keys l ++ (keys es).filter (· ∉ keys l) := by
  induction es generalizing l with
  | nil => simp [runEdits]
  | cons e es ih =>
      rw [keys_cons, List.nodup_cons] at hn
      have hrest := ih hn.2 (put e.1 e.2 l)
      simp only [List.map_cons, runEdits, List.foldl_cons, Edit.apply] at hrest ⊢
      rw [hrest, keys_put]
      by_cases hmem : e.1 ∈ keys l
      · simp [hmem]
      · have hcongr : (keys es).filter (· ∉ keys l ++ [e.1]) = (keys es).filter (· ∉ keys l) := by
          apply List.filter_congr
          intro j hj
          have hne : j ≠ e.1 := fun h => hn.1 (h ▸ hj)
          simp [hne]
        simp only [hmem, if_false, hcongr, List.append_assoc, keys_cons]
        simp [hmem]

end Albedo.KeyedList
