import Albedo.Library.KeyedList
import Mathlib.Order.Lattice

/-!
# Ordered maps

A finite map kept as its entries in the order of their keys. What is under each key
determines the map.
-/
namespace Albedo
open KeyedList

variable {κ α : Type*} [LinearOrder κ]

/-- Put an entry at its place by key, in the place of the one that has the key. -/
def insertEntry (k : κ) (v : α) : List (κ × α) → List (κ × α)
  | [] => [(k, v)]
  | e :: l =>
      if k = e.1 then (k, v) :: l
      else if k < e.1 then (k, v) :: e :: l
      else e :: insertEntry k v l

theorem mem_insertEntry {k : κ} {v : α} {l : List (κ × α)} {e : κ × α}
    (h : e ∈ insertEntry k v l) : e = (k, v) ∨ e ∈ l := by
  induction l with
  | nil => exact .inl (List.mem_singleton.mp h)
  | cons f l ih =>
      unfold insertEntry at h
      split_ifs at h with heq hlt
      · exact (List.mem_cons.mp h).imp_right fun h => List.mem_cons_of_mem f h
      · exact List.mem_cons.mp h
      · rcases List.mem_cons.mp h with rfl | h
        · exact .inr List.mem_cons_self
        · exact (ih h).imp_right fun h => List.mem_cons_of_mem f h

theorem sorted_insertEntry {k : κ} {v : α} {l : List (κ × α)} (hl : Sorted l) :
    Sorted (insertEntry k v l) := by
  induction l with
  | nil => exact List.pairwise_singleton _ _
  | cons e l ih =>
      obtain ⟨hhead, htail⟩ := List.pairwise_cons.mp hl
      unfold insertEntry
      split_ifs with heq hlt
      · subst heq
        exact List.pairwise_cons.mpr ⟨hhead, htail⟩
      · refine List.pairwise_cons.mpr ⟨?_, hl⟩
        intro f hf
        rcases List.mem_cons.mp hf with rfl | hf
        · exact hlt
        · exact hlt.trans (hhead f hf)
      · refine List.pairwise_cons.mpr ⟨?_, ih htail⟩
        intro f hf
        rcases mem_insertEntry hf with rfl | hf
        · exact lt_of_le_of_ne (not_lt.mp hlt) (Ne.symm heq)
        · exact hhead f hf

theorem lookup_insertEntry (k j : κ) (v : α) (l : List (κ × α)) :
    (insertEntry k v l).lookup j = if j = k then some v else l.lookup j := by
  induction l with
  | nil => by_cases h : j = k <;> simp [insertEntry, h]
  | cons e l ih =>
      unfold insertEntry
      by_cases hj : j = k
      · subst hj
        rw [if_pos rfl] at ih ⊢
        split_ifs with heq hlt
        · exact List.lookup_cons_self
        · exact List.lookup_cons_self
        · have hbeq : (j == e.1) = false := by simpa using heq
          rw [List.lookup_cons, hbeq, ih]
      · have hbeq : (j == k) = false := by simpa using hj
        rw [if_neg hj] at ih ⊢
        split_ifs with heq hlt
        · rw [List.lookup_cons, List.lookup_cons, ← heq, hbeq]
        · rw [List.lookup_cons, hbeq]
        · rw [List.lookup_cons, List.lookup_cons, ih]

structure OrderedMap (κ α : Type*) [LinearOrder κ] where
  entries : List (κ × α)
  sorted : Sorted entries

namespace OrderedMap

def empty : OrderedMap κ α := ⟨[], List.Pairwise.nil⟩

def get (m : OrderedMap κ α) (k : κ) : Option α := m.entries.lookup k

def insert (m : OrderedMap κ α) (k : κ) (v : α) : OrderedMap κ α :=
  ⟨insertEntry k v m.entries, sorted_insertEntry m.sorted⟩

def ofEntries (l : List (κ × α)) : OrderedMap κ α := l.foldl (fun m e => m.insert e.1 e.2) empty

@[simp] theorem get_empty (k : κ) : (empty : OrderedMap κ α).get k = none := rfl

theorem get_insert (m : OrderedMap κ α) (k j : κ) (v : α) :
    (m.insert k v).get j = if j = k then some v else m.get j :=
  lookup_insertEntry k j v m.entries

theorem mem_entries {m : OrderedMap κ α} {k : κ} {v : α} :
    (k, v) ∈ m.entries ↔ m.get k = some v :=
  (lookup_eq_some_iff m.sorted.nodup_keys).symm

theorem ext_get {m n : OrderedMap κ α} (h : ∀ k, m.get k = n.get k) : m = n := by
  obtain ⟨l, hl⟩ := m
  obtain ⟨l', hl'⟩ := n
  have hentries : l = l' := by
    refine hl.ext hl' fun e => ?_
    have hm := mem_entries (m := ⟨l, hl⟩) (k := e.1) (v := e.2)
    have hn := mem_entries (m := ⟨l', hl'⟩) (k := e.1) (v := e.2)
    rw [h] at hm
    exact hm.trans hn.symm
  subst hentries
  rfl

theorem get_foldl_insert {l : List (κ × α)} (hl : (keys l).Nodup) (m : OrderedMap κ α) (k : κ) :
    (l.foldl (fun m e => m.insert e.1 e.2) m).get k = (l.lookup k).or (m.get k) := by
  induction l generalizing m with
  | nil => rfl
  | cons e l ih =>
      rw [keys_cons, List.nodup_cons] at hl
      rw [List.foldl_cons, ih hl.2, get_insert, List.lookup_cons]
      by_cases hk : k = e.1
      · subst hk
        rw [lookup_eq_none.mpr hl.1]
        simp
      · have hbeq : (k == e.1) = false := by simpa using hk
        rw [hbeq, if_neg hk]

theorem get_ofEntries {l : List (κ × α)} (hl : (keys l).Nodup) (k : κ) :
    (ofEntries l).get k = l.lookup k := by
  rw [ofEntries, get_foldl_insert hl, get_empty, Option.or_none]

end OrderedMap

end Albedo
