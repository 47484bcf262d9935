import Albedo.Runtime.Registration

/-!
# What a sweep leaves

The sweep drops idle re-derivable topics, oldest first, while its running total is over
the budget. The total stays the footprint of what is left, so the sweep ends within the
budget or with nothing left to drop.
-/
namespace Albedo.Broadcast

def Topic.isIdle (t : Topic) : Bool := t.identity.isEvictable && t.subscribers.keys.isEmpty

def Registry.idleTopics (reg : Registry) : List Topic := reg.topicList.filter Topic.isIdle

def bytesOf (topics : List Topic) : ℕ := (topics.map fun t => utf8Length t.value).sum

def Registry.idleBytes (reg : Registry) : ℕ := bytesOf reg.idleTopics

theorem bytesOf_perm {topics topics' : List Topic} (h : topics.Perm topics') :
    bytesOf topics = bytesOf topics' :=
  (h.map _).sum_nat

theorem bytesOf_filter_le {p q : Topic → Bool} {topics : List Topic}
    (h : ∀ t ∈ topics, p t = true → q t = true) :
    bytesOf (topics.filter p) ≤ bytesOf (topics.filter q) := by
  induction topics with
  | nil => exact Nat.le_refl 0
  | cons t topics ih =>
      obtain ⟨ht, hrest⟩ := List.forall_mem_cons.mp h
      have hle := ih hrest
      simp only [bytesOf] at hle ⊢
      cases hp : p t with
      | true =>
          simp only [hp, ht hp, List.filter_cons_of_pos, List.map_cons, List.sum_cons]
          omega
      | false =>
          cases hq : q t with
          | true =>
              simp only [hp, hq, Bool.false_eq_true, not_false_iff, List.filter_cons_of_neg,
                List.filter_cons_of_pos, List.map_cons, List.sum_cons]
              omega
          | false => simpa [hp, hq] using hle

theorem Registry.topicList_perm {reg : Registry} {name : String} {t : Topic}
    (h : reg.get name = some t) : reg.topicList.Perm
      (t :: ((reg.topics.erase name).entries.map Sigma.snd)) := by
  have hmem : name ∈ reg.topics.entries.keys := by
    rw [← AList.keys, ← AList.mem_keys, ← AList.lookup_isSome, show reg.topics.lookup name = _ from h]
    rfl
  obtain ⟨u, before, after, hbefore, hentries, herase⟩ := List.exists_of_kerase hmem
  have hu : t = u := by
    have hlook : reg.topics.lookup name = some u := by
      rw [← Option.mem_def, AList.mem_lookup_iff, hentries]
      simp
    exact Option.some.inj (h.symm.trans hlook)
  have hrest : (reg.topics.erase name).entries = before ++ after := herase
  rw [Registry.topicList, hentries, hrest, hu, List.map_append, List.map_append, List.map_cons]
  exact List.perm_middle

theorem Registry.mem_topicList {reg : Registry} {t : Topic} (h : t ∈ reg.topicList) :
    ∃ name, reg.get name = some t := by
  obtain ⟨⟨name, u⟩, hmem, rfl⟩ := List.mem_map.mp h
  exact ⟨name, AList.mem_lookup_iff.mpr hmem⟩

theorem Registry.dropIfIdle_of_mem {reg : Registry} (hnamed : reg.Named) {t : Topic}
    (h : t ∈ reg.idleTopics) : (reg.dropIfIdle t.name).1 = true ∧
      reg.topicList.Perm (t :: (reg.dropIfIdle t.name).2.topicList) := by
  obtain ⟨hlive, hidle⟩ := List.mem_filter.mp h
  obtain ⟨name, hget⟩ := Registry.mem_topicList hlive
  obtain rfl := (hnamed name t hget).1
  have hperm := Registry.topicList_perm hget
  unfold Registry.dropIfIdle
  simp only [hget, show (t.identity.isEvictable && t.subscribers.keys.isEmpty) = true from hidle,
    if_true, true_and]
  exact hperm

theorem Registry.evictableBytes_eq (reg : Registry) :
    reg.evictableBytes = bytesOf (reg.topicList.filter fun t => t.identity.isEvictable) :=
  rfl

theorem Registry.idleBytes_le_evictableBytes (reg : Registry) :
    reg.idleBytes ≤ reg.evictableBytes :=
  bytesOf_filter_le fun _ _ hidle => (Bool.and_eq_true_iff.mp hidle).1

theorem sweepStep_idle {budget : ℕ} {reg : Registry} {t : Topic} {candidates : List Topic}
    (hnamed : reg.Named) (hover : ¬ reg.evictableBytes ≤ budget)
    (hperm : reg.idleTopics.Perm (t :: candidates)) :
    sweepStep budget (reg.evictableBytes, reg) t =
        ((reg.dropIfIdle t.name).2.evictableBytes, (reg.dropIfIdle t.name).2) ∧
      (reg.dropIfIdle t.name).2.idleTopics.Perm candidates := by
  have hmem : t ∈ reg.idleTopics := hperm.mem_iff.mpr List.mem_cons_self
  have hidle : t.isIdle = true := (List.mem_filter.mp hmem).2
  have hevictable : t.identity.isEvictable = true := (Bool.and_eq_true_iff.mp hidle).1
  obtain ⟨hdropped, hlist⟩ := Registry.dropIfIdle_of_mem hnamed hmem
  refine ⟨?_, ?_⟩
  · have hbytes := bytesOf_perm (hlist.filter fun t => t.identity.isEvictable)
    rw [List.filter_cons_of_pos (p := fun t : Topic => t.identity.isEvictable) hevictable,
      ← Registry.evictableBytes_eq] at hbytes
    have hsum : reg.evictableBytes =
        utf8Length t.value + (reg.dropIfIdle t.name).2.evictableBytes := hbytes
    unfold sweepStep
    rw [if_neg hover]
    revert hdropped hsum
    rcases reg.dropIfIdle t.name with ⟨dropped, swept⟩
    rintro rfl hsum
    simp only [Prod.mk.injEq, and_true]
    dsimp only at hsum
    omega
  · have hidles := hlist.filter Topic.isIdle
    rw [List.filter_cons_of_pos hidle] at hidles
    exact (List.Perm.cons_inv (hidles.symm.trans hperm))

theorem sweepStep_within {budget : ℕ} {acc : ℕ × Registry} (h : acc.1 ≤ budget)
    (candidates : List Topic) : candidates.foldl (sweepStep budget) acc = acc := by
  induction candidates with
  | nil => rfl
  | cons t candidates ih => rw [List.foldl_cons, sweepStep, if_pos h, ih]

theorem sweep_idleBytes {budget : ℕ} {candidates : List Topic} {reg : Registry}
    (hnamed : reg.Named) (hperm : reg.idleTopics.Perm candidates) :
    (candidates.foldl (sweepStep budget) (reg.evictableBytes, reg)).2.idleBytes ≤ budget := by
  induction candidates generalizing reg with
  | nil =>
      rw [List.foldl_nil, Registry.idleBytes, List.Perm.eq_nil hperm]
      exact Nat.zero_le _
  | cons t candidates ih =>
      by_cases hwithin : reg.evictableBytes ≤ budget
      · rw [sweepStep_within hwithin]
        exact Nat.le_trans reg.idleBytes_le_evictableBytes hwithin
      · obtain ⟨hstep, hrest⟩ := sweepStep_idle hnamed hwithin hperm
        rw [List.foldl_cons, hstep]
        exact ih (named_kept.drop hnamed) hrest

theorem Registry.idleBytes_enforceByteBudget {reg : Registry} (hnamed : reg.Named)
    (budget : ℕ) : (reg.enforceByteBudget budget).idleBytes ≤ budget := by
  unfold Registry.enforceByteBudget
  split_ifs with hwithin
  · exact Nat.le_trans reg.idleBytes_le_evictableBytes hwithin
  · exact sweep_idleBytes hnamed (List.mergeSort_perm _ _).symm

end Albedo.Broadcast
