import Mathlib.Data.List.Nodup
import Mathlib.Data.List.Range
import Mathlib.Data.List.Flatten

/-!
# Linearizable histories

A history of calls on a shared store is linearizable when the calls that were answered can
be put in one order that a sequential specification agrees with and that contradicts no
call having been answered before another was made. Where every answered call has a point in
the run at which the specification gives its answer, that is enough.
-/
namespace Albedo.Linearize

variable {σ Op ν ι : Type*}

/-- From one store to another, the operations one after the other give these answers. -/
def Replays (spec : σ → Op → ν × σ) : σ → List (Op × ν) → σ → Prop
  | s, [], s' => s = s'
  | s, (op, v) :: rest, s' => (spec s op).1 = v ∧ Replays spec (spec s op).2 rest s'

/-- The answered calls have an order that the specification and real time agree with. -/
def Linearizable (spec : σ → Op → ν × σ) (s : σ) (history : ι → Option (Op × ν))
    (precedes : ι → ι → Prop) : Prop :=
  ∃ order : List ι, order.Nodup ∧ (∀ c, c ∈ order ↔ (history c).isSome) ∧
    order.Pairwise (fun a b => ¬ precedes b a) ∧ ∃ s', Replays spec s (order.filterMap history) s'

theorem Replays.append {spec : σ → Op → ν × σ} {s t u : σ} {xs ys : List (Op × ν)}
    (hx : Replays spec s xs t) (hy : Replays spec t ys u) : Replays spec s (xs ++ ys) u := by
  induction xs generalizing s with
  | nil =>
      obtain rfl : s = t := hx
      exact hy
  | cons x xs ih => exact ⟨hx.1, ih hx.2⟩

/-- Every answered call has a point among the stores of a run: one that writes takes the
store there to the next one, one that reads leaves it. -/
structure Points (spec : σ → Op → ν × σ) (stores : ℕ → σ) (n : ℕ)
    (history : ι → Option (Op × ν)) (precedes : ι → ι → Prop) (point : ι → ℕ)
    (writes : ι → Prop) : Prop where
  bound : ∀ c, (history c).isSome → point c ≤ n
  reads : ∀ c op v, history c = some (op, v) → ¬ writes c →
    spec (stores (point c)) op = (v, stores (point c))
  changes : ∀ c op v, history c = some (op, v) → writes c →
    point c < n ∧ spec (stores (point c)) op = (v, stores (point c + 1))
  unique : ∀ c d, (history c).isSome → (history d).isSome → writes c → writes d →
    point c = point d → c = d
  idle : ∀ k < n, (∀ c, (history c).isSome → writes c → point c ≠ k) → stores (k + 1) = stores k
  real : ∀ c d, (history c).isSome → (history d).isSome → precedes c d → point c < point d

section
variable {spec : σ → Op → ν × σ} {stores : ℕ → σ} {n : ℕ} {history : ι → Option (Op × ν)}
variable {precedes : ι → ι → Prop} {point : ι → ℕ} {writes : ι → Prop}

theorem replays_reads {k : ℕ} {calls : List ι} (h : ∀ c ∈ calls, ∀ op v, history c = some (op, v) →
    spec (stores k) op = (v, stores k)) :
    Replays spec (stores k) (calls.filterMap history) (stores k) := by
  induction calls with
  | nil => rfl
  | cons c calls ih =>
      have hrest := ih fun d hd => h d (List.mem_cons_of_mem _ hd)
      cases hc : history c with
      | none => rwa [List.filterMap_cons_none hc]
      | some call =>
          obtain ⟨op, v⟩ := call
          rw [List.filterMap_cons_some hc]
          have hspec := h c List.mem_cons_self op v hc
          exact ⟨by rw [hspec], by rwa [hspec]⟩

theorem nil_or_singleton {calls : List ι} (hn : calls.Nodup) (h : ∀ c ∈ calls, ∀ d ∈ calls, c = d) :
    calls = [] ∨ ∃ c, calls = [c] := by
  match calls with
  | [] => exact Or.inl rfl
  | [c] => exact Or.inr ⟨c, rfl⟩
  | c :: d :: rest =>
      have heq := h c (by simp) d (by simp)
      exact absurd (heq ▸ List.mem_cons_self) (List.nodup_cons.mp hn).1

open scoped Classical in
/-- The calls with their point at one store: those that read it, then the one that writes. -/
noncomputable def callsAt (point : ι → ℕ) (writes : ι → Prop) (ids : List ι) (k : ℕ) : List ι :=
  (ids.filter fun c => point c = k ∧ ¬ writes c) ++ ids.filter fun c => point c = k ∧ writes c

theorem mem_callsAt {ids : List ι} {k : ℕ} {c : ι} :
    c ∈ callsAt point writes ids k ↔ c ∈ ids ∧ point c = k := by
  unfold callsAt
  simp only [List.mem_append, List.mem_filter, decide_eq_true_eq]
  tauto

theorem nodup_callsAt {ids : List ι} (hn : ids.Nodup) (k : ℕ) :
    (callsAt point writes ids k).Nodup := by
  unfold callsAt
  refine List.nodup_append.mpr ⟨hn.filter _, hn.filter _, fun c hc d hd heq => ?_⟩
  simp only [List.mem_filter, decide_eq_true_eq] at hc hd
  exact hc.2.2 (heq ▸ hd.2.2)

open scoped Classical in
theorem Points.replays_callsAt (h : Points spec stores n history precedes point writes)
    {ids : List ι} (hn : ids.Nodup) (hids : ∀ c, c ∈ ids ↔ (history c).isSome) {k : ℕ} (hk : k ≤ n) :
    Replays spec (stores k) ((callsAt point writes ids k).filterMap history)
      (if k < n then stores (k + 1) else stores k) := by
  unfold callsAt
  rw [List.filterMap_append]
  refine Replays.append (replays_reads fun c hc op v hcall => ?_) ?_
  · simp only [List.mem_filter, decide_eq_true_eq] at hc
    obtain ⟨_, rfl, hwrites⟩ := hc
    exact h.reads c op v hcall hwrites
  · have hsame : ∀ c ∈ ids.filter fun c => decide (point c = k ∧ writes c),
        ∀ d ∈ ids.filter fun c => decide (point c = k ∧ writes c), c = d := by
      intro c hc d hd
      simp only [List.mem_filter, decide_eq_true_eq] at hc hd
      exact h.unique c d ((hids c).mp hc.1) ((hids d).mp hd.1) hc.2.2 hd.2.2
        (hc.2.1.trans hd.2.1.symm)
    rcases nil_or_singleton (hn.filter _) hsame with hnil | ⟨c, hc⟩
    · rw [hnil]
      have hidle : k < n → stores (k + 1) = stores k := fun hlt =>
        h.idle k hlt fun c hsome hwrites hpoint => by
          have hmem : c ∈ ([] : List ι) := by
            rw [← hnil]
            simp [(hids c).mpr hsome, hpoint, hwrites]
          exact absurd hmem List.not_mem_nil
      split_ifs with hlt
      · exact (hidle hlt).symm
      · rfl
    · have hmem := hc ▸ List.mem_singleton_self c
      simp only [List.mem_filter, decide_eq_true_eq] at hmem
      obtain ⟨hid, rfl, hwrites⟩ := hmem
      obtain ⟨⟨op, v⟩, hcall⟩ := Option.isSome_iff_exists.mp ((hids c).mp hid)
      obtain ⟨hlt, hspec⟩ := h.changes c op v hcall hwrites
      rw [hc, List.filterMap_cons_some hcall, if_pos hlt]
      exact ⟨by rw [hspec], by rw [hspec]; rfl⟩

theorem Points.linearizable (h : Points spec stores n history precedes point writes)
    {ids : List ι} (hn : ids.Nodup) (hids : ∀ c, c ∈ ids ↔ (history c).isSome) :
    Linearizable spec (stores 0) history precedes := by
  refine ⟨(List.range (n + 1)).flatMap (callsAt point writes ids), ?_, ?_, ?_, ?_⟩
  · refine List.nodup_flatMap.mpr ⟨fun k _ => nodup_callsAt hn k, ?_⟩
    refine List.Nodup.pairwise_of_forall_ne List.nodup_range fun j _ k _ hjk c hj hk => ?_
    exact hjk ((mem_callsAt.mp hj).2.symm.trans (mem_callsAt.mp hk).2)
  · intro c
    simp only [List.mem_flatMap, List.mem_range, mem_callsAt]
    constructor
    · rintro ⟨_, _, hmem, _⟩
      exact (hids c).mp hmem
    · intro hsome
      exact ⟨point c, Nat.lt_succ_of_le (h.bound c hsome), (hids c).mpr hsome, rfl⟩
  · have hreal : ∀ j k, j ≤ k → ∀ c ∈ callsAt point writes ids j, ∀ d ∈ callsAt point writes ids k,
        ¬ precedes d c := by
      intro j k hjk c hc d hd hprecedes
      obtain ⟨hcid, rfl⟩ := mem_callsAt.mp hc
      obtain ⟨hdid, rfl⟩ := mem_callsAt.mp hd
      have hlt := h.real d c ((hids d).mp hdid) ((hids c).mp hcid) hprecedes
      omega
    refine List.pairwise_flatMap.mpr ⟨fun k _ => ?_, ?_⟩
    · exact List.pairwise_of_forall_mem_list fun c hc d hd => hreal k k le_rfl c hc d hd
    · exact List.pairwise_lt_range.imp fun hlt => hreal _ _ (le_of_lt hlt)
  · -- the calls before a store take the first one to it
    have hreach : ∀ k, k ≤ n → Replays spec (stores 0)
        (((List.range k).flatMap (callsAt point writes ids)).filterMap history) (stores k) := by
      intro k
      induction k with
      | zero => exact fun _ => rfl
      | succ k ih =>
          intro hk
          have hlast := h.replays_callsAt hn hids (Nat.le_of_succ_le hk)
          rw [if_pos (Nat.lt_of_succ_le hk)] at hlast
          rw [List.range_succ, List.flatMap_append, List.filterMap_append]
          refine (ih (Nat.le_of_succ_le hk)).append ?_
          simpa using hlast
    have hlast := h.replays_callsAt hn hids (le_refl n)
    rw [if_neg (lt_irrefl n)] at hlast
    refine ⟨stores n, ?_⟩
    rw [List.range_succ, List.flatMap_append, List.filterMap_append]
    refine (hreach n le_rfl).append ?_
    simpa using hlast

end

end Albedo.Linearize
