import Mathlib.Tactic.IntervalCases
import Albedo.Runtime.SlotSteps

/-!
# What the slot store keeps

As long as no removal falls between the stamp of a write and its dirty mark, and no write
between the two halves of a removal, the last value of a slot is drained, a drain sees the
values of its own session only, and whatever a session left can be evicted.
-/
namespace Albedo.SessionSlots
open Interleave KeyedList

variable {Session Slot Value : Type} [DecidableEq Session] [DecidableEq Slot]

section
variable (hash : HashOrder (Key Session Slot)) (events : List (Event (Operation Session Slot Value)))

def Quiescent (n : ℕ) : Prop :=
  ∀ c op rest, (operationsAt hash events n).calls c = some (op, rest) → ∃ a, rest = some (.done a)

/-- Since step `i` nothing else was written to the slot, and its session was neither cleared
nor evicted. -/
structure LastUntil (i n : ℕ) (key : Key Session Slot) : Prop where
  unwritten : ∀ j < n, i < j → ∀ c value, ¬ WritesAt hash events j c key value
  unpurged : ∀ j < n, i < j → ∀ c gone, key.session ∈ gone → ¬ PurgesAt hash events j c gone

/-- Some drain that took its keys after step `i` returned the value. -/
def DrainedSince (i n : ℕ) (key : Key Session Slot) (value : Value) : Prop :=
  ∃ t d taken out, i < t ∧ t < n ∧ TakesAt hash events t d key.session taken ∧
    (operationsAt hash events n).Answered d (.drain key.session) (.setInstructions out) ∧
      (key.slot, value) ∈ out

structure Sound : Prop where
  delivered : ∀ n ≤ events.length, Quiescent hash events n → ∀ i w key value,
    WritesAt hash events i w key value → LastUntil hash events i n key →
    ∀ m ≤ n, (∃ op a, (operationsAt hash events m).Answered w op a) →
    ∀ d a, (operationsAt hash events m).calls d = none →
      (operationsAt hash events n).Answered d (.drain key.session) a → DrainedSince hash events i n key value
  own : ∀ n ≤ events.length, ∀ d session out slot value,
    (operationsAt hash events n).Answered d (.drain session) (.setInstructions out) →
    (slot, value) ∈ out → ∃ i < n, ∃ w, WritesAt hash events i w ⟨session, slot⟩ value
  reached : ∀ n ≤ events.length, Quiescent hash events n → ∀ key,
    (slotsAt hash events n).values.lookup key ≠ none ∨ key ∈ (slotsAt hash events n).dirty →
      (slotsAt hash events n).lastSeen.lookup key.session ≠ none

/-- No removal of a session falls between the stamp of a write and its dirty mark, and no write
falls between the two halves of a removal of its session. -/
structure Apart : Prop where
  marks : ∀ w key value j m, StampsAt hash events j w key value → MarksAt hash events m w key value →
    ¬ ∃ c gone f g, key.session ∈ gone ∧ ForgetsAt hash events f c gone ∧ CleansAt hash events g c gone ∧
      j < f ∧ g < m
  cleans : ∀ c gone p g, PurgesAt hash events p c gone → CleansAt hash events g c gone →
    ¬ ∃ w key value i m, key.session ∈ gone ∧ WritesAt hash events i w key value ∧
      MarksAt hash events m w key value ∧ p < i ∧ m < g

end

variable {hash : HashOrder (Key Session Slot)} {events : List (Event (Operation Session Slot Value))}
variable {i j k m n c w : ℕ} {key : Key Session Slot} {value : Value} {gone : List Session}
variable {s s' : SlotStore Session Slot Value} {op : Operation Session Slot Value}
variable {a : Answer Slot Value}

/-! ### What the steps leave -/

theorem lookup_purge (s : SlotStore Session Slot Value) (gone : List Session) (key : Key Session Slot) :
    (s.purge gone).values.lookup key =
      if key.session ∈ gone then none else s.values.lookup key := by
  have hfilter := lookup_filter (fun key : Key Session Slot => decide (key.session ∉ gone)) key s.values
  refine hfilter.trans ?_
  by_cases hmem : key.session ∈ gone
  · simp [hmem]
  · simp [hmem]

theorem StampsAt.seen (h : StampsAt hash events j w key value) :
    (slotsAt hash events (j + 1)).lastSeen.lookup key.session ≠ none := by
  obtain ⟨seen, -, -, -, hrun⟩ := h
  have hstore : slotsAt hash events (j + 1) = (slotsAt hash events j).stamp key.session seen := change_run hrun
  rw [hstore]
  change (put key.session seen (slotsAt hash events j).lastSeen).lookup key.session ≠ none
  rw [lookup_put, if_pos rfl]
  exact Option.some_ne_none seen

theorem WritesAt.stored (h : WritesAt hash events i w key value) :
    (slotsAt hash events (i + 1)).values.lookup key = some value := by
  obtain ⟨-, -, -, hrun⟩ := h
  have hstore : slotsAt hash events (i + 1) = (slotsAt hash events i).insertValue key value :=
    change_run hrun
  rw [hstore]
  change (put key value (slotsAt hash events i).values).lookup key = some value
  rw [lookup_put, if_pos rfl]

theorem MarksAt.dirty (h : MarksAt hash events m w key value) :
    key ∈ (slotsAt hash events (m + 1)).dirty := by
  obtain ⟨-, -, -, hrun⟩ := h
  have hstore : slotsAt hash events (m + 1) = (slotsAt hash events m).markDirty key := change_run hrun
  rw [hstore]
  exact List.mem_insert_self

theorem PurgesAt.dropped (h : PurgesAt hash events k c gone) (hmem : key.session ∈ gone) :
    (slotsAt hash events (k + 1)).values.lookup key = none := by
  obtain ⟨-, -, -, -, -, -, hrun⟩ := h
  have hstore : slotsAt hash events (k + 1) = (slotsAt hash events k).purge gone := change_run hrun
  rw [hstore, lookup_purge, if_pos hmem]

theorem CleansAt.cleaned (h : CleansAt hash events k c gone) (hmem : key.session ∈ gone) :
    key ∉ (slotsAt hash events (k + 1)).dirty := by
  obtain ⟨-, -, -, -, -, -, hrun⟩ := h
  have hstore : slotsAt hash events (k + 1) = (slotsAt hash events k).clean gone := change_run hrun
  rw [hstore]
  intro hkey
  exact absurd hmem (by simpa using (List.mem_filter.mp hkey).2)

/-! ### Where changes come from -/

theorem Deed.written (h : Deed hash events k s s') (hvalue : s'.values.lookup key = some value) :
    s.values.lookup key = some value ∨ ∃ w, WritesAt hash events k w key value := by
  cases h with
  | same => exact Or.inl hvalue
  | elapsed ms => exact Or.inl hvalue
  | stamped session seen => exact Or.inl hvalue
  | @wrote w key' value' hwrites =>
      change (put key' value' s.values).lookup key = some value at hvalue
      rw [lookup_put] at hvalue
      split_ifs at hvalue with heq
      · cases hvalue
        exact Or.inr ⟨w, heq ▸ hwrites⟩
      · exact Or.inl hvalue
  | marked _ _ _ => exact Or.inl hvalue
  | took _ => exact Or.inl hvalue
  | forgot _ _ => exact Or.inl hvalue
  | @purged c gone hpurges =>
      rw [lookup_purge] at hvalue
      split_ifs at hvalue
      exact Or.inl hvalue
  | cleaned _ _ _ => exact Or.inl hvalue

theorem Deed.keeps_value (h : Deed hash events k s s') (hvalue : s.values.lookup key = some value) :
    s'.values.lookup key = some value ∨ (∃ w value', WritesAt hash events k w key value') ∨
      ∃ c gone, key.session ∈ gone ∧ PurgesAt hash events k c gone := by
  cases h with
  | same => exact Or.inl hvalue
  | elapsed ms => exact Or.inl hvalue
  | stamped session seen => exact Or.inl hvalue
  | @wrote w key' value' hwrites =>
      by_cases heq : key = key'
      · exact Or.inr (Or.inl ⟨w, value', heq ▸ hwrites⟩)
      · refine Or.inl ?_
        change (put key' value' s.values).lookup key = some value
        rw [lookup_put, if_neg heq, hvalue]
  | marked _ _ _ => exact Or.inl hvalue
  | took _ => exact Or.inl hvalue
  | forgot _ _ => exact Or.inl hvalue
  | @purged c gone hpurges =>
      by_cases hmem : key.session ∈ gone
      · exact Or.inr (Or.inr ⟨c, gone, hmem, hpurges⟩)
      · exact Or.inl (by rw [lookup_purge, if_neg hmem, hvalue])
  | cleaned _ _ _ => exact Or.inl hvalue

theorem Deed.marks (h : Deed hash events k s s') (hclean : key ∉ s.dirty) (hdirty : key ∈ s'.dirty) :
    ∃ i w value, i < k ∧ StampsAt hash events i w key value ∧ MarksAt hash events k w key value := by
  cases h with
  | @marked i w key' value hik hstamps hmarks =>
      rcases List.mem_insert_iff.mp hdirty with rfl | hbefore
      · exact ⟨i, w, value, hik, hstamps, hmarks⟩
      · exact absurd hbefore hclean
  | took _ => exact absurd (List.mem_of_mem_filter hdirty) hclean
  | cleaned _ _ _ => exact absurd (List.mem_of_mem_filter hdirty) hclean
  | same | elapsed | stamped | wrote | forgot | purged => exact absurd hdirty hclean

theorem Deed.takes (h : Deed hash events k s s') (hdirty : key ∈ s.dirty) (hclean : key ∉ s'.dirty) :
    (∃ c taken, TakesAt hash events k c key.session taken) ∨
      ∃ i c gone, key.session ∈ gone ∧ i < k ∧ PurgesAt hash events i c gone ∧
        CleansAt hash events k c gone := by
  cases h with
  | marked _ _ _ => exact absurd (List.mem_insert_of_mem hdirty) hclean
  | @took c session taken htakes =>
      by_cases heq : key.session = session
      · exact Or.inl ⟨c, taken, heq ▸ htakes⟩
      · exact absurd (List.mem_filter.mpr ⟨hdirty, by simpa using heq⟩) hclean
  | @cleaned i c gone hik hpurges hcleans =>
      by_cases hmem : key.session ∈ gone
      · exact Or.inr ⟨i, c, gone, hmem, hik, hpurges, hcleans⟩
      · exact absurd (List.mem_filter.mpr ⟨hdirty, by simpa using hmem⟩) hclean
  | same | elapsed | stamped | wrote | forgot | purged => exact absurd hdirty hclean

theorem Deed.forgets {session : Session} (h : Deed hash events k s s')
    (hseen : s.lastSeen.lookup session ≠ none) (hlost : s'.lastSeen.lookup session = none) :
    ∃ c gone, session ∈ gone ∧ ForgetsAt hash events k c gone := by
  cases h with
  | @stamped session' seen =>
      change (put session' seen s.lastSeen).lookup session = none at hlost
      rw [lookup_put] at hlost
      split_ifs at hlost
      exact absurd hlost hseen
  | @forgot c gone seen hforgets hgone => exact ⟨c, gone, hgone session hseen hlost, hforgets⟩
  | same | elapsed | wrote | marked | took | purged | cleaned => exact absurd hlost hseen

theorem deed_at (hk : k < events.length) :
    Deed hash events k (slotsAt hash events k) (slotsAt hash events (k + 1)) :=
  done_at hk k (Nat.lt_succ_self k)

/-! ### Operations that are carried through -/

theorem WritesAt.stamps (h : WritesAt hash events i w key value) (hin : i < n) (hn : n ≤ events.length)
    (ha : (operationsAt hash events n).Answered w op a) :
    ∃ j, i < j ∧ j < n ∧ StampsAt hash events j w key value := by
  obtain ⟨_, hstep, hnext, -⟩ := h
  obtain ⟨k, hik, hkn, hread⟩ := exists_reads hin hn hstep.after ha
  obtain ⟨j, _, hkj, hjn, hstamp, hrun⟩ := exists_executes hkn hn hread.after ha
  exact ⟨j, by omega, hjn, _, _, hstamp, rfl, hrun⟩

theorem StampsAt.marks (h : StampsAt hash events j w key value) (hjn : j < n) (hn : n ≤ events.length)
    (ha : (operationsAt hash events n).Answered w op a) :
    ∃ m, j < m ∧ m < n ∧ MarksAt hash events m w key value := by
  obtain ⟨_, _, hstep, -, -⟩ := h
  obtain ⟨m, _, hjm, hmn, hmark, hrun⟩ := exists_executes hjn hn hstep.after ha
  exact ⟨m, hjm, hmn, _, hmark, rfl, hrun⟩

theorem ForgetsAt.purges (h : ForgetsAt hash events i c gone) (hin : i < n) (hn : n ≤ events.length)
    (hquiet : Quiescent hash events n) :
    ∃ p g, i < p ∧ p < g ∧ g < n ∧ PurgesAt hash events p c gone ∧ CleansAt hash events g c gone := by
  obtain ⟨op, answer, hop, hafter⟩ : ∃ op answer, op.Removes ∧
      (operationsAt hash events (i + 1)).calls c = some (op, some (afterForget gone answer)) := by
    cases h with
    | @clear session hruns =>
        exact ⟨.clearSession session, .unit, trivial, hruns.choose_spec.1.after⟩
    | @evict idle _ _ hruns =>
        exact ⟨.evictIdle idle, .evicted gone.length, trivial, hruns.choose_spec.1.after⟩
  obtain ⟨rest, hrest⟩ := calls_remain hin hn hafter
  obtain ⟨a, rfl⟩ := hquiet _ _ _ hrest
  obtain ⟨p, _, hip, hpn, hpurge, hrun⟩ := exists_executes hin hn hafter hrest
  obtain ⟨g, _, hpg, hgn, hclean, hrun'⟩ := exists_executes hpn hn hpurge.after hrest
  exact ⟨p, g, hip, hpg, hgn, ⟨op, answer, hop, _, hpurge, rfl, hrun⟩, ⟨op, answer, hop, _, hclean, rfl, hrun'⟩⟩

/-! ### Drains -/

section
variable {stores : ℕ → SlotStore Session Slot Value} {mine : ℕ → Prop} {keys : List (Key Session Slot)}
variable {out out' : List (Slot × Value)}

theorem drainKeys_trail (h : Trail stores mine i (drainKeys keys out) j (.done out')) :
    (∀ e ∈ out, e ∈ out') ∧
      (∀ key ∈ keys, ∃ k, i ≤ k ∧ k < j ∧
        ∀ value, (stores k).values.lookup key = some value → (key.slot, value) ∈ out') ∧
      ∀ e ∈ out', e ∈ out ∨ ∃ key ∈ keys, ∃ k, i ≤ k ∧ k < j ∧ key.slot = e.1 ∧
        (stores k).values.lookup key = some e.2 := by
  induction keys generalizing i out with
  | nil =>
      cases h.done
      exact ⟨fun e he => he, by simp, fun e he => Or.inl he⟩
  | cons key keys ih =>
      rcases Trail.read h with hstart | ⟨k, hik, hkj, -, hrest⟩
      · cases hstart
      cases hvalue : (stores k).values.lookup key with
      | none =>
          rw [hvalue] at hrest
          obtain ⟨hkept, hread, hfrom⟩ := ih hrest
          refine ⟨hkept, fun key' hkey => ?_, fun e he => ?_⟩
          · rcases List.mem_cons.mp hkey with rfl | hmem
            · exact ⟨k, hik, hkj, fun value h => by simp [hvalue] at h⟩
            · obtain ⟨k', hle, hlt, hall⟩ := hread key' hmem
              exact ⟨k', by omega, hlt, hall⟩
          · rcases hfrom e he with hold | ⟨key', hmem, k', hle, hlt, hslot, hlook⟩
            · exact Or.inl hold
            · exact Or.inr ⟨key', List.mem_cons_of_mem key hmem, k', by omega, hlt, hslot, hlook⟩
      | some value =>
          rw [hvalue] at hrest
          rcases Trail.read hrest with hstart | ⟨k₁, hkk₁, -, -, hrest⟩
          · cases hstart
          rcases Trail.execute hrest with hstart | ⟨k₂, _, hk₁k₂, -, -, -, hrest⟩
          · cases hstart
          obtain ⟨hkept, hread, hfrom⟩ := ih hrest
          refine ⟨fun e he => hkept e (List.mem_append_left _ he), fun key' hkey => ?_, fun e he => ?_⟩
          · rcases List.mem_cons.mp hkey with rfl | hmem
            · refine ⟨k, hik, hkj, fun value' h => ?_⟩
              rw [hvalue] at h
              cases h
              exact hkept _ (List.mem_append_right _ (List.mem_singleton.mpr rfl))
            · obtain ⟨k', hle, hlt, hall⟩ := hread key' hmem
              exact ⟨k', by omega, hlt, hall⟩
          · rcases hfrom e he with hold | ⟨key', hmem, k', hle, hlt, hslot, hlook⟩
            · rcases List.mem_append.mp hold with hmem | hmem
              · exact Or.inl hmem
              · obtain rfl := List.mem_singleton.mp hmem
                exact Or.inr ⟨key, List.mem_cons_self, k, hik, hkj, rfl, hvalue⟩
            · exact Or.inr ⟨key', List.mem_cons_of_mem key hmem, k', by omega, hlt, hslot, hlook⟩

end

section
variable {t d : ℕ} {session : Session} {taken : List (Key Session Slot)} {out : List (Slot × Value)}

theorem TakesAt.taken_eq (h : TakesAt hash events t d session taken) :
    taken = (slotsAt hash events t).dirtyOf session := by
  obtain ⟨-, -, -, hrun⟩ := h
  exact (Prod.mk.inj (Option.some.inj hrun)).1.symm

theorem TakesAt.drains (h : TakesAt hash events t d session taken) (htn : t < n)
    (hn : n ≤ events.length) (ha : (operationsAt hash events n).Answered d op a) :
    op = .drain session ∧ ∃ out, a = .setInstructions out ∧
      (∀ key ∈ taken, ∃ k, t < k ∧ k < n ∧ ∀ value,
        (slotsAt hash events k).values.lookup key = some value → (key.slot, value) ∈ out) ∧
      ∀ e ∈ out, ∃ key ∈ taken, ∃ k, t < k ∧ k < n ∧ key.slot = e.1 ∧
        (slotsAt hash events k).values.lookup key = some e.2 := by
  obtain ⟨_, hstep, -, -⟩ := h
  obtain ⟨rfl, htrail⟩ := trail_between htn hn hstep.after ha
  rcases htrail.bind with ⟨q, hq, hdone⟩ | ⟨m, out, hout, hdone⟩
  · cases q with
    | done out =>
        cases hdone
        obtain ⟨-, hread, hfrom⟩ := drainKeys_trail hq
        refine ⟨rfl, out, rfl, fun key hkey => hread key ((hash.perm taken).mem_iff.mpr hkey), ?_⟩
        intro e he
        obtain hold | ⟨key, hmem, hrest⟩ := hfrom e he
        · cases hold
        · exact ⟨key, (hash.perm taken).mem_iff.mp hmem, hrest⟩
    | read | execute | transaction => cases hdone
  · cases hdone.done
    obtain ⟨-, hread, hfrom⟩ := drainKeys_trail (hout.wait hdone.le)
    refine ⟨rfl, out, rfl, fun key hkey => hread key ((hash.perm taken).mem_iff.mpr hkey), ?_⟩
    intro e he
    obtain hold | ⟨key, hmem, hrest⟩ := hfrom e he
    · cases hold
    · exact ⟨key, (hash.perm taken).mem_iff.mp hmem, hrest⟩

theorem exists_takes (hmn : m ≤ n) (hn : n ≤ events.length)
    (hnone : (operationsAt hash events m).calls d = none)
    (ha : (operationsAt hash events n).Answered d (.drain session) a) :
    ∃ t taken, m ≤ t ∧ t < n ∧ TakesAt hash events t d session taken := by
  obtain ⟨i, hmi, hin, hmade⟩ := exists_call hmn hn hnone ha
  obtain ⟨t, taken, hit, htn, htake, hrun⟩ := exists_executes hin hn hmade ha
  exact ⟨t, taken, by omega, htn, _, htake, rfl, hrun⟩

end

/-! ### The slot store -/

theorem written_at (hn : n ≤ events.length)
    (hvalue : (slotsAt hash events n).values.lookup key = some value) :
    ∃ i < n, ∃ w, WritesAt hash events i w key value := by
  induction n with
  | zero => cases hvalue
  | succ n ih =>
      rcases (deed_at hn).written hvalue with hbefore | ⟨w, hwrites⟩
      · obtain ⟨i, hi, w, hwrites⟩ := ih (Nat.le_of_succ_le hn) hbefore
        exact ⟨i, Nat.lt_succ_of_lt hi, w, hwrites⟩
      · exact ⟨n, Nat.lt_succ_self n, w, hwrites⟩

theorem stored_until (hn : n ≤ events.length) (hwrites : WritesAt hash events i w key value)
    (hlast : LastUntil hash events i n key) (him : i < m) (hmn : m ≤ n) :
    (slotsAt hash events m).values.lookup key = some value := by
  induction m, him using Nat.le_induction with
  | base => exact hwrites.stored
  | succ m him ih =>
      have hdeed : Deed hash events m _ _ := deed_at (Nat.lt_of_lt_of_le hmn hn)
      rcases hdeed.keeps_value (ih (Nat.le_of_succ_le hmn)) with hsame | ⟨w', value', hother⟩ | hgone
      · exact hsame
      · exact absurd hother (hlast.unwritten m hmn him w' value')
      · obtain ⟨c, gone, hmem, hpurges⟩ := hgone
        exact absurd hpurges (hlast.unpurged m hmn him c gone hmem)

theorem exists_removal {session : Session} (hjn : j ≤ n) (hn : n ≤ events.length)
    (hquiet : Quiescent hash events n)
    (hseen : (slotsAt hash events j).lastSeen.lookup session ≠ none)
    (hlost : (slotsAt hash events n).lastSeen.lookup session = none) :
    ∃ c gone f p g, session ∈ gone ∧ j ≤ f ∧ f < p ∧ p < g ∧ g < n ∧
      ForgetsAt hash events f c gone ∧ PurgesAt hash events p c gone ∧ CleansAt hash events g c gone := by
  obtain ⟨f, hjf, hfn, hbefore, hafter⟩ := exists_until (P := fun n =>
    (slotsAt hash events n).lastSeen.lookup session ≠ none) hjn hseen (not_not.mpr hlost)
  obtain ⟨c, gone, hmem, hforgets⟩ :=
    (deed_at (Nat.lt_of_lt_of_le hfn hn)).forgets (hbefore f hjf (Nat.le_refl f)) (not_not.mp hafter)
  obtain ⟨p, g, hfp, hpg, hgn, hpurges, hcleans⟩ := hforgets.purges hfn hn hquiet
  exact ⟨c, gone, f, p, g, hmem, hjf, hfp, hpg, hgn, hforgets, hpurges, hcleans⟩

theorem seen_of_value (hn : n ≤ events.length) (hquiet : Quiescent hash events n)
    (hvalue : (slotsAt hash events n).values.lookup key ≠ none) :
    (slotsAt hash events n).lastSeen.lookup key.session ≠ none := by
  intro hlost
  obtain ⟨i, -, hin, hnone, hsince⟩ := exists_since (P := fun n =>
    (slotsAt hash events n).values.lookup key ≠ none) (Nat.zero_le n) (fun h => h rfl) hvalue
  obtain ⟨value, hlook⟩ := Option.ne_none_iff_exists'.mp (hsince (i + 1) (Nat.lt_succ_self i) hin)
  rcases (deed_at (Nat.lt_of_lt_of_le hin hn)).written hlook with hbefore | ⟨w, hwrites⟩
  · exact hnone (by rw [hbefore]; exact Option.some_ne_none value)
  obtain ⟨_, hstep, -, -⟩ := id hwrites
  obtain ⟨rest, hrest⟩ := calls_remain hin hn hstep.after
  obtain ⟨a, rfl⟩ := hquiet _ _ _ hrest
  obtain ⟨j, hij, hjn, hstamps⟩ := hwrites.stamps hin hn hrest
  obtain ⟨c, gone, f, p, g, hmem, hjf, hfp, hpg, hgn, -, hpurges, -⟩ :=
    exists_removal hjn hn hquiet hstamps.seen hlost
  exact hsince (p + 1) (by omega) (by omega) (hpurges.dropped hmem)

theorem Apart.seen_of_dirty (h : Apart hash events) (hn : n ≤ events.length)
    (hquiet : Quiescent hash events n) (hdirty : key ∈ (slotsAt hash events n).dirty) :
    (slotsAt hash events n).lastSeen.lookup key.session ≠ none := by
  intro hlost
  obtain ⟨m, -, hmn, hclean, hsince⟩ := exists_since (P := fun n =>
    key ∈ (slotsAt hash events n).dirty) (Nat.zero_le n) (fun h => by cases h) hdirty
  obtain ⟨j, w, value, hjm, hstamps, hmarks⟩ := (deed_at (Nat.lt_of_lt_of_le hmn hn)).marks hclean
    (hsince (m + 1) (Nat.lt_succ_self m) hmn)
  obtain ⟨c, gone, f, p, g, hmem, hjf, hfp, hpg, hgn, hforgets, -, hcleans⟩ :=
    exists_removal (Nat.le_trans hjm (Nat.le_of_lt hmn)) hn hquiet hstamps.seen hlost
  -- the key is dirty ever since it was marked, so it was cleaned away before
  have hgm : g < m := by
    by_contra hle
    exact hcleans.cleaned hmem (hsince (g + 1) (by omega) hgn)
  exact h.marks w key value j m hstamps hmarks ⟨c, gone, f, g, hmem, hforgets, hcleans, hjf, hgm⟩

theorem drained_of_takes {t d : ℕ} {taken : List (Key Session Slot)} (hn : n ≤ events.length)
    (hquiet : Quiescent hash events n) (hwrites : WritesAt hash events i w key value)
    (hlast : LastUntil hash events i n key) (hit : i < t) (htn : t < n)
    (htakes : TakesAt hash events t d key.session taken)
    (hdirty : key ∈ (slotsAt hash events t).dirty) : DrainedSince hash events i n key value := by
  have hmem : key ∈ taken := by
    rw [htakes.taken_eq]
    exact List.mem_filter.mpr ⟨hdirty, by simp⟩
  obtain ⟨_, hstep, -, -⟩ := id htakes
  obtain ⟨rest, hrest⟩ := calls_remain htn hn hstep.after
  obtain ⟨a, rfl⟩ := hquiet _ _ _ hrest
  obtain ⟨-, out, rfl, hread, -⟩ := htakes.drains htn hn hrest
  obtain ⟨k, htk, hkn, hreturned⟩ := hread key hmem
  have hstored := stored_until hn hwrites hlast (hit.trans htk) (Nat.le_of_lt hkn)
  exact ⟨t, d, taken, out, hit, htn, htakes, hrest, hreturned value hstored⟩

theorem Apart.delivered (h : Apart hash events) (hn : n ≤ events.length)
    (hquiet : Quiescent hash events n) (hwrites : WritesAt hash events i w key value)
    (hlast : LastUntil hash events i n key) (hmn : m ≤ n)
    (hdone : (operationsAt hash events m).Answered w op a) {d : ℕ} {answer : Answer Slot Value}
    (hnone : (operationsAt hash events m).calls d = none)
    (ha : (operationsAt hash events n).Answered d (.drain key.session) answer) :
    DrainedSince hash events i n key value := by
  have hm : m ≤ events.length := Nat.le_trans hmn hn
  have him : i < m := by
    by_contra hle
    obtain ⟨_, hstep, -, -⟩ := id hwrites
    have hthen := hdone.later (Nat.le_of_not_lt hle) (Nat.le_of_lt hstep.time)
    have hboth := hstep.before.symm.trans hthen
    cases hboth
  obtain ⟨j, hij, hjm, hstamps⟩ := hwrites.stamps him hm hdone
  obtain ⟨k, hjk, hkm, hmarks⟩ := hstamps.marks hjm hm hdone
  obtain ⟨t, taken, hmt, htn, htakes⟩ := exists_takes hmn hn hnone ha
  by_cases hdirty : key ∈ (slotsAt hash events t).dirty
  · exact drained_of_takes hn hquiet hwrites hlast (by omega) htn htakes hdirty
  · obtain ⟨u, hku, hut, hbefore, hafter⟩ := exists_until (P := fun n =>
      key ∈ (slotsAt hash events n).dirty) (show k + 1 ≤ t by omega) hmarks.dirty hdirty
    have hu : u < events.length := by omega
    rcases (deed_at hu).takes (hbefore u hku (Nat.le_refl u)) hafter with
      ⟨d', taken', htakes'⟩ | ⟨p, c, gone, hmem, hpu, hpurges, hcleans⟩
    · have hdirty' := hbefore u hku (Nat.le_refl u)
      exact drained_of_takes hn hquiet hwrites hlast (by omega) (by omega) htakes' hdirty'
    · have hpi : p < i := by
        rcases Nat.lt_trichotomy p i with hlt | rfl | hgt
        · exact hlt
        · -- one step is not both a write and half of a removal
          have hvalue := hwrites.stored
          rw [hpurges.dropped hmem] at hvalue
          cases hvalue
        · exact absurd hpurges (hlast.unpurged p (by omega) hgt c gone hmem)
      exact absurd ⟨w, key, value, i, k, hmem, hwrites, hmarks, hpi, by omega⟩
        (h.cleans c gone p u hpurges hcleans)

theorem drained_own {d : ℕ} {session : Session} {out : List (Slot × Value)} {slot : Slot}
    (hn : n ≤ events.length)
    (ha : (operationsAt hash events n).Answered d (.drain session) (.setInstructions out))
    (hmem : (slot, value) ∈ out) : ∃ i < n, ∃ w, WritesAt hash events i w ⟨session, slot⟩ value := by
  obtain ⟨t, taken, -, htn, htakes⟩ := exists_takes (Nat.zero_le n) hn rfl ha
  obtain ⟨-, out', hout, -, hfrom⟩ := htakes.drains htn hn ha
  cases hout
  obtain ⟨key, hkey, k, -, hkn, hslot, hlook⟩ := hfrom _ hmem
  rw [htakes.taken_eq] at hkey
  obtain rfl : key = ⟨session, slot⟩ := by
    have hsession : key.session = session := by simpa using (List.mem_filter.mp hkey).2
    cases key
    cases hslot
    cases hsession
    rfl
  obtain ⟨i, hi, w, hwrites⟩ := written_at (Nat.le_trans (Nat.le_of_lt hkn) hn) hlook
  exact ⟨i, hi.trans hkn, w, hwrites⟩

/-! ### Operations one after the other -/

theorem ForgetsAt.removes (h : ForgetsAt hash events i c gone) :
    Mine events c i ∧ ∃ op rest, op.Removes ∧ (operationsAt hash events i).calls c = some (op, rest) := by
  cases h with
  | @clear session hruns =>
      exact ⟨hruns.choose_spec.1.mine, .clearSession session, _, trivial, hruns.choose_spec.1.before⟩
  | @evict idle _ _ hruns =>
      exact ⟨hruns.choose_spec.1.mine, .evictIdle idle, _, trivial, hruns.choose_spec.1.before⟩

theorem writer_ne_remover {rest rest' : Option (Prog (SlotStore Session Slot Value) (Answer Slot Value))}
    (hi : i ≤ events.length) (hj : j ≤ events.length) (hop : op.Removes)
    (hw : (operationsAt hash events i).calls w = some (.write key.session key.slot value, rest))
    (hc : (operationsAt hash events j).calls c = some (op, rest')) : w ≠ c := by
  rintro rfl
  have hsame : op = .write key.session key.slot value := by
    rcases Nat.le_total i j with hle | hle
    · obtain ⟨_, hrest⟩ := calls_remain hle hj hw
      rw [hc] at hrest
      cases hrest
      rfl
    · obtain ⟨_, hrest⟩ := calls_remain hle hi hc
      rw [hw] at hrest
      cases hrest
      rfl
  rw [hsame] at hop
  exact hop

omit [DecidableEq Session] [DecidableEq Slot] in
theorem turns_of_pairwise
    (h : events.Pairwise fun e e' => ∀ c ∈ e.mover, ∀ d ∈ e'.mover, c ≤ d) :
    ∀ i j c d, i ≤ j → Mine events c i → Mine events d j → c ≤ d := by
  intro i j c d hij hi hj
  unfold Mine at hi hj
  obtain ⟨hlti, hgeti⟩ := List.getElem?_eq_some_iff.mp hi
  obtain ⟨hltj, hgetj⟩ := List.getElem?_eq_some_iff.mp hj
  rcases Nat.lt_or_eq_of_le hij with hlt | rfl
  · have hle := List.pairwise_iff_getElem.mp h i j hlti hltj hlt
    rw [hgeti, hgetj] at hle
    exact hle c rfl d rfl
  · rw [hgeti] at hgetj
    cases hgetj
    exact Nat.le_refl c

theorem apart_of_turns (hturns : ∀ i j c d, i ≤ j → Mine events c i → Mine events d j → c ≤ d) :
    Apart hash events where
  marks := by
    rintro w key value j m ⟨_, _, hstamp, -, -⟩ ⟨_, hmark, -, -⟩
      ⟨c, gone, f, g, -, hforgets, ⟨_, _, -, _, hclean, -, -⟩, hjf, hgm⟩
    obtain ⟨hmine, op, rest, hop, hbefore⟩ := hforgets.removes
    have hwc := hturns j f w c (Nat.le_of_lt hjf) hstamp.mine hmine
    have hcw := hturns g m c w (Nat.le_of_lt hgm) hclean.mine hmark.mine
    have hf : f ≤ events.length := by
      have hlt : f < events.length := by
        by_contra hge
        unfold Mine at hmine
        rw [List.getElem?_eq_none (Nat.le_of_not_lt hge)] at hmine
        cases hmine
      exact Nat.le_of_lt hlt
    exact writer_ne_remover (Nat.le_of_lt hstamp.time) hf hop hstamp.before hbefore
      (Nat.le_antisymm hwc hcw)
  cleans := by
    rintro c gone p g ⟨op, _, hop, _, hpurge, -, -⟩ ⟨_, _, -, _, hclean, -, -⟩
      ⟨w, key, value, i, m, -, ⟨_, hwrite, -, -⟩, ⟨_, hmark, -, -⟩, hpi, hmg⟩
    have hcw := hturns p i c w (Nat.le_of_lt hpi) hpurge.mine hwrite.mine
    have hwc := hturns m g w c (Nat.le_of_lt hmg) hmark.mine hclean.mine
    exact writer_ne_remover (Nat.le_of_lt hwrite.time) (Nat.le_of_lt hpurge.time) hop hwrite.before
      hpurge.before (Nat.le_antisymm hwc hcw)

/-! ### The slot store -/

/-- The slot store loses nothing, mixes no sessions and leaks nothing, where removals and writes
of one session keep apart. -/
theorem sound_of_apart (h : Apart hash events) : Sound hash events where
  delivered _ hn hquiet _ _ _ _ hwrites hlast _ hmn hdone _ _ hnone ha := by
    obtain ⟨op, a, hdone⟩ := hdone
    exact h.delivered hn hquiet hwrites hlast hmn hdone hnone ha
  own _ hn _ _ _ _ _ ha hmem := drained_own hn ha hmem
  reached _ hn hquiet _ hleft := by
    rcases hleft with hvalue | hdirty
    · exact seen_of_value hn hquiet hvalue
    · exact h.seen_of_dirty hn hquiet hdirty

def insertionOrder : HashOrder (Key ℕ ℕ) := ⟨id, fun l => List.Perm.refl l⟩

def inTurns : List (Event (Operation ℕ ℕ ℕ)) :=
  calls 0 (.write 1 0 7) 4 ++ calls 1 (.drain 1) 4 ++ calls 2 (.clearSession 1) 3

theorem sound_in_turns : Sound insertionOrder inTurns :=
  sound_of_apart (apart_of_turns (turns_of_pairwise (by decide)))

def leak : List (Event (Operation ℕ ℕ ℕ)) :=
  calls 0 (.write 1 0 7) 3 ++ calls 1 (.clearSession 1) 3 ++ [.advance 0]

def loss : List (Event (Operation ℕ ℕ ℕ)) :=
  calls 0 (.clearSession 1) 2 ++ calls 1 (.write 1 0 7) 4 ++ [.advance 0] ++ calls 2 (.drain 1) 1

theorem leak_quiescent : Quiescent insertionOrder leak 9 := by
  intro c op rest hc
  match c with
  | 0 => exact ⟨.unit, by cases hc; rfl⟩
  | 1 => exact ⟨.unit, by cases hc; rfl⟩
  | c + 2 => cases hc

theorem loss_quiescent : Quiescent insertionOrder loss 11 := by
  intro c op rest hc
  match c with
  | 0 => exact ⟨.unit, by cases hc; rfl⟩
  | 1 => exact ⟨.unit, by cases hc; rfl⟩
  | 2 => exact ⟨.setInstructions [], by cases hc; rfl⟩
  | c + 3 => cases hc

theorem loss_writesAt : WritesAt insertionOrder loss 4 1 ⟨1, 0⟩ 7 :=
  ⟨_, ⟨by decide, rfl, rfl, rfl⟩, rfl, rfl⟩

theorem loss_lastUntil : LastUntil insertionOrder loss 4 11 ⟨1, 0⟩ where
  unwritten := by
    rintro j hj hij c value ⟨_, ⟨-, hmine, hbefore, hafter⟩, -, -⟩
    interval_cases j
    all_goals cases hmine
    · cases hbefore
    · cases hafter
    · cases hafter
    · cases hbefore
    · cases hbefore
  unpurged := by
    rintro j hj hij c gone hmem ⟨op, answer, hop, _, ⟨-, hmine, hbefore, hafter⟩, -, -⟩
    interval_cases j
    all_goals cases hmine
    · cases hbefore
    · have hwrite := congrArg (Option.map Prod.fst) hbefore
      cases hwrite
      exact hop
    · cases hafter
    · cases hafter
    · cases hafter

theorem sound_fails : ¬ Sound insertionOrder leak ∧ ¬ Sound insertionOrder loss := by
  constructor
  · intro h
    have hseen := h.reached 9 (by decide) leak_quiescent ⟨1, 0⟩ (Or.inr (by decide))
    exact hseen (by decide)
  · intro h
    obtain ⟨t, d, taken, out, -, -, -, hanswered, hmem⟩ := h.delivered 11 (by decide)
      loss_quiescent 4 1 ⟨1, 0⟩ 7 loss_writesAt loss_lastUntil 9 (by decide) ⟨_, _, rfl⟩ 2 _ rfl rfl
    match d with
    | 0 => cases hanswered
    | 1 => cases hanswered
    | 2 =>
        cases hanswered
        cases hmem
    | d + 3 => cases hanswered

end Albedo.SessionSlots
