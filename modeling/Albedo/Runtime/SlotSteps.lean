import Albedo.Runtime.SlotStore

/-!
# What the operations do to the slot store

Every step of a run does one of a few things to the maps, and a removal, once begun, is
carried through: what forgets a session goes on to drop its values and its dirty keys.
-/
namespace Albedo.SessionSlots
open Interleave KeyedList

variable {Session Slot Value : Type} [DecidableEq Session] [DecidableEq Slot]

def Operation.Removes : Operation Session Slot Value → Prop
  | .evictIdle _ => True
  | .clearSession _ => True
  | _ => False

def afterInsert (key : Key Session Slot) : Prog (SlotStore Session Slot Value) (Answer Slot Value) :=
  touch key.session >>= fun _ => Prog.statement (change (·.markDirty key)) >>= fun _ => return .unit

def afterStamp (key : Key Session Slot) : Prog (SlotStore Session Slot Value) (Answer Slot Value) :=
  Prog.statement (change (·.markDirty key)) >>= fun _ => return .unit

/-- What is left of a removal once some sessions are forgotten. -/
def afterForget (gone : List Session) (answer : Answer Slot Value) :
    Prog (SlotStore Session Slot Value) (Answer Slot Value) :=
  Prog.statement (change (·.purge gone)) >>= fun _ =>
    Prog.statement (change (·.clean gone)) >>= fun _ => return answer

def afterPurge (gone : List Session) (answer : Answer Slot Value) :
    Prog (SlotStore Session Slot Value) (Answer Slot Value) :=
  Prog.statement (change (·.clean gone)) >>= fun _ => return answer

section
variable (hash : HashOrder (Key Session Slot)) (events : List (Event (Operation Session Slot Value)))

/-- The store after the first `n` events. -/
abbrev slotsAt (n : ℕ) : SlotStore Session Slot Value := storeAt (serve hash) .new events n

/-- Where the operations are after the first `n` events. -/
abbrev operationsAt (n : ℕ) :
    View (SlotStore Session Slot Value) (Operation Session Slot Value) (Answer Slot Value) :=
  viewAt (serve hash) .new events n

def WritesAt (i c : ℕ) (key : Key Session Slot) (value : Value) : Prop :=
  RunsTo (serve hash) .new events i c (.write key.session key.slot value) (change (·.insertValue key value)) ()
    (afterInsert key)

def StampsAt (i c : ℕ) (key : Key Session Slot) (value : Value) : Prop :=
  ∃ seen, RunsTo (serve hash) .new events i c (.write key.session key.slot value)
    (change (·.stamp key.session seen)) () (afterStamp key)

def MarksAt (i c : ℕ) (key : Key Session Slot) (value : Value) : Prop :=
  RunsTo (serve hash) .new events i c (.write key.session key.slot value) (change (·.markDirty key)) ()
    (.done .unit)

def TakesAt (i c : ℕ) (session : Session) (taken : List (Key Session Slot)) : Prop :=
  RunsTo (serve hash) .new events i c (.drain session)
    (fun s => some (s.dirtyOf session, s.takeDirty session)) taken
    (drainKeys (hash.order taken) [] >>= fun out => return .setInstructions out)

inductive ForgetsAt (i c : ℕ) : List Session → Prop
  | clear {session : Session} : RunsTo (serve hash) .new events i c (.clearSession session)
      (change (·.forget session)) () (afterForget [session] .unit) → ForgetsAt i c [session]
  | evict {idle cutoff : ℕ} {gone : List Session} : RunsTo (serve hash) .new events i c
      (.evictIdle idle) (fun s => some (s.idle cutoff, s.forgetIdle cutoff)) gone
      (afterForget gone (.evicted gone.length)) → ForgetsAt i c gone

def PurgesAt (i c : ℕ) (gone : List Session) : Prop :=
  ∃ op answer, op.Removes ∧ RunsTo (serve hash) .new events i c op (change (·.purge gone)) ()
    (afterPurge gone answer)

def CleansAt (i c : ℕ) (gone : List Session) : Prop :=
  ∃ op answer, op.Removes ∧ RunsTo (serve hash) .new events i c op (change (·.clean gone)) () (.done answer)

/-- What step `k` may do to the maps. -/
inductive Deed (k : ℕ) (s : SlotStore Session Slot Value) : SlotStore Session Slot Value → Prop
  | same : Deed k s s
  | elapsed (ms : ℕ) : Deed k s (s.elapse ms)
  | stamped (session : Session) (seen : ℕ) : Deed k s (s.stamp session seen)
  | wrote {c : ℕ} {key : Key Session Slot} {value : Value} :
      WritesAt hash events k c key value → Deed k s (s.insertValue key value)
  | marked {i c : ℕ} {key : Key Session Slot} {value : Value} : i < k →
      StampsAt hash events i c key value → MarksAt hash events k c key value →
      Deed k s (s.markDirty key)
  | took {c : ℕ} {session : Session} {taken : List (Key Session Slot)} :
      TakesAt hash events k c session taken → Deed k s (s.takeDirty session)
  | forgot {c : ℕ} {gone : List Session} {seen : List (Session × ℕ)} :
      ForgetsAt hash events k c gone →
      (∀ session, s.lastSeen.lookup session ≠ none → seen.lookup session = none → session ∈ gone) →
      Deed k s { s with lastSeen := seen }
  | purged {c : ℕ} {gone : List Session} : PurgesAt hash events k c gone → Deed k s (s.purge gone)
  | cleaned {i c : ℕ} {gone : List Session} : i < k → PurgesAt hash events i c gone →
      CleansAt hash events k c gone → Deed k s (s.clean gone)

def Done (n : ℕ) : Prop :=
  ∀ k < n, Deed hash events k (slotsAt hash events k) (slotsAt hash events (k + 1))

end

variable {hash : HashOrder (Key Session Slot)} {events : List (Event (Operation Session Slot Value))}
variable {k n c : ℕ} {key : Key Session Slot} {value : Value} {op : Operation Session Slot Value}

theorem Done.step {s : SlotStore Session Slot Value} (h : Done hash events k)
    (hstore : slotsAt hash events (k + 1) = s) (hdeed : Deed hash events k (slotsAt hash events k) s) :
    Done hash events (k + 1) := by
  intro i hi
  rcases Nat.lt_succ_iff_lt_or_eq.mp hi with hlt | rfl
  · exact h i hlt
  · exact hstore ▸ hdeed

theorem Done.idle (h : Done hash events k)
    (hstore : slotsAt hash events (k + 1) = slotsAt hash events k) : Done hash events (k + 1) :=
  h.step hstore .same

omit [DecidableEq Session] [DecidableEq Slot] in
theorem change_run {f : SlotStore Session Slot Value → SlotStore Session Slot Value} {u : Unit}
    {s s' : SlotStore Session Slot Value} (h : change f s = some (u, s')) : s' = f s :=
  (Prod.mk.inj (Option.some.inj h)).2.symm

/-! ### The operations gone through -/

theorem write_ensures (session : Session) (slot : Slot) (value : Value) :
    (serve hash (.write session slot value)).Ensures (serve hash) .new events (Done hash events) c
      (.write session slot value) .done (fun _ _ => True) n := by
  refine fun i _ _ hdone hinsert hrun => ⟨?_, fun k₁ _ _ _ _ _ => ?_⟩
  · have hwrites : WritesAt hash events i c ⟨session, slot⟩ value := ⟨_, hinsert, rfl, hrun⟩
    exact hdone.step (change_run hrun) (.wrote hwrites)
  refine fun j _ _ hdone hstamp hrun => ⟨hdone.step (change_run hrun) (.stamped ..), ?_⟩
  refine fun k _ hjk hdone hmark hrun' => ⟨?_, trivial⟩
  have hstamps : StampsAt hash events j c ⟨session, slot⟩ value := ⟨_, _, hstamp, rfl, hrun⟩
  exact hdone.step (change_run hrun') (.marked hjk hstamps ⟨_, hmark, rfl, hrun'⟩)

theorem read_ensures {α : Type} {f : Option Value → Prog (SlotStore Session Slot Value) α}
    {g : α → Prog (SlotStore Session Slot Value) (Answer Slot Value)} {Q : ℕ → α → Prop}
    (h : ∀ m found, (f found).Ensures (serve hash) .new events (Done hash events) c op g Q m) :
    (read key >>= f).Ensures (serve hash) .new events (Done hash events) c op g Q n := by
  refine Prog.ensures_bind (Prog.ensures_query fun k _ _ _ _ => ?_)
  cases (slotsAt hash events k).values.lookup key with
  | none => exact h _ none
  | some value =>
      refine fun k' _ _ _ _ _ => ?_
      exact fun j _ _ hdone hstamp hrun => ⟨hdone.step (change_run hrun) (.stamped ..), h _ (some value)⟩

theorem drainKeys_ensures (keys : List (Key Session Slot)) (out : List (Slot × Value))
    {g : List (Slot × Value) → Prog (SlotStore Session Slot Value) (Answer Slot Value)} :
    (drainKeys keys out).Ensures (serve hash) .new events (Done hash events) c op g
      (fun _ _ => True) n := by
  induction keys generalizing out n with
  | nil => trivial
  | cons key keys ih =>
      refine read_ensures fun m found => ?_
      cases found with
      | none => exact ih _
      | some value => exact ih _

theorem drain_ensures (session : Session) :
    (serve hash (.drain session)).Ensures (serve hash) .new events (Done hash events) c
      (.drain session) .done (fun _ _ => True) n := by
  refine fun k taken _ hdone htake hrun => ⟨?_, ?_⟩
  · obtain ⟨-, hstore⟩ := Prod.mk.inj (Option.some.inj hrun)
    let next := fun taken : List (Key Session Slot) =>
      (drainKeys (hash.order taken) [] >>= fun out => return .setInstructions out :
        Prog (SlotStore Session Slot Value) (Answer Slot Value))
    change Steps (serve hash) .new events k c (.drain session) _ (next taken >>= Prog.done) at htake
    rw [Prog.bind_done, Prog.bind_done] at htake
    have htakes : TakesAt hash events k c session taken := ⟨next, htake, rfl, hrun⟩
    exact hdone.step hstore.symm (.took htakes)
  · exact Prog.ensures_bind ((drainKeys_ensures _ []).imp fun _ _ _ _ => trivial)

theorem afterForget_ensures {gone : List Session} {answer : Answer Slot Value} (hop : op.Removes) :
    (afterForget gone answer).Ensures (serve hash) .new events (Done hash events) c op .done
      (fun _ _ => True) n := by
  refine fun i _ _ hdone hpurge hrun => ⟨?_, ?_⟩
  · exact hdone.step (change_run hrun) (.purged ⟨op, answer, hop, _, hpurge, rfl, hrun⟩)
  refine fun k _ hik hdone hclean hrun' => ⟨?_, trivial⟩
  have hpurges : PurgesAt hash events i c gone := ⟨op, answer, hop, _, hpurge, rfl, hrun⟩
  exact hdone.step (change_run hrun') (.cleaned hik hpurges ⟨op, answer, hop, _, hclean, rfl, hrun'⟩)

omit [DecidableEq Slot] in
theorem mem_idle {s : SlotStore Session Slot Value} {cutoff : ℕ} {session : Session}
    (hseen : s.lastSeen.lookup session ≠ none)
    (hgone : (s.forgetIdle cutoff).lastSeen.lookup session = none) : session ∈ s.idle cutoff := by
  obtain ⟨seen, hlook⟩ := Option.ne_none_iff_exists'.mp hseen
  have hmem := mem_of_lookup hlook
  refine mem_keys.mpr ⟨seen, List.mem_filter.mpr ⟨hmem, ?_⟩⟩
  by_contra hkept
  have hkept' : (session, seen) ∈ (s.forgetIdle cutoff).lastSeen :=
    List.mem_filter.mpr ⟨hmem, by simpa using hkept⟩
  exact lookup_eq_none.mp hgone (mem_keys.mpr ⟨seen, hkept'⟩)

theorem evict_ensures (idle : ℕ) :
    (serve hash (.evictIdle idle)).Ensures (serve hash) .new events (Done hash events) c
      (.evictIdle idle) .done (fun _ _ => True) n := by
  refine fun k₀ _ _ _ _ _ k gone _ hdone hforget hrun => ?_
  obtain ⟨rfl, hstore⟩ := Prod.mk.inj (Option.some.inj hrun)
  generalize hgone : (slotsAt hash events k).idle
    ((slotsAt hash events k₀).now - min idle u64Max) = gone at *
  cases gone with
  | nil =>
      refine ⟨hdone.step hstore.symm ?_, trivial⟩
      have hnone : ∀ e ∈ (slotsAt hash events k).lastSeen,
          ¬ e.2 < (slotsAt hash events k₀).now - min idle u64Max := by
        intro e he hlt
        have hmem : e.1 ∈ (slotsAt hash events k).idle
            ((slotsAt hash events k₀).now - min idle u64Max) :=
          mem_keys.mpr ⟨e.2, List.mem_filter.mpr ⟨he, by simpa using hlt⟩⟩
        rw [hgone] at hmem
        cases hmem
      have hsame : (slotsAt hash events k).forgetIdle
          ((slotsAt hash events k₀).now - min idle u64Max) = slotsAt hash events k := by
        unfold SlotStore.forgetIdle
        rw [List.filter_eq_self.mpr fun e he => by simpa using hnone e he]
      rw [hsame]
      exact .same
  | cons session rest =>
      have hforgets : ForgetsAt hash events k c (session :: rest) := .evict ⟨_, hforget, rfl, hrun⟩
      refine ⟨hdone.step hstore.symm (.forgot hforgets ?_), afterForget_ensures trivial⟩
      intro session' hseen hlost
      rw [← hgone]
      exact mem_idle hseen hlost

theorem clear_ensures (session : Session) :
    (serve hash (.clearSession session)).Ensures (serve hash) .new events (Done hash events) c
      (.clearSession session) .done (fun _ _ => True) n := by
  refine fun k _ _ hdone hforget hrun => ⟨?_, afterForget_ensures trivial⟩
  have hforgets : ForgetsAt hash events k c [session] := .clear ⟨_, hforget, rfl, hrun⟩
  refine hdone.step (change_run hrun) (.forgot hforgets ?_)
  intro session' hseen hlost
  rw [lookup_remove] at hlost
  split_ifs at hlost with heq
  · exact List.mem_singleton.mpr heq
  · exact absurd hlost hseen

theorem done_at (hn : n ≤ events.length) : Done hash events n := by
  refine run_ensures (fun i hi => absurd hi (Nat.not_lt_zero i))
    (fun k _ hstore hdone => hdone.idle hstore) (fun c op n => ?_) hn
  cases op with
  | write session slot value => exact write_ensures session slot value
  | read session slot => exact read_ensures fun m found => trivial
  | drain session => exact drain_ensures session
  | evictIdle idle => exact evict_ensures idle
  | clearSession session => exact clear_ensures session
  | elapse ms =>
      exact fun k _ _ hdone _ hrun => ⟨hdone.step (change_run hrun) (.elapsed ms), trivial⟩

end Albedo.SessionSlots
