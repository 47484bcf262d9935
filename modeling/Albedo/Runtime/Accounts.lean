import Mathlib.Algebra.BigOperators.Group.List.Basic
import Mathlib.Algebra.Order.Group.Multiset
import Mathlib.Data.Multiset.Range
import Mathlib.Tactic.Abel
import Albedo.Runtime.Scheduler

/-!
# What becomes of a mark

Every number the scheduler gives out is in one place: with a bit of the ring, in a queue, in the
hand of a frame, popped, or with the outcome of one frame. A change of the hot set builds the ring
anew and forgets every mark in it, also those of components that stay.
-/
namespace Albedo.Scheduler
open KeyedList

def Frame.hand (f : Frame) : List Entry :=
  match f.stage with
  | .draining hand => hand
  | .holding entry _ => [entry]
  | _ => []

def Frame.early (f : Frame) : Bool :=
  match f.stage with
  | .started | .draining _ => true
  | _ => false

def SchedulerFrameStats.counted (stats : SchedulerFrameStats) : Bool → Fate → ℕ
  | true, .pushed => stats.hotSetRendered
  | true, .dropped => stats.hotSetDropped
  | true, .discarded => 0
  | false, .pushed => stats.analyzerForwarded
  | false, .dropped => stats.analyzerDropped
  | false, .discarded => stats.analyzerDiscardedHotSet

def SchedulerConfig.InRange (config : SchedulerConfig) (limit : ℕ) : Prop :=
  config.overtakeInterval ≤ limit ∧ limit ≤ config.maxAnalyzerChunkLimit

def Outcome.Of (frame : ℕ) (hot : Bool) (fate : Fate) (o : Outcome) : Prop :=
  o.frame = frame ∧ o.hot = hot ∧ o.fate = fate

instance (frame : ℕ) (hot : Bool) (fate : Fate) : DecidablePred (Outcome.Of frame hot fate) :=
  fun o => inferInstanceAs (Decidable (o.frame = frame ∧ o.hot = hot ∧ o.fate = fate))

def tally (outcomes : List Outcome) (frame : ℕ) (hot : Bool) (fate : Fate) : ℕ :=
  outcomes.countP (Outcome.Of frame hot fate)

theorem tally_append (outcomes : List Outcome) (o : Outcome) (frame : ℕ) (hot : Bool)
    (fate : Fate) : tally (outcomes ++ [o]) frame hot fate =
      tally outcomes frame hot fate + if Outcome.Of frame hot fate o then 1 else 0 := by
  simp [tally, List.countP_append, List.countP_cons]

def entriesOf (p : Fate → Bool) (outcomes : List Outcome) : List Entry :=
  (outcomes.filter fun o => p o.fate).map Outcome.entry

theorem entriesOf_append (p : Fate → Bool) (outcomes : List Outcome) (o : Outcome) :
    entriesOf p (outcomes ++ [o]) = entriesOf p outcomes ++ if p o.fate then [o.entry] else [] := by
  unfold entriesOf
  by_cases h : p o.fate = true
  · simp [h]
  · simp [h]

namespace OvertakeZoneScheduler

def hands (s : OvertakeZoneScheduler) : Multiset Entry :=
  (s.frames.map fun f => (f.hand : Multiset Entry)).sum

def places (s : OvertakeZoneScheduler) : Multiset Entry :=
  s.pending + s.analyzerQueue + s.renderQueue + s.hands + s.popped +
    entriesOf (· ≠ .pushed) s.outcomes + s.left

def total (s : OvertakeZoneScheduler) : Multiset Entry := s.places + s.lost

variable {s s' : OvertakeZoneScheduler} {frame : ℕ} {f f' : Frame} {id : ComponentId} {late : Bool}
  {entry : Entry} {hot : Bool}

theorem sum_map_set {α : Type} (g : α → Multiset Entry) {l : List α} {i : ℕ} {a b : α}
    (h : l[i]? = some a) : ((l.set i b).map g).sum + g a = (l.map g).sum + g b := by
  induction l generalizing i with
  | nil => cases h
  | cons x l ih =>
      cases i with
      | zero =>
          obtain rfl : x = a := by simpa using h
          simp only [List.set_cons_zero, List.map_cons, List.sum_cons]
          abel
      | succ i =>
          have hrest := ih (i := i) (by simpa using h)
          simp only [List.set_cons_succ, List.map_cons, List.sum_cons]
          rw [add_assoc, hrest, add_assoc]

theorem hands_setFrame (h : s.frames[frame]? = some f) :
    (s.setFrame frame f').hands + f.hand = s.hands + f'.hand :=
  sum_map_set (fun f => (f.hand : Multiset Entry)) h

/-! ### One step keeps every number in its one place -/

def Moves (s s' : OvertakeZoneScheduler) : Prop :=
  (s'.total = s.total ∧ s'.next = s.next) ∨
    ∃ id, s'.total = ⟨id, s.next⟩ ::ₘ s.total ∧ s'.next = s.next + 1

theorem moves_refl (s : OvertakeZoneScheduler) : s.Moves s := Or.inl ⟨rfl, rfl⟩

theorem pending_marked (h : (s.ring.markDirty id).1 = true) :
    (((s.ring.markDirty id).2.dirtyIds.map fun other =>
      (⟨other, Function.update s.numbers id s.next other⟩ : Entry)) : Multiset Entry) =
        ⟨id, s.next⟩ ::ₘ (s.pending : Multiset Entry) := by
  have hclean := (SentinelRing.markDirty_eq_true.mp h).2
  have hothers : (s.ring.dirtyIds.map fun other =>
      (⟨other, Function.update s.numbers id s.next other⟩ : Entry)) = s.pending := by
    refine List.map_congr_left fun other hother => ?_
    rw [Function.update_of_ne]
    rintro rfl
    exact hclean hother
  rw [Multiset.cons_coe, Multiset.coe_eq_coe]
  refine ((SentinelRing.dirtyIds_marked h).map _).trans ?_
  rw [List.map_cons, hothers, Function.update_self]

theorem markHotDirty_moves (s : OvertakeZoneScheduler) (id : ComponentId) :
    s.Moves (s.markHotDirty id).2 := by
  unfold markHotDirty
  dsimp only
  split_ifs with hmember hfresh
  · refine Or.inr ⟨id, ?_, rfl⟩
    simp only [total, places, pending, hands, pending_marked hfresh, Multiset.cons_add]
  · have hpending : ((s.ring.markDirty id).2.dirtyIds.map fun other =>
        (⟨other, s.numbers other⟩ : Entry)).Perm s.pending :=
      (SentinelRing.dirtyIds_unmarked (by simpa using hfresh)).map _
    refine Or.inl ⟨?_, rfl⟩
    simp only [total, places, pending, hands]
    rw [Multiset.coe_eq_coe.mpr hpending]
    rfl
  · exact s.moves_refl

theorem submitAnalyzerResult_moves (s : OvertakeZoneScheduler) (id : ComponentId) :
    s.Moves (s.submitAnalyzerResult id).2 := by
  unfold submitAnalyzerResult
  split_ifs
  · refine Or.inr ⟨id, ?_, rfl⟩
    simp only [total, places, pending, hands, ← Multiset.coe_add, ← Multiset.singleton_add,
      Multiset.coe_singleton]
    abel
  · exact s.moves_refl

theorem popRenderReady_moves (s : OvertakeZoneScheduler) : s.Moves s.popRenderReady.2 := by
  unfold popRenderReady
  cases hqueue : s.renderQueue with
  | nil => exact s.moves_refl
  | cons entry rest =>
      refine Or.inl ⟨?_, rfl⟩
      simp only [total, places, pending, hands, hqueue, ← Multiset.coe_add,
        ← Multiset.cons_coe entry rest, ← Multiset.singleton_add, Multiset.coe_singleton]
      abel

theorem startFrame_moves (s : OvertakeZoneScheduler) : s.Moves s.startFrame := by
  refine Or.inl ⟨?_, rfl⟩
  simp [total, places, pending, hands, startFrame, Frame.hand]

theorem rebuilt_moves (s : OvertakeZoneScheduler) (registry : HotSetRegistry) :
    s.Moves (s.rebuilt registry) := by
  refine Or.inl ⟨?_, rfl⟩
  have hsplit : ((s.pending.filter fun e => !registry.contains e.component : List Entry) :
      Multiset Entry) + (s.pending.filter fun e => registry.contains e.component : List Entry) =
        (s.pending : Multiset Entry) := by
    rw [Multiset.coe_add, Multiset.coe_eq_coe]
    refine List.perm_append_comm.trans ?_
    exact List.filter_append_perm (fun e => registry.contains e.component) s.pending
  simp only [total, places, pending, rebuilt, hands, SentinelRing.dirtyIds_fromRegistry,
    List.map_nil, ← Multiset.coe_add, Multiset.coe_nil]
  rw [← pending, ← hsplit]
  abel

theorem moves_setFrame (h : s.frames[frame]? = some f) (hframes : s'.frames = s.frames)
    (hnext : s'.next = s.next)
    (hmoved : s'.pending + s'.analyzerQueue + s'.renderQueue + s'.popped +
        entriesOf (· ≠ .pushed) s'.outcomes + s'.left + s'.lost + f'.hand =
      (s.pending + s.analyzerQueue + s.renderQueue + s.popped +
        entriesOf (· ≠ .pushed) s.outcomes + s.left + s.lost + f.hand : Multiset Entry)) :
    s.Moves (s'.setFrame frame f') := by
  refine Or.inl ⟨?_, hnext⟩
  have hhands : (s'.setFrame frame f').hands + f.hand = s.hands + f'.hand := by
    rw [hands_setFrame (hframes ▸ h), hands, hands, hframes]
  refine add_right_cancel (b := (f.hand : Multiset Entry)) ?_
  calc (s'.setFrame frame f').total + f.hand
      = (s'.pending + s'.analyzerQueue + s'.renderQueue + s'.popped +
          entriesOf (· ≠ .pushed) s'.outcomes + s'.left + s'.lost) +
            ((s'.setFrame frame f').hands + f.hand) := by
        simp only [total, places, pending, setFrame]
        abel
    _ = (s'.pending + s'.analyzerQueue + s'.renderQueue + s'.popped +
          entriesOf (· ≠ .pushed) s'.outcomes + s'.left + s'.lost + f'.hand) + s.hands := by
        rw [hhands]
        abel
    _ = s.total + f.hand := by
        rw [hmoved]
        simp only [total, places]
        abel

theorem push_moves (h : s.frames[frame]? = some f) (hhand : (f.hand : Multiset Entry) =
    entry ::ₘ f'.hand) : s.Moves ((s.push frame hot entry).2.setFrame frame f') := by
  unfold push
  split_ifs
  · refine moves_setFrame h rfl rfl ?_
    simp only [pending, record, entriesOf_append, ne_eq, not_true_eq_false, decide_false,
      Bool.false_eq_true, if_false, List.append_nil, hhand, ← Multiset.coe_add,
      ← Multiset.singleton_add, Multiset.coe_singleton]
    abel
  · refine moves_setFrame h rfl rfl ?_
    simp only [pending, record, entriesOf_append, ne_eq, reduceCtorEq, not_false_eq_true,
      decide_true, if_true, hhand, ← Multiset.coe_add, ← Multiset.singleton_add,
      Multiset.coe_singleton]
    abel

theorem hand_turn (config : SchedulerConfig) (stats : SchedulerFrameStats) (sinceZone : ℕ) :
    (turn config stats sinceZone late).hand = [] := by
  unfold turn
  split_ifs <;> rfl

theorem takeResult_moves (h : s.frames[frame]? = some f) (hhand : f.hand = []) (sinceZone : ℕ) :
    s.Moves (s.takeResult frame f sinceZone) := by
  unfold takeResult
  split_ifs
  · cases hqueue : s.analyzerQueue with
    | nil =>
        refine moves_setFrame h rfl rfl ?_
        rw [hhand]
        rfl
    | cons entry rest =>
        refine moves_setFrame h rfl rfl ?_
        rw [hhand]
        simp only [pending, hqueue, Frame.hand, ← Multiset.cons_coe entry rest,
          ← Multiset.singleton_add, Multiset.coe_singleton, Multiset.coe_nil]
        abel
  · refine moves_setFrame h rfl rfl ?_
    rw [hhand]
    rfl

theorem settleResult_moves (h : s.frames[frame]? = some f) (hhand : f.hand = [entry])
    (sinceZone : ℕ) : s.Moves (s.settleResult frame f entry sinceZone late) := by
  unfold settleResult
  dsimp only
  split_ifs
  · refine moves_setFrame h rfl rfl ?_
    simp only [pending, record, entriesOf_append, ne_eq, reduceCtorEq, not_false_eq_true,
      decide_true, if_true, hhand, hand_turn, ← Multiset.coe_add, Multiset.coe_nil]
    abel
  · exact push_moves h (by rw [hhand, hand_turn]; rfl)
  · exact push_moves h (by rw [hhand, hand_turn]; rfl)

theorem advance_moves (s : OvertakeZoneScheduler) (frame : ℕ) (late : Bool) :
    s.Moves (s.advance frame late) := by
  unfold advance
  cases hframe : s.frames[frame]? with
  | none => exact s.moves_refl
  | some f =>
      obtain ⟨stats, stage⟩ := f
      cases stage with
      | started =>
          refine moves_setFrame hframe rfl rfl ?_
          simp only [pending, SentinelRing.dirtyIds_taken, List.map_nil, Frame.hand,
            Multiset.coe_nil]
          abel
      | draining hand =>
          cases hand with
          | nil => exact moves_setFrame hframe rfl rfl rfl
          | cons entry hand =>
              refine push_moves hframe ?_
              simp only [Frame.hand, Multiset.cons_coe]
      | analyzing sinceZone => exact takeResult_moves hframe rfl sinceZone
      | holding entry sinceZone => exact settleResult_moves hframe rfl sinceZone
      | adjusting =>
          refine moves_setFrame hframe rfl rfl ?_
          dsimp only
          split_ifs <;> rfl
      | storing next => exact moves_setFrame hframe rfl rfl rfl
      | ended => exact s.moves_refl

theorem kept_advance :
    (s.advance frame late).lost = s.lost ∧ (s.advance frame late).left = s.left := by
  simp only [advance, drain, pushHot, takeResult, settleResult, adjust, push, record, setFrame]
  repeat' split
  all_goals exact ⟨rfl, rfl⟩

def newRegistry (s : OvertakeZoneScheduler) : Action → Option HotSetRegistry
  | .registerHotComponent id priority =>
      (s.registry.register id priority).toOption.map Prod.snd
  | .deregisterHotComponent id =>
      let removed := s.registry.deregister id
      if removed.1 then some removed.2 else none
  | .configureHotSet entries => (HotSetRegistry.empty.registerAll entries).toOption
  | _ => none

theorem step_newRegistry {registry : HotSetRegistry} {action : Action}
    (h : s.newRegistry action = some registry) : s.step action = s.rebuilt registry := by
  cases action with
  | registerHotComponent id priority =>
      simp only [newRegistry] at h
      simp only [step, registerHotComponent]
      cases hr : s.registry.register id priority with
      | ok r =>
          rw [hr] at h
          cases h
          rfl
      | error e =>
          rw [hr] at h
          cases h
  | deregisterHotComponent id =>
      simp only [newRegistry] at h
      simp only [step, deregisterHotComponent]
      split_ifs at h ⊢
      rw [Option.some.inj h]
  | configureHotSet entries =>
      simp only [newRegistry] at h
      simp only [step, configureHotSet]
      cases hr : HotSetRegistry.empty.registerAll entries with
      | ok r =>
          rw [hr] at h
          cases h
          rfl
      | error e =>
          rw [hr] at h
          cases h
  | _ => cases h

theorem step_unchanged {action : Action} (hc : action.changesHotSet = true)
    (h : s.newRegistry action = none) : s.step action = s := by
  cases action with
  | registerHotComponent id priority =>
      simp only [newRegistry] at h
      simp only [step, registerHotComponent]
      cases hr : s.registry.register id priority with
      | ok r =>
          rw [hr] at h
          cases h
      | error e => rfl
  | deregisterHotComponent id =>
      simp only [newRegistry] at h
      simp only [step, deregisterHotComponent]
      split_ifs at h ⊢
      rfl
  | configureHotSet entries =>
      simp only [newRegistry] at h
      simp only [step, configureHotSet]
      cases hr : HotSetRegistry.empty.registerAll entries with
      | ok r =>
          rw [hr] at h
          cases h
      | error e => rfl
  | _ => cases hc

theorem step_no_registry {action : Action} (h : s.newRegistry action = none) :
    s.Moves (s.step action) ∧ (s.step action).lost = s.lost ∧ (s.step action).left = s.left := by
  cases action with
  | markHotDirty id =>
      refine ⟨s.markHotDirty_moves id, ?_⟩
      simp only [step, markHotDirty]
      split_ifs <;> exact ⟨rfl, rfl⟩
  | submitAnalyzerResult id =>
      refine ⟨s.submitAnalyzerResult_moves id, ?_⟩
      simp only [step, submitAnalyzerResult]
      split_ifs <;> exact ⟨rfl, rfl⟩
  | popRenderReady =>
      refine ⟨s.popRenderReady_moves, ?_⟩
      simp only [step, popRenderReady]
      split <;> exact ⟨rfl, rfl⟩
  | startFrame => exact ⟨s.startFrame_moves, rfl, rfl⟩
  | advance frame late => exact ⟨s.advance_moves frame late, kept_advance⟩
  | _ =>
      rw [step_unchanged rfl h]
      exact ⟨s.moves_refl, rfl, rfl⟩

/-! ### What the frames did -/

structure Recorded (s : OvertakeZoneScheduler) : Prop where
  delivered : s.popped ++ s.renderQueue = entriesOf (· = .pushed) s.outcomes
  hot_first : s.outcomes.Pairwise fun a b => a.frame = b.frame → b.hot = true → a.hot = true
  early : ∀ i f, s.frames[i]? = some f → f.early = true →
    ∀ o ∈ s.outcomes, o.frame = i → o.hot = true
  counted : ∀ i f, s.frames[i]? = some f → ∀ hot fate,
    f.stats.counted hot fate = tally s.outcomes i hot fate
  known : ∀ o ∈ s.outcomes, o.frame < s.frames.length

theorem Recorded.quiet (h : s.Recorded) (hframe : s.frames[frame]? = some f)
    (hframes : s'.frames = s.frames) (houtcomes : s'.outcomes = s.outcomes)
    (hpopped : s'.popped = s.popped) (hqueue : s'.renderQueue = s.renderQueue)
    (hstats : f'.stats.counted = f.stats.counted) (hearly : f'.early = true → f.early = true) :
    (s'.setFrame frame f').Recorded := by
  have hfound : ∀ i g, (s'.setFrame frame f').frames[i]? = some g →
      s.frames[i]? = some g ∨ i = frame ∧ g = f' := by
    intro i g hg
    simp only [setFrame, hframes, List.getElem?_set] at hg
    split_ifs at hg with hi hlt
    · exact Or.inr ⟨hi.symm, (Option.some.inj hg).symm⟩
    · exact Or.inl hg
  refine ⟨?_, ?_, ?_, ?_, ?_⟩
  · simp only [setFrame, hpopped, hqueue, houtcomes]
    exact h.delivered
  · simp only [setFrame, houtcomes]
    exact h.hot_first
  · intro i g hg hge
    simp only [setFrame, houtcomes]
    rcases hfound i g hg with hg | ⟨rfl, rfl⟩
    · exact h.early i g hg hge
    · exact h.early i f hframe (hearly hge)
  · intro i g hg hot fate
    simp only [setFrame, houtcomes]
    rcases hfound i g hg with hg | ⟨rfl, rfl⟩
    · exact h.counted i g hg hot fate
    · rw [hstats]
      exact h.counted i f hframe hot fate
  · simp only [setFrame, houtcomes, hframes, List.length_set]
    exact h.known

/-- A step of a frame that has one: a frame is done with the hot set when it first has an
outcome of a result. -/
theorem Recorded.logged {o : Outcome} (h : s.Recorded) (hframe : s.frames[frame]? = some f)
    (hframes : s'.frames = s.frames) (houtcomes : s'.outcomes = s.outcomes ++ [o])
    (ho : o.frame = frame)
    (hdelivered : s'.popped ++ s'.renderQueue =
      s.popped ++ s.renderQueue ++ if o.fate = .pushed then [o.entry] else [])
    (hstats : ∀ hot fate, f'.stats.counted hot fate =
      f.stats.counted hot fate + if o.hot = hot ∧ o.fate = fate then 1 else 0)
    (hhot : o.hot = true → f.early = true) (hearly : f'.early = true → o.hot = true) :
    (s'.setFrame frame f').Recorded := by
  have hlt : frame < s.frames.length := (List.getElem?_eq_some_iff.mp hframe).1
  have hfound : ∀ i g, (s'.setFrame frame f').frames[i]? = some g →
      s.frames[i]? = some g ∧ i ≠ frame ∨ i = frame ∧ g = f' := by
    intro i g hg
    simp only [setFrame, hframes, List.getElem?_set] at hg
    split_ifs at hg with hi
    · exact Or.inr ⟨hi.symm, (Option.some.inj hg).symm⟩
    · exact Or.inl ⟨hg, fun hif => hi hif.symm⟩
  refine ⟨?_, ?_, ?_, ?_, ?_⟩
  · simp only [setFrame, houtcomes, hdelivered, h.delivered, entriesOf_append, decide_eq_true_eq]
  · simp only [setFrame, houtcomes]
    refine List.pairwise_append.mpr ⟨h.hot_first, List.pairwise_singleton _ _, ?_⟩
    intro a ha b hb hsame hot
    obtain rfl := List.mem_singleton.mp hb
    exact h.early frame f hframe (hhot hot) a ha (hsame.trans ho)
  · intro i g hg hge a ha hai
    simp only [setFrame, houtcomes, List.mem_append, List.mem_singleton] at ha
    rcases hfound i g hg with ⟨hg, hi⟩ | ⟨rfl, rfl⟩
    · rcases ha with ha | rfl
      · exact h.early i g hg hge a ha hai
      · exact absurd (hai.symm.trans ho) hi
    · rcases ha with ha | rfl
      · exact h.early i f hframe (hhot (hearly hge)) a ha hai
      · exact hearly hge
  · intro i g hg hot fate
    simp only [setFrame, houtcomes, tally_append, Outcome.Of, ho]
    rcases hfound i g hg with ⟨hg, hi⟩ | ⟨rfl, rfl⟩
    · rw [h.counted i g hg hot fate, if_neg (fun hof => hi hof.1.symm), add_zero]
    · rw [hstats, h.counted i f hframe hot fate]
      simp only [true_and]
  · simp only [setFrame, houtcomes, hframes, List.length_set, List.mem_append, List.mem_singleton]
    rintro a (ha | rfl)
    · exact h.known a ha
    · exact ho.trans_lt hlt

theorem Recorded.push (h : s.Recorded) (hframe : s.frames[frame]? = some f)
    (hstats : ∀ hot' fate, f'.stats.counted hot' fate = f.stats.counted hot' fate +
      if hot = hot' ∧ (if (s.push frame hot entry).1 then Fate.pushed else .dropped) = fate then 1
      else 0)
    (hhot : hot = true → f.early = true) (hearly : f'.early = true → hot = true) :
    ((s.push frame hot entry).2.setFrame frame f').Recorded := by
  by_cases hroom : s.renderQueue.length < s.config.renderQueueCapacity
  · simp only [OvertakeZoneScheduler.push, if_pos hroom, if_true] at hstats ⊢
    exact h.logged hframe rfl rfl rfl (List.append_assoc _ _ _).symm hstats hhot hearly
  · simp only [OvertakeZoneScheduler.push, if_neg hroom, Bool.false_eq_true, if_false] at hstats ⊢
    exact h.logged hframe rfl rfl rfl (List.append_nil _).symm hstats hhot hearly

theorem stats_turn (config : SchedulerConfig) (stats : SchedulerFrameStats) (sinceZone : ℕ) :
    (turn config stats sinceZone late).stats.counted = stats.counted := by
  unfold turn
  split_ifs
  · rfl
  · rfl
  · rfl

theorem early_turn (config : SchedulerConfig) (stats : SchedulerFrameStats) (sinceZone : ℕ) :
    (turn config stats sinceZone late).early = false := by
  unfold turn
  split_ifs <;> rfl

theorem Recorded.pushHot {hand : List Entry} (h : s.Recorded) (hframe : s.frames[frame]? = some f)
    (hearly : f.early = true) : (s.pushHot frame f entry hand).Recorded := by
  unfold OvertakeZoneScheduler.pushHot
  refine h.push hframe ?_ (fun _ => hearly) (fun _ => rfl)
  intro hot fate
  split_ifs <;> cases hot <;> cases fate <;> simp_all [SchedulerFrameStats.counted]

theorem Recorded.takeResult (h : s.Recorded) (hframe : s.frames[frame]? = some f)
    (sinceZone : ℕ) : (s.takeResult frame f sinceZone).Recorded := by
  unfold OvertakeZoneScheduler.takeResult
  split_ifs
  · cases hqueue : s.analyzerQueue with
    | nil => exact h.quiet hframe rfl rfl rfl rfl rfl fun hearly => by cases hearly
    | cons entry rest => exact h.quiet hframe rfl rfl rfl rfl rfl fun hearly => by cases hearly
  · exact h.quiet hframe rfl rfl rfl rfl rfl fun hearly => by cases hearly

theorem Recorded.settleResult (h : s.Recorded) (hframe : s.frames[frame]? = some f)
    (sinceZone : ℕ) : (s.settleResult frame f entry sinceZone late).Recorded := by
  have hearly : ∀ stats, (turn s.config stats sinceZone late).early = true → false = true :=
    fun stats hturn => (early_turn s.config stats sinceZone).symm.trans hturn
  unfold OvertakeZoneScheduler.settleResult
  dsimp only
  split_ifs with hmember hpushed
  · refine h.logged hframe rfl rfl rfl (List.append_nil _).symm ?_ (fun hhot => by cases hhot)
      (hearly _)
    intro hot fate
    rw [stats_turn]
    cases hot <;> cases fate <;> rfl
  · refine h.push hframe ?_ (fun hhot => by cases hhot) (hearly _)
    intro hot fate
    rw [stats_turn, if_pos hpushed]
    cases hot <;> cases fate <;> rfl
  · refine h.push hframe ?_ (fun hhot => by cases hhot) (hearly _)
    intro hot fate
    rw [stats_turn, if_neg hpushed]
    cases hot <;> cases fate <;> rfl

theorem Recorded.advance (h : s.Recorded) (frame : ℕ) (late : Bool) :
    (s.advance frame late).Recorded := by
  unfold OvertakeZoneScheduler.advance
  cases hframe : s.frames[frame]? with
  | none => exact h
  | some f =>
      obtain ⟨stats, stage⟩ := f
      cases stage with
      | started => exact h.quiet hframe rfl rfl rfl rfl rfl fun _ => rfl
      | draining hand =>
          cases hand with
          | nil => exact h.quiet hframe rfl rfl rfl rfl rfl fun _ => rfl
          | cons entry hand => exact h.pushHot hframe rfl
      | analyzing sinceZone => exact h.takeResult hframe sinceZone
      | holding entry sinceZone => exact h.settleResult hframe sinceZone
      | adjusting =>
          refine h.quiet hframe rfl rfl rfl rfl rfl fun hearly => ?_
          dsimp only at hearly
          split_ifs at hearly <;> cases hearly
      | storing next => exact h.quiet hframe rfl rfl rfl rfl rfl fun hearly => by cases hearly
      | ended => exact h

theorem Recorded.rebuilt (h : s.Recorded) (registry : HotSetRegistry) :
    (s.rebuilt registry).Recorded := ⟨h.delivered, h.hot_first, h.early, h.counted, h.known⟩

theorem Recorded.startFrame (h : s.Recorded) : s.startFrame.Recorded := by
  refine ⟨h.delivered, h.hot_first, ?_, ?_, ?_⟩
  · intro i f hf hearly o ho hoi
    simp only [OvertakeZoneScheduler.startFrame, List.getElem?_append] at hf
    split_ifs at hf with hi
    · exact h.early i f hf hearly o ho hoi
    · exact absurd (hoi ▸ h.known o ho) hi
  · intro i f hf hot fate
    simp only [OvertakeZoneScheduler.startFrame, List.getElem?_append] at hf
    split_ifs at hf with hi
    · exact h.counted i f hf hot fate
    · have hnone : tally s.outcomes i hot fate = 0 := by
        refine List.countP_eq_zero.mpr fun o ho hof => ?_
        exact hi ((of_decide_eq_true hof).1 ▸ h.known o ho)
      obtain rfl := List.mem_singleton.mp (List.mem_of_getElem? hf)
      change SchedulerFrameStats.counted (.new s.analyzerChunkLimit) hot fate =
        tally s.outcomes i hot fate
      rw [hnone]
      cases hot <;> cases fate <;> rfl
  · intro o ho
    simp only [OvertakeZoneScheduler.startFrame, List.length_append]
    exact (h.known o ho).trans_le (Nat.le_add_right _ _)

theorem Recorded.step (h : s.Recorded) (action : Action) : (s.step action).Recorded := by
  cases hregistry : s.newRegistry action with
  | some registry =>
      rw [step_newRegistry hregistry]
      exact h.rebuilt registry
  | none =>
      cases action with
      | markHotDirty id =>
          simp only [OvertakeZoneScheduler.step, markHotDirty]
          split_ifs
          · exact ⟨h.delivered, h.hot_first, h.early, h.counted, h.known⟩
          · exact ⟨h.delivered, h.hot_first, h.early, h.counted, h.known⟩
          · exact h
      | submitAnalyzerResult id =>
          simp only [OvertakeZoneScheduler.step, submitAnalyzerResult]
          split_ifs
          · exact ⟨h.delivered, h.hot_first, h.early, h.counted, h.known⟩
          · exact h
      | popRenderReady =>
          have hdelivered := h.delivered
          simp only [OvertakeZoneScheduler.step, popRenderReady]
          cases hqueue : s.renderQueue with
          | nil => exact h
          | cons entry rest =>
              rw [hqueue] at hdelivered
              exact ⟨(List.append_assoc _ _ _).trans hdelivered, h.hot_first, h.early, h.counted,
                h.known⟩
      | startFrame => exact h.startFrame
      | advance frame late => exact h.advance frame late
      | _ =>
          rw [step_unchanged rfl hregistry]
          exact h

/-! ### The chunk limit -/

structure Limited (s : OvertakeZoneScheduler) : Prop where
  limit : s.config.InRange s.analyzerChunkLimit
  stores : ∀ f ∈ s.frames, ∀ next, f.stage = .storing next → s.config.InRange next

theorem inRange_nextLimit {config : SchedulerConfig} {current : ℕ} (h : config.InRange current)
    (stats : SchedulerFrameStats) : config.InRange (nextLimit config stats current) := by
  obtain ⟨hlow, hhigh⟩ := h
  have hword := config.overtakeInterval_lt
  unfold nextLimit Dirty.satAdd SchedulerConfig.InRange
  split_ifs <;> omega

theorem stage_turn (config : SchedulerConfig) (stats : SchedulerFrameStats) (sinceZone next : ℕ) :
    (turn config stats sinceZone late).stage ≠ .storing next := by
  unfold turn
  split_ifs <;> exact Stage.noConfusion

theorem Limited.setFrame (h : s.Limited) (hconfig : s'.config = s.config)
    (hlimit : s'.analyzerChunkLimit = s.analyzerChunkLimit) (hframes : s'.frames = s.frames)
    (hstage : ∀ next, f'.stage = .storing next → s.config.InRange next) :
    (s'.setFrame frame f').Limited := by
  refine ⟨?_, ?_⟩
  · simp only [OvertakeZoneScheduler.setFrame, hconfig, hlimit]
    exact h.limit
  · intro g hg next hnext
    simp only [OvertakeZoneScheduler.setFrame, hframes] at hg
    simp only [OvertakeZoneScheduler.setFrame, hconfig]
    rcases List.mem_or_eq_of_mem_set hg with hg | rfl
    · exact h.stores g hg next hnext
    · exact hstage next hnext

theorem Limited.push (h : s.Limited)
    (hstage : ∀ next, f'.stage = .storing next → s.config.InRange next) :
    ((s.push frame hot entry).2.setFrame frame f').Limited := by
  unfold OvertakeZoneScheduler.push
  split_ifs
  · exact h.setFrame rfl rfl rfl hstage
  · exact h.setFrame rfl rfl rfl hstage

theorem Limited.advance (h : s.Limited) (frame : ℕ) (late : Bool) :
    (s.advance frame late).Limited := by
  have hturn : ∀ stats sinceZone next,
      (turn s.config stats sinceZone late).stage = .storing next → s.config.InRange next :=
    fun stats sinceZone next hnext => absurd hnext (stage_turn s.config stats sinceZone next)
  unfold OvertakeZoneScheduler.advance
  cases hframe : s.frames[frame]? with
  | none => exact h
  | some f =>
      obtain ⟨stats, stage⟩ := f
      cases stage with
      | started => exact h.setFrame rfl rfl rfl fun next hnext => by cases hnext
      | draining hand =>
          cases hand with
          | nil => exact h.setFrame rfl rfl rfl fun next hnext => by cases hnext
          | cons entry hand => exact h.push fun next hnext => by cases hnext
      | analyzing sinceZone =>
          dsimp only
          unfold takeResult
          split_ifs
          · cases hqueue : s.analyzerQueue with
            | nil => exact h.setFrame rfl rfl rfl fun next hnext => by cases hnext
            | cons entry rest => exact h.setFrame rfl rfl rfl fun next hnext => by cases hnext
          · exact h.setFrame rfl rfl rfl fun next hnext => by cases hnext
      | holding entry sinceZone =>
          dsimp only
          unfold settleResult
          dsimp only
          split_ifs
          · exact h.setFrame rfl rfl rfl (hturn _ _)
          · exact h.push (hturn _ _)
          · exact h.push (hturn _ _)
      | adjusting =>
          refine h.setFrame rfl rfl rfl fun next hnext => ?_
          dsimp only at hnext
          split_ifs at hnext
          cases hnext
          exact inRange_nextLimit h.limit stats
      | storing next =>
          have hmem := List.mem_of_getElem? hframe
          have hstored : ({ s with analyzerChunkLimit := next } : OvertakeZoneScheduler).Limited :=
            ⟨h.stores _ hmem next rfl, h.stores⟩
          exact hstored.setFrame rfl rfl rfl fun next hnext => by cases hnext
      | ended => exact h

theorem Limited.step (h : s.Limited) (action : Action) : (s.step action).Limited := by
  cases hregistry : s.newRegistry action with
  | some registry =>
      rw [step_newRegistry hregistry]
      exact ⟨h.limit, h.stores⟩
  | none =>
      cases action with
      | markHotDirty id =>
          simp only [OvertakeZoneScheduler.step, markHotDirty]
          split_ifs
          · exact ⟨h.limit, h.stores⟩
          · exact ⟨h.limit, h.stores⟩
          · exact h
      | submitAnalyzerResult id =>
          simp only [OvertakeZoneScheduler.step, submitAnalyzerResult]
          split_ifs
          · exact ⟨h.limit, h.stores⟩
          · exact h
      | popRenderReady =>
          simp only [OvertakeZoneScheduler.step, popRenderReady]
          cases s.renderQueue with
          | nil => exact h
          | cons entry rest => exact ⟨h.limit, h.stores⟩
      | startFrame =>
          refine ⟨h.limit, fun f hf next hnext => ?_⟩
          rcases List.mem_append.mp hf with hf | hf
          · exact h.stores f hf next hnext
          · rw [List.mem_singleton.mp hf] at hnext
            cases hnext
      | advance frame late => exact h.advance frame late
      | _ =>
          rw [step_unchanged rfl hregistry]
          exact h

/-! ### Runs -/

def Ringed (s : OvertakeZoneScheduler) : Prop := s.ring.idFor = s.registry.snapshotIdsSorted

theorem ringed_advance : (s.advance frame late).registry = s.registry ∧
    (s.advance frame late).ring.idFor = s.ring.idFor := by
  simp only [advance, drain, pushHot, takeResult, settleResult, adjust, push, record, setFrame]
  repeat' split
  all_goals exact ⟨rfl, rfl⟩

theorem Ringed.step (h : s.Ringed) (action : Action) : (s.step action).Ringed := by
  cases hregistry : s.newRegistry action with
  | some registry =>
      rw [step_newRegistry hregistry]
      rfl
  | none =>
      cases action with
      | markHotDirty id =>
          simp only [OvertakeZoneScheduler.step, markHotDirty]
          split_ifs
          · exact SentinelRing.idFor_markDirty.trans h
          · exact SentinelRing.idFor_markDirty.trans h
          · exact h
      | submitAnalyzerResult id =>
          simp only [OvertakeZoneScheduler.step, submitAnalyzerResult]
          split_ifs <;> exact h
      | popRenderReady =>
          simp only [OvertakeZoneScheduler.step, popRenderReady]
          split <;> exact h
      | startFrame => exact h
      | advance frame late =>
          obtain ⟨hregistry, hring⟩ : (s.advance frame late).registry = s.registry ∧
              (s.advance frame late).ring.idFor = s.ring.idFor := ringed_advance
          unfold Ringed OvertakeZoneScheduler.step
          rw [hregistry, hring]
          exact h
      | _ =>
          rw [step_unchanged rfl hregistry]
          exact h

def run (s : OvertakeZoneScheduler) (actions : List Action) : OvertakeZoneScheduler :=
  actions.foldl step s

def Spares (s : OvertakeZoneScheduler) (action : Action) : Prop :=
  ∀ registry, s.newRegistry action = some registry →
    ∀ id ∈ s.ring.dirtyIds, registry.contains id = false

def SparesAll : OvertakeZoneScheduler → List Action → Prop
  | _, [] => True
  | s, action :: actions => s.Spares action ∧ SparesAll (s.step action) actions

structure Accounted (s : OvertakeZoneScheduler) : Prop where
  /-- Every number that was given out is in exactly one place. -/
  once : s.places.map Entry.number = Multiset.range s.next
  recorded : s.Recorded
  limit : s.config.InRange s.analyzerChunkLimit
  marks : ∀ id, (s.markHotDirty id).1 = true ↔
    s.registry.contains id = true ∧ id ∉ s.ring.dirtyIds
  marked : ∀ id, (s.markHotDirty id).1 = true →
    ⟨id, s.next⟩ ∈ (s.markHotDirty id).2.pending ∧ (s.markHotDirty id).2.next = s.next + 1
  accepted : ∀ id, (s.submitAnalyzerResult id).1 = true →
    ⟨id, s.next⟩ ∈ (s.submitAnalyzerResult id).2.analyzerQueue ∧
      (s.submitAnalyzerResult id).2.next = s.next + 1
  discards : ∀ action o, (s.step action).outcomes = s.outcomes ++ [o] → o.fate = .discarded →
    o.hot = false ∧ s.registry.contains o.entry.component = true
  leaves : ∀ action, ∀ e ∈ (s.step action).left, e ∉ s.left →
    ∃ registry, s.newRegistry action = some registry ∧ registry.contains e.component = false

theorem markHotDirty_eq_true (h : s.Ringed) : (s.markHotDirty id).1 = true ↔
    s.registry.contains id = true ∧ id ∉ s.ring.dirtyIds := by
  have hmember : id ∈ s.ring.idFor ↔ s.registry.contains id = true := by
    rw [h]
    exact HotSetRegistry.mem_snapshot
  unfold markHotDirty
  dsimp only
  split_ifs with hcontains hmarked
  · exact iff_of_true rfl ⟨hcontains, (SentinelRing.markDirty_eq_true.mp hmarked).2⟩
  · refine iff_of_false not_false fun hclean => hmarked ?_
    exact SentinelRing.markDirty_eq_true.mpr ⟨hmember.mpr hcontains, hclean.2⟩
  · exact iff_of_false not_false fun hclean => hcontains hclean.1

theorem mem_pending_marked (h : (s.markHotDirty id).1 = true) :
    ⟨id, s.next⟩ ∈ (s.markHotDirty id).2.pending ∧ (s.markHotDirty id).2.next = s.next + 1 := by
  unfold markHotDirty at h ⊢
  dsimp only at h ⊢
  split_ifs at h ⊢ with hcontains hmarked
  refine ⟨?_, rfl⟩
  have hpending := pending_marked (s := s) hmarked
  exact Multiset.mem_coe.mp (hpending ▸ Multiset.mem_cons_self _ _)

theorem mem_analyzerQueue_accepted (h : (s.submitAnalyzerResult id).1 = true) :
    ⟨id, s.next⟩ ∈ (s.submitAnalyzerResult id).2.analyzerQueue ∧
      (s.submitAnalyzerResult id).2.next = s.next + 1 := by
  unfold submitAnalyzerResult at h ⊢
  split_ifs at h ⊢
  exact ⟨List.mem_append_right _ (List.mem_singleton_self _), rfl⟩

theorem leaves_step {action : Action} {e : Entry} (he : e ∈ (s.step action).left)
    (hnew : e ∉ s.left) :
    ∃ registry, s.newRegistry action = some registry ∧ registry.contains e.component = false := by
  cases hregistry : s.newRegistry action with
  | none =>
      rw [(step_no_registry hregistry).2.2] at he
      exact absurd he hnew
  | some registry =>
      rw [step_newRegistry hregistry] at he
      rcases List.mem_append.mp he with he | he
      · exact absurd he hnew
      · exact ⟨registry, rfl, by simpa using (List.mem_filter.mp he).2⟩

theorem discards_advance {o : Outcome} (h : (s.advance frame late).outcomes = s.outcomes ++ [o])
    (ho : o.fate = .discarded) : o.hot = false ∧ s.registry.contains o.entry.component = true := by
  have hsame : s.outcomes ≠ s.outcomes ++ [o] := by simp
  have hpush : ∀ {frame hot entry f},
      ((s.push frame hot entry).2.setFrame frame f).outcomes ≠ s.outcomes ++ [o] := by
    intro frame hot entry f hpushed
    unfold push at hpushed
    split_ifs at hpushed
    · have hlast : _ = o := List.singleton_inj.mp (List.append_cancel_left hpushed)
      rw [← hlast] at ho
      cases ho
    · have hlast : _ = o := List.singleton_inj.mp (List.append_cancel_left hpushed)
      rw [← hlast] at ho
      cases ho
  unfold advance at h
  cases hframe : s.frames[frame]? with
  | none =>
      rw [hframe] at h
      exact absurd h hsame
  | some f =>
      obtain ⟨stats, stage⟩ := f
      rw [hframe] at h
      cases stage with
      | draining hand =>
          cases hand with
          | nil => exact absurd h hsame
          | cons entry hand => exact absurd h hpush
      | analyzing sinceZone =>
          dsimp only at h
          unfold takeResult at h
          split_ifs at h
          · cases hqueue : s.analyzerQueue with
            | nil =>
                rw [hqueue] at h
                exact absurd h hsame
            | cons entry rest =>
                rw [hqueue] at h
                exact absurd h hsame
          · exact absurd h hsame
      | holding entry sinceZone =>
          dsimp only at h
          unfold settleResult at h
          dsimp only at h
          split_ifs at h with hmember
          · have hlast : _ = o := List.singleton_inj.mp (List.append_cancel_left h)
            rw [← hlast]
            exact ⟨rfl, hmember⟩
          · exact absurd h hpush
          · exact absurd h hpush
      | _ => exact absurd h hsame

theorem discards_step {action : Action} {o : Outcome}
    (h : (s.step action).outcomes = s.outcomes ++ [o]) (ho : o.fate = .discarded) :
    o.hot = false ∧ s.registry.contains o.entry.component = true := by
  have hsame : s.outcomes ≠ s.outcomes ++ [o] := by simp
  cases hregistry : s.newRegistry action with
  | some registry =>
      rw [step_newRegistry hregistry] at h
      exact absurd h hsame
  | none =>
      cases action with
      | markHotDirty id =>
          simp only [step, markHotDirty] at h
          split_ifs at h <;> exact absurd h hsame
      | submitAnalyzerResult id =>
          simp only [step, submitAnalyzerResult] at h
          split_ifs at h <;> exact absurd h hsame
      | popRenderReady =>
          simp only [step, popRenderReady] at h
          split at h <;> exact absurd h hsame
      | startFrame => exact absurd h hsame
      | advance frame late => exact discards_advance h ho
      | _ =>
          rw [step_unchanged rfl hregistry] at h
          exact absurd h hsame

theorem lost_step (action : Action) :
    s.lost <+: (s.step action).lost ∧ ((s.step action).lost = s.lost ↔ s.Spares action) := by
  cases hregistry : s.newRegistry action with
  | none =>
      rw [(step_no_registry hregistry).2.1]
      refine ⟨List.prefix_rfl, iff_of_true rfl fun registry hsome => ?_⟩
      rw [hregistry] at hsome
      cases hsome
  | some registry =>
      rw [step_newRegistry hregistry]
      refine ⟨List.prefix_append _ _, ?_⟩
      simp only [rebuilt, List.append_right_eq_self, List.filter_eq_nil_iff, pending, List.mem_map,
        Spares, hregistry, Option.some.injEq]
      constructor
      · rintro h _ rfl id hid
        exact Bool.eq_false_iff.mpr (h _ ⟨id, hid, rfl⟩)
      · rintro h _ ⟨id, hid, rfl⟩
        exact Bool.eq_false_iff.mp (h registry rfl id hid)

/-- What every run keeps, whether or not it forgets marks. -/
structure Sound (s : OvertakeZoneScheduler) : Prop where
  all : s.total.map Entry.number = Multiset.range s.next
  recorded : s.Recorded
  limited : s.Limited
  ringed : s.Ringed

theorem Sound.step (h : s.Sound) (action : Action) : (s.step action).Sound := by
  have hmoves : s.Moves (s.step action) := by
    cases hregistry : s.newRegistry action with
    | none => exact (step_no_registry hregistry).1
    | some registry =>
        rw [step_newRegistry hregistry]
        exact s.rebuilt_moves registry
  refine ⟨?_, h.recorded.step action, h.limited.step action, h.ringed.step action⟩
  rcases hmoves with ⟨htotal, hnext⟩ | ⟨id, htotal, hnext⟩
  · rw [htotal, hnext]
    exact h.all
  · rw [htotal, hnext, Multiset.map_cons, h.all, Multiset.range_succ]

theorem Sound.accounted_iff (h : s.Sound) : s.Accounted ↔ s.lost = [] := by
  constructor
  · intro haccounted
    have hall := h.all
    rw [total, Multiset.map_add, haccounted.once] at hall
    have hnone : ((s.lost : Multiset Entry).map Entry.number) = 0 := add_eq_left.mp hall
    exact (Multiset.coe_eq_zero _).mp (Multiset.map_eq_zero.mp hnone)
  · intro hlost
    have hall := h.all
    rw [total, hlost, Multiset.coe_nil, add_zero] at hall
    exact ⟨hall, h.recorded, h.limited.limit, fun _ => markHotDirty_eq_true h.ringed,
      fun _ => mem_pending_marked, fun _ => mem_analyzerQueue_accepted, fun _ _ => discards_step,
      fun _ _ => leaves_step⟩

theorem Sound.run (h : s.Sound) (actions : List Action) : (s.run actions).Sound := by
  induction actions generalizing s with
  | nil => exact h
  | cons action actions ih => exact ih (h.step action)

theorem lost_run (actions : List Action) : s.lost <+: (s.run actions).lost := by
  induction actions generalizing s with
  | nil => exact List.prefix_rfl
  | cons action actions ih => exact (lost_step action).1.trans ih

theorem lost_run_iff (hlost : s.lost = []) (actions : List Action) :
    (s.run actions).lost = [] ↔ s.SparesAll actions := by
  induction actions generalizing s with
  | nil => exact iff_of_true hlost trivial
  | cons action actions ih =>
      have hstep := (lost_step (s := s) action).2
      rw [hlost] at hstep
      constructor
      · intro hrun
        have hnone : (s.step action).lost = [] :=
          List.prefix_nil.mp (hrun ▸ lost_run (s := s.step action) actions)
        exact ⟨hstep.mp hnone, (ih hnone).mp hrun⟩
      · rintro ⟨hspares, hrest⟩
        exact (ih (hstep.mpr hspares)).mpr hrest

theorem inRange_initial (config : SchedulerConfig) :
    config.normalized.InRange config.normalized.initialAnalyzerChunkLimit :=
  ⟨le_max_right _ _, le_max_right _ _⟩

theorem sound_withHotSet {config : SchedulerConfig} {entries : List (ComponentId × RenderPriority)}
    (h : withHotSet config entries = .ok s) : s.Sound ∧ s.lost = [] := by
  unfold withHotSet at h
  cases hregistry : HotSetRegistry.empty.registerAll entries with
  | error e =>
      rw [hregistry] at h
      cases h
  | ok registry =>
      rw [hregistry] at h
      obtain rfl := Except.ok.inj h
      refine ⟨⟨?_, ⟨rfl, List.Pairwise.nil, ?_, ?_, ?_⟩, ⟨inRange_initial config, ?_⟩, rfl⟩, rfl⟩
      · simp [total, places, pending, hands, new, entriesOf]
      · exact fun i f hf => by cases hf
      · exact fun i f hf => by cases hf
      · exact fun o ho => by cases ho
      · exact fun f hf => by cases hf

end OvertakeZoneScheduler

/-- Everything is accounted for after a run just when every change of the hot set in it came while
no component that stays was dirty. -/
theorem accounted_iff_sparesAll {config : SchedulerConfig}
    {entries : List (ComponentId × RenderPriority)} {s : OvertakeZoneScheduler}
    (h : OvertakeZoneScheduler.withHotSet config entries = .ok s) (actions : List Action) :
    (s.run actions).Accounted ↔ s.SparesAll actions := by
  obtain ⟨hsound, hlost⟩ := OvertakeZoneScheduler.sound_withHotSet h
  rw [(hsound.run actions).accounted_iff, OvertakeZoneScheduler.lost_run_iff hlost]

def smallConfig : SchedulerConfig where
  overtakeInterval := 2
  overtakeInterval_lt := by decide
  analyzerQueueCapacity := 4
  renderQueueCapacity := 4
  initialAnalyzerChunkLimit := 4
  maxAnalyzerChunkLimit := 8

def oneHot : OvertakeZoneScheduler :=
  let registry : HotSetRegistry := ⟨[(1, .normal)], by decide, by decide⟩
  { OvertakeZoneScheduler.new smallConfig with registry, ring := .fromRegistry registry }

theorem accounted_iff_sparesAll_one :
    (oneHot.run [.markHotDirty 1, .submitAnalyzerResult 7, .startFrame, .advance 0 false,
      .registerHotComponent 2 .high]).Accounted ↔
    oneHot.SparesAll [.markHotDirty 1, .submitAnalyzerResult 7, .startFrame, .advance 0 false,
      .registerHotComponent 2 .high] :=
  accounted_iff_sparesAll (rfl : OvertakeZoneScheduler.withHotSet smallConfig [(1, .normal)] = _) _

/-- Another component becomes hot, and the mark that is pending is gone. -/
theorem pending_mark_is_lost :
    OvertakeZoneScheduler.withHotSet smallConfig [(1, .normal)] = .ok oneHot ∧
      (oneHot.run [.markHotDirty 1]).pending = [⟨1, 0⟩] ∧
      (oneHot.run [.markHotDirty 1, .registerHotComponent 2 .high]).registry.contains 1 = true ∧
      ¬ (oneHot.run [.markHotDirty 1, .registerHotComponent 2 .high]).Accounted := by
  refine ⟨rfl, by decide +kernel, by decide +kernel, fun haccounted => ?_⟩
  exact absurd haccounted.once (by decide +kernel)

end Albedo.Scheduler
