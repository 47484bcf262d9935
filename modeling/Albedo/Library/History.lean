import Albedo.Library.Interleave
import Albedo.Library.Linearize

/-!
# Histories of calls on a store

The calls of a run that were answered are linearizable when every answer is the one a
sequential specification gives at some store of the call's own time, and every change of
the store is some call's answer.
-/
namespace Albedo.Interleave
open Linearize

variable {σ Op α ν : Type}

def View.Answered (v : View σ Op α) (c : ℕ) (op : Op) (a : α) : Prop :=
  v.calls c = some (op, some (.done a))

def View.history (verdict : α → ν) (v : View σ Op α) (c : ℕ) : Option (Op × ν) :=
  match v.calls c with
  | some (op, some (.done a)) => some (op, verdict a)
  | _ => none

def Precedes (program : Op → Prog σ α) (s : σ) (events : List (Event Op)) (c d : ℕ) : Prop :=
  ∃ n ≤ events.length, (∃ op a, (viewAt program s events n).Answered c op a) ∧
    (viewAt program s events n).calls d = none

theorem View.history_eq_some {verdict : α → ν} {v : View σ Op α} {c : ℕ} {op : Op} {x : ν} :
    v.history verdict c = some (op, x) ↔ ∃ a, v.Answered c op a ∧ verdict a = x := by
  unfold View.history View.Answered
  constructor
  · intro h
    split at h
    · rename_i op' a hc
      cases h
      exact ⟨a, hc, rfl⟩
    · cases h
  · rintro ⟨a, hc, rfl⟩
    rw [hc]

theorem View.history_isSome {verdict : α → ν} {v : View σ Op α} {c : ℕ} :
    (v.history verdict c).isSome ↔ ∃ op a, v.Answered c op a := by
  rw [Option.isSome_iff_exists]
  constructor
  · rintro ⟨⟨op, x⟩, h⟩
    obtain ⟨a, ha, -⟩ := View.history_eq_some.mp h
    exact ⟨op, a, ha⟩
  · rintro ⟨op, a, ha⟩
    exact ⟨(op, verdict a), View.history_eq_some.mpr ⟨a, ha, rfl⟩⟩

section
variable {program : Op → Prog σ α} {s : σ} {events : List (Event Op)} {c : ℕ} {op : Op} {a : α}
variable {m n : ℕ}

theorem Moved.answered {e : Event Op} {v v' : View σ Op α} (h : Moved program e v v')
    (ha : v.Answered c op a) : v'.Answered c op a := by
  unfold View.Answered at *
  cases h with
  | drop _ hdrop =>
      rcases hdrop c with hc | ⟨op', p, hc, hne, _⟩
      · rw [hc, ha]
      · rw [ha] at hc
        cases hc
        exact absurd rfl (hne a)
  | call hnone =>
      rw [View.calls_set, if_neg, ha]
      rintro rfl
      rw [hnone] at ha
      cases ha
  | advance hp hatomic =>
      rw [View.calls_set, if_neg, ha]
      rintro rfl
      rw [ha] at hp
      cases hp
      cases hatomic

theorem Moved.made {e : Event Op} {v v' : View σ Op α} (h : Moved program e v v')
    (hc : v'.calls c = none) : v.calls c = none := by
  cases h with
  | drop _ hdrop =>
      rcases hdrop c with hsame | ⟨_, _, _, _, hnone⟩
      · rw [← hsame, hc]
      · rw [hnone] at hc
        cases hc
  | call hnone =>
      rw [View.calls_set] at hc
      split_ifs at hc
      exact hc
  | advance hp hatomic =>
      rw [View.calls_set] at hc
      split_ifs at hc
      exact hc

theorem View.Answered.later (h : (viewAt program s events m).Answered c op a) (hmn : m ≤ n)
    (hn : n ≤ events.length) : (viewAt program s events n).Answered c op a := by
  induction n, hmn using Nat.le_induction with
  | base => exact h
  | succ n hmn ih => exact (moved_at program s hn).answered (ih (Nat.le_of_succ_le hn))

theorem calls_earlier (h : (viewAt program s events n).calls c = none) (hmn : m ≤ n)
    (hn : n ≤ events.length) : (viewAt program s events m).calls c = none := by
  induction n, hmn using Nat.le_induction with
  | base => exact h
  | succ n hmn ih => exact ih ((moved_at program s hn).made h) (Nat.le_of_succ_le hn)

theorem storeAt_changed (hn : n < events.length)
    (hne : storeAt program s events (n + 1) ≠ storeAt program s events n) :
    ∃ c op p q, Mine events c n ∧ (viewAt program s events n).calls c = some (op, some p) ∧
      Atomic p (storeAt program s events n) q (storeAt program s events (n + 1)) ∧
      (viewAt program s events (n + 1)).calls c = some (op, some q) := by
  have hmoved := moved_at program s hn
  unfold storeAt at *
  generalize viewAt program s events (n + 1) = v' at *
  generalize he : events[n] = e at hmoved
  cases hmoved with
  | drop hsame _ => exact absurd hsame hne
  | call _ => exact absurd rfl hne
  | @advance c op p q s' _ hp hatomic =>
      exact ⟨c, op, p, q, (mine_iff hn).mpr he, hp, hatomic, by rw [View.calls_set, if_pos rfl]⟩

theorem step_guarantees {R : Op → σ → σ → Prop} (hrefl : ∀ op s, R op s s)
    (hprogram : ∀ op, (program op).Guarantees (R op)) (hn : n < events.length)
    (hmine : Mine events c n) {rest : Option (Prog σ α)}
    (hc : (viewAt program s events n).calls c = some (op, rest)) :
    R op (storeAt program s events n) (storeAt program s events (n + 1)) := by
  by_cases hsame : storeAt program s events (n + 1) = storeAt program s events n
  · rw [hsame]
    exact hrefl op _
  · obtain ⟨d, op', p, q, hmine', hp, hatomic, -⟩ := storeAt_changed hn hsame
    obtain rfl : d = c := by
      have heq := hmine'.symm.trans hmine
      simpa using heq
    obtain ⟨rfl, -⟩ := Prod.mk.inj (Option.some.inj (hp.symm.trans hc))
    obtain ⟨i, -, -, -, htrail⟩ := trail_of_calls (Nat.le_of_lt hn) hp
    exact (hatomic.guarantees (hrefl op') (htrail.guarantees (hrefl op') (hprogram op'))).1

theorem call_mem {rest : Option (Prog σ α)} (hn : n ≤ events.length)
    (hc : (viewAt program s events n).calls c = some (op, rest)) : .call c op ∈ events := by
  induction n generalizing rest with
  | zero => cases hc
  | succ n ih =>
      have hmoved := moved_at program s hn
      generalize viewAt program s events (n + 1) = v' at hmoved hc
      generalize he : events[n] = e at hmoved
      cases hmoved with
      | drop _ hdrop =>
          rcases hdrop c with hsame | ⟨op', p, hp, _, hnone⟩
          · exact ih (Nat.le_of_succ_le hn) (hsame ▸ hc)
          · rw [hnone] at hc
            cases hc
            exact ih (Nat.le_of_succ_le hn) hp
      | @call d op' _ _ =>
          rw [View.calls_set] at hc
          split_ifs at hc with hd
          · cases hc
            rw [hd, ← he]
            exact List.getElem_mem hn
          · exact ih (Nat.le_of_succ_le hn) hc
      | @advance d op' p q s' _ hp _ =>
          rw [View.calls_set] at hc
          split_ifs at hc with hd
          · cases hc
            exact ih (Nat.le_of_succ_le hn) (hd ▸ hp)
          · exact ih (Nat.le_of_succ_le hn) hc

theorem exists_bound (hn : n ≤ events.length) :
    ∃ N, ∀ c, N ≤ c → (viewAt program s events n).calls c = none := by
  refine viewAt_induction (P := fun v => ∃ N, ∀ c, N ≤ c → v.calls c = none)
    ⟨0, fun _ _ => rfl⟩ (fun e v v' h hv => ?_) hn
  obtain ⟨N, hN⟩ := hv
  cases h with
  | drop _ hdrop =>
      refine ⟨N, fun c hc => ?_⟩
      rcases hdrop c with hsame | ⟨op, p, hp, _, _⟩
      · rw [hsame, hN c hc]
      · rw [hN c hc] at hp
        cases hp
  | @call d op _ _ =>
      refine ⟨max N (d + 1), fun c hc => ?_⟩
      rw [View.calls_set, if_neg (by omega), hN c (by omega)]
  | @advance d op p q s' _ hp _ =>
      refine ⟨N, fun c hc => ?_⟩
      rw [View.calls_set, if_neg, hN c hc]
      rintro rfl
      rw [hN c hc] at hp
      cases hp

end

/-! ### Linearization -/

section
variable (program : Op → Prog σ α) (s : σ) (events : List (Event Op)) (verdict : α → ν)
variable (spec : σ → Op → ν × σ)

def Writes (c : ℕ) : Prop :=
  ∃ n < events.length, Mine events c n ∧
    storeAt program s events (n + 1) ≠ storeAt program s events n

/-- A time at which the specification gives a call the answer it had. -/
structure PointOf (c : ℕ) (op : Op) (a : α) (k : ℕ) : Prop where
  made : ∃ i < k, (viewAt program s events i).calls c = none ∧
    (viewAt program s events (i + 1)).calls c ≠ none
  answered : ∀ n ≤ events.length, (viewAt program s events n).Answered c op a → k ≤ n
  reads : ¬ Writes program s events c →
    spec (storeAt program s events k) op = (verdict a, storeAt program s events k)
  writes : Writes program s events c → Mine events c k ∧ k < events.length ∧
    ¬ (viewAt program s events k).Answered c op a ∧
    (viewAt program s events (k + 1)).Answered c op a ∧
    spec (storeAt program s events k) op = (verdict a, storeAt program s events (k + 1))

/-- Every step of a call leaves the store, and if it answers then as the specification does at
a store seen since the call was made; or it answers and writes as the specification does. -/
def StepsAgree : Prop :=
  ∀ c op p q i k, k < events.length → Mine events c k →
    (viewAt program s events k).calls c = some (op, some p) →
    Trail (storeAt program s events) (Mine events c) i (program op) k p →
    Atomic p (storeAt program s events k) q (storeAt program s events (k + 1)) →
    storeAt program s events (k + 1) = storeAt program s events k ∧
      (∀ a, q = .done a → ∃ m, i ≤ m ∧ m ≤ k ∧
        spec (storeAt program s events m) op = (verdict a, storeAt program s events m)) ∨
    ∃ a, q = .done a ∧
      spec (storeAt program s events k) op = (verdict a, storeAt program s events (k + 1))

/-- A call that is answered at once is answered as the specification does. -/
def AtOnceAgree : Prop :=
  ∀ op a, program op = .done a → ∀ t, spec t op = (verdict a, t)

end

section
variable {program : Op → Prog σ α} {s : σ} {events : List (Event Op)} {verdict : α → ν}
variable {spec : σ → Op → ν × σ} {c : ℕ} {op : Op} {a : α} {n : ℕ}

theorem View.Answered.step (hn : n ≤ events.length)
    (ha : (viewAt program s events n).Answered c op a) :
    ∃ k < n, (viewAt program s events (k + 1)).Answered c op a ∧
      ((viewAt program s events k).calls c = none ∧ program op = .done a ∨
        ∃ p, Mine events c k ∧ (viewAt program s events k).calls c = some (op, some p) ∧
          Atomic p (storeAt program s events k) (.done a) (storeAt program s events (k + 1))) := by
  induction n with
  | zero => cases ha
  | succ n ih =>
      have hmoved := moved_at program s hn
      have hkept : (viewAt program s events n).Answered c op a → _ := ih (Nat.le_of_succ_le hn)
      have hearlier : (viewAt program s events n).Answered c op a →
          ∃ k < n + 1, (viewAt program s events (k + 1)).Answered c op a ∧
            ((viewAt program s events k).calls c = none ∧ program op = .done a ∨
              ∃ p, Mine events c k ∧ (viewAt program s events k).calls c = some (op, some p) ∧
                Atomic p (storeAt program s events k) (.done a) (storeAt program s events (k + 1))) :=
        fun hbefore =>
          let ⟨k, hk, hrest⟩ := hkept hbefore
          ⟨k, Nat.lt_succ_of_lt hk, hrest⟩
      have ha' := ha
      unfold View.Answered at ha'
      generalize hv' : viewAt program s events (n + 1) = v' at hmoved ha'
      generalize he : events[n] = e at hmoved
      cases hmoved with
      | drop hsame hdrop =>
          rcases hdrop c with hc | ⟨_, _, _, _, hc⟩
          · exact hearlier (hc.symm.trans ha')
          · rw [hc] at ha'
            cases ha'
      | @call d op' _ hnone =>
          rw [View.calls_set] at ha'
          split_ifs at ha' with hd
          · subst hd
            obtain ⟨rfl, hprogram⟩ : op' = op ∧ program op' = .done a := by simpa using ha'
            exact ⟨n, Nat.lt_succ_self n, ha, Or.inl ⟨hnone, hprogram⟩⟩
          · exact hearlier ha'
      | @advance d op' p q store' _ hp hatomic =>
          rw [View.calls_set] at ha'
          split_ifs at ha' with hd
          · subst hd
            cases ha'
            refine ⟨n, Nat.lt_succ_self n, ha, Or.inr ⟨p, (mine_iff hn).mpr he, hp, ?_⟩⟩
            unfold storeAt
            rw [hv']
            exact hatomic
          · exact hearlier ha'

theorem exists_pointOf (honce : AtOnceAgree program verdict spec)
    (hsteps : StepsAgree program s events verdict spec)
    (ha : (viewAt program s events events.length).Answered c op a) :
    ∃ k, PointOf program s events verdict spec c op a k := by
  obtain ⟨k, hk, hdone, hstep⟩ := ha.step (Nat.le_refl _)
  have hsame : ∀ n ≤ events.length, (viewAt program s events n).Answered c op a →
      (viewAt program s events k).calls c ≠ some (op, some (.done a)) → k + 1 ≤ n := by
    intro n hn hanswered hnot
    by_contra hlt
    exact hnot (hanswered.later (by omega) (Nat.le_of_lt hk))
  rcases hstep with ⟨hnone, hprogram⟩ | ⟨p, hmine, hp, hatomic⟩
  · -- nothing is ever done by a call that was answered when it was made
    have hidle : ¬ Writes program s events c := by
      rintro ⟨m, hm, hmine, hne⟩
      obtain ⟨d, op', p, q, hmine', hp, hatomic, hq⟩ := storeAt_changed hm hne
      obtain rfl : d = c := by
        have heq := hmine'.symm.trans hmine
        simpa using heq
      rcases Nat.lt_or_ge k m with hlt | hle
      · have hlater := hdone.later hlt (Nat.le_of_lt hm)
        rw [hlater] at hp
        cases hp
        cases hatomic
      · rw [calls_earlier hnone hle (Nat.le_of_lt hk)] at hp
        cases hp
    refine ⟨k + 1, ⟨k, Nat.lt_succ_self k, hnone, by rw [hdone]; simp⟩,
      fun n hn hanswered => hsame n hn hanswered (by rw [hnone]; simp),
      fun _ => honce op a hprogram _, fun h => absurd h hidle⟩
  · obtain ⟨i, hi, hnone, hmade, htrail⟩ := trail_of_calls (Nat.le_of_lt hk) hp
    have hnot : ¬ (viewAt program s events k).Answered c op a := by
      intro hanswered
      rw [hanswered] at hp
      cases hp
      cases hatomic
    -- a write of the call is its last step
    have hlast : Writes program s events c →
        storeAt program s events (k + 1) ≠ storeAt program s events k := by
      rintro ⟨m, hm, hmine', hne⟩
      obtain ⟨d, op', p', q, hmine'', hp', hatomic', hq⟩ := storeAt_changed hm hne
      obtain rfl : d = c := by
        have heq := hmine''.symm.trans hmine'
        simpa using heq
      obtain ⟨i', _, _, _, htrail'⟩ := trail_of_calls (Nat.le_of_lt hm) hp'
      obtain ⟨hsame, _⟩ | ⟨a', rfl, _⟩ :=
        hsteps d op' p' q (i' + 1) m hm hmine' hp' htrail' hatomic'
      · exact absurd hsame hne
      have hdone' : (viewAt program s events (m + 1)).Answered d op' a' := hq
      suffices m = k by rwa [this] at hne
      by_contra hmk
      rcases Nat.lt_or_gt_of_ne hmk with hlt | hgt
      · have hlater := hdone'.later hlt (Nat.le_of_lt hk)
        rw [hlater] at hp
        cases hp
        cases hatomic
      · have hlater := hdone.later hgt (Nat.le_of_lt hm)
        rw [hlater] at hp'
        cases hp'
        cases hatomic'
    obtain ⟨hkept, hreads⟩ | ⟨a', hanswer, hspec⟩ :=
      hsteps c op p _ (i + 1) k hk hmine hp htrail hatomic
    · obtain ⟨m, him, hmk, hspec⟩ := hreads a rfl
      refine ⟨m, ⟨i, him, hnone, hmade⟩, fun n hn hanswered => ?_, fun _ => hspec,
        fun h => absurd hkept (hlast h)⟩
      exact hmk.trans (Nat.le_of_succ_le (hsame n hn hanswered hnot))
    · cases hanswer
      refine ⟨k, ⟨i, hi, hnone, hmade⟩, fun n hn hanswered =>
        Nat.le_of_succ_le (hsame n hn hanswered hnot), fun hidle => ?_,
        fun _ => ⟨hmine, hk, hnot, hdone, hspec⟩⟩
      by_cases hkept : storeAt program s events (k + 1) = storeAt program s events k
      · rwa [hkept] at hspec
      · exact absurd ⟨k, hk, hmine, hkept⟩ hidle

theorem linearizable_of_agree (honce : AtOnceAgree program verdict spec)
    (hsteps : StepsAgree program s events verdict spec) :
    Linearizable spec s ((viewAt program s events events.length).history verdict)
      (Precedes program s events) := by
  classical
  have hpoint : ∀ c, ∃ k, ∀ op a, (viewAt program s events events.length).Answered c op a →
      PointOf program s events verdict spec c op a k := by
    intro c
    by_cases hdone : ∃ op a, (viewAt program s events events.length).Answered c op a
    · obtain ⟨op, a, ha⟩ := hdone
      obtain ⟨k, hk⟩ := exists_pointOf honce hsteps ha
      refine ⟨k, fun op' a' ha' => ?_⟩
      unfold View.Answered at ha ha'
      rw [ha] at ha'
      cases ha'
      exact hk
    · exact ⟨0, fun op a ha => absurd ⟨op, a, ha⟩ hdone⟩
  choose point hpoint using hpoint
  obtain ⟨N, hN⟩ : ∃ N, ∀ c, N ≤ c → (viewAt program s events events.length).calls c = none :=
    exists_bound (Nat.le_refl _)
  have hpoints : Points spec (storeAt program s events) events.length
      ((viewAt program s events events.length).history verdict) (Precedes program s events) point
      (Writes program s events) := by
    refine ⟨?_, ?_, ?_, ?_, ?_, ?_⟩
    · intro c hc
      obtain ⟨op, a, ha⟩ := View.history_isSome.mp hc
      exact (hpoint c op a ha).answered _ (Nat.le_refl _) ha
    · intro c op v hc hwrites
      obtain ⟨a, ha, rfl⟩ := View.history_eq_some.mp hc
      exact (hpoint c op a ha).reads hwrites
    · intro c op v hc hwrites
      obtain ⟨a, ha, rfl⟩ := View.history_eq_some.mp hc
      obtain ⟨_, hlt, _, _, hspec⟩ := (hpoint c op a ha).writes hwrites
      exact ⟨hlt, hspec⟩
    · intro c d hc hd hwc hwd heq
      obtain ⟨op, a, ha⟩ := View.history_isSome.mp hc
      obtain ⟨op', a', ha'⟩ := View.history_isSome.mp hd
      have hmine := ((hpoint c op a ha).writes hwc).1
      have hmine' := ((hpoint d op' a' ha').writes hwd).1
      rw [← heq] at hmine'
      have hsame := hmine.symm.trans hmine'
      simpa using hsame
    · intro k hk hidle
      by_contra hne
      obtain ⟨c, op, p, q, hmine, hp, hatomic, hq⟩ := storeAt_changed hk hne
      obtain ⟨i, hi, hnone, hmade, htrail⟩ := trail_of_calls (Nat.le_of_lt hk) hp
      obtain ⟨hsame, _⟩ | ⟨a, rfl, _⟩ := hsteps c op p q (i + 1) k hk hmine hp htrail hatomic
      · exact hne hsame
      have hdone : (viewAt program s events (k + 1)).Answered c op a := hq
      have hlast := hdone.later hk (Nat.le_refl _)
      have hwrites : Writes program s events c := ⟨k, hk, hmine, hne⟩
      refine hidle c (View.history_isSome.mpr ⟨op, a, hlast⟩) hwrites ?_
      obtain ⟨_, hlt, hnot, hthen, _⟩ := (hpoint c op a hlast).writes hwrites
      have hle := (hpoint c op a hlast).answered (k + 1) hk hdone
      -- the call is answered by the step at its point, and by the one that changes the store
      have hge : k ≤ point c := by
        by_contra hlt
        have hbefore := hthen.later (Nat.succ_le_of_lt (Nat.lt_of_not_le hlt)) (Nat.le_of_lt hk)
        rw [hbefore] at hp
        cases hp
        cases hatomic
      by_contra hpk
      exact hnot (hdone.later (by omega) (Nat.le_of_lt hlt))
    · rintro c d hc hd ⟨n, hn, ⟨op, a, ha⟩, hnone⟩
      have hlast := ha.later hn (Nat.le_refl _)
      obtain ⟨op', a', ha'⟩ := View.history_isSome.mp hd
      obtain ⟨i, hi, _, hmade⟩ := (hpoint d op' a' ha').made
      have hle := (hpoint c op a hlast).answered n hn ha
      have hin : n ≤ i := by
        by_contra hlt
        exact hmade (calls_earlier hnone (Nat.lt_of_not_le hlt) hn)
      omega
  have hids : ((List.range N).filter fun c =>
      ((viewAt program s events events.length).history verdict c).isSome).Nodup :=
    List.nodup_range.filter _
  refine hpoints.linearizable hids fun c => ?_
  simp only [List.mem_filter, List.mem_range]
  refine ⟨fun h => h.2, fun h => ⟨?_, h⟩⟩
  obtain ⟨op, a, ha⟩ := View.history_isSome.mp h
  by_contra hge
  unfold View.Answered at ha
  rw [hN c (Nat.le_of_not_lt hge)] at ha
  cases ha

end

end Albedo.Interleave
