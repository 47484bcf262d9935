import Mathlib.Order.Nat
import Mathlib.Data.Nat.Find
import Albedo.Library.Ensures
import Albedo.Library.History

/-!
# How a call goes on

A call that is answered in the end makes the next step of its program at some time before.
What holds at one time of a run and not at another begins, or ends, at a time in between.
-/
namespace Albedo.Interleave

/-! ### Times -/

section
variable {P : ℕ → Prop} {m n : ℕ}

theorem exists_since (hmn : m ≤ n) (hm : ¬ P m) (hn : P n) :
    ∃ i, m ≤ i ∧ i < n ∧ ¬ P i ∧ ∀ j, i < j → j ≤ n → P j := by
  induction n, hmn using Nat.le_induction with
  | base => exact absurd hn hm
  | succ n hmn ih =>
      by_cases hbefore : P n
      · obtain ⟨i, hmi, hin, hi, hafter⟩ := ih hbefore
        refine ⟨i, hmi, Nat.lt_succ_of_lt hin, hi, fun j hij hj => ?_⟩
        rcases Nat.le_succ_iff.mp hj with hle | rfl
        · exact hafter j hij hle
        · exact hn
      · refine ⟨n, hmn, Nat.lt_succ_self n, hbefore, fun j hij hj => ?_⟩
        obtain rfl : j = n + 1 := by omega
        exact hn

theorem exists_until (hmn : m ≤ n) (hm : P m) (hn : ¬ P n) :
    ∃ i, m ≤ i ∧ i < n ∧ (∀ j, m ≤ j → j ≤ i → P j) ∧ ¬ P (i + 1) := by
  classical
  have hlost : ∃ d, ¬ P (m + d) := ⟨n - m, by rwa [Nat.add_sub_cancel' hmn]⟩
  have hleast : ∀ d < Nat.find hlost, P (m + d) := fun d hd => not_not.mp (Nat.find_min hlost hd)
  have hpos : Nat.find hlost ≠ 0 := fun h => Nat.find_spec hlost (by rwa [h])
  have hle : Nat.find hlost ≤ n - m := Nat.find_min' hlost (by rwa [Nat.add_sub_cancel' hmn])
  obtain ⟨d, hd⟩ := Nat.exists_eq_succ_of_ne_zero hpos
  refine ⟨m + d, Nat.le_add_right m d, by omega, fun j hmj hj => ?_, ?_⟩
  · have hj' := hleast (j - m) (by omega)
    rwa [Nat.add_sub_cancel' hmj] at hj'
  · have hspec := Nat.find_spec hlost
    rwa [hd] at hspec

end

/-! ### Steps -/

section
variable {σ Op α : Type} {program : Op → Prog σ α} {s : σ} {events : List (Event Op)}
variable {m n k c d : ℕ} {op op' : Op} {p p' q q' : Prog σ α} {a : α}

variable (program s events) in
/-- A call runs a statement, which tells it `g`, and goes on with `q`. -/
def RunsTo {γ : Type} (k c : ℕ) (op : Op) (run : σ → Option (γ × σ)) (g : γ) (q : Prog σ α) : Prop :=
  ∃ next : γ → Prog σ α, Steps program s events k c op (.execute run next) q ∧ next g = q ∧
    run (storeAt program s events k) = some (g, storeAt program s events (k + 1))

/-- Where a call is at a later time: where it was, or past its next step, or given up. -/
theorem calls_later (hmn : m ≤ n) (hn : n ≤ events.length)
    (hq : (viewAt program s events m).calls c = some (op, some q)) :
    (viewAt program s events n).calls c = some (op, some q) ∨
      (viewAt program s events n).calls c = some (op, none) ∨
      ∃ k q', m ≤ k ∧ k < n ∧ Steps program s events k c op q q' ∧
        Atomic q (storeAt program s events k) q' (storeAt program s events (k + 1)) := by
  induction n, hmn using Nat.le_induction with
  | base => exact Or.inl hq
  | succ n hmn ih =>
      have hmoved := moved_at program s hn
      rcases ih (Nat.le_of_succ_le hn) with hsame | hnone | ⟨k, q', hmk, hkn, hstep⟩
      · generalize hv' : viewAt program s events (n + 1) = v' at hmoved
        generalize he : events[n] = e at hmoved
        cases hmoved with
        | drop _ hdrop =>
            rcases hdrop c with heq | ⟨op', p, hp, -, hnone⟩
            · exact Or.inl (heq.trans hsame)
            · rw [hsame] at hp
              cases hp
              exact Or.inr (Or.inl hnone)
        | @call d op' _ hnew =>
            rw [View.calls_set]
            split_ifs with hd
            · subst hd
              rw [hsame] at hnew
              cases hnew
            · exact Or.inl hsame
        | @advance d op' p q' s' _ hp hatomic =>
            rw [View.calls_set]
            split_ifs with hd
            · subst hd
              rw [hsame] at hp
              cases hp
              refine Or.inr (Or.inr ⟨n, q', hmn, Nat.lt_succ_self n, ⟨hn, (mine_iff hn).mpr he, hsame, ?_⟩, ?_⟩)
              · rw [hv', View.calls_set, if_pos rfl]
              · unfold storeAt
                rw [hv']
                exact hatomic
            · exact Or.inl hsame
      · generalize viewAt program s events (n + 1) = v' at hmoved
        generalize events[n] = e at hmoved
        refine Or.inr (Or.inl ?_)
        cases hmoved with
        | drop _ hdrop =>
            rcases hdrop c with heq | ⟨op', p, hp, -⟩
            · exact heq.trans hnone
            · rw [hnone] at hp
              cases hp
        | @call d op' _ hnew =>
            rw [View.calls_set]
            split_ifs with hd
            · subst hd
              rw [hnone] at hnew
              cases hnew
            · exact hnone
        | @advance d op' p q' s' _ hp hatomic =>
            rw [View.calls_set]
            split_ifs with hd
            · subst hd
              rw [hnone] at hp
              cases hp
            · exact hnone
      · exact Or.inr (Or.inr ⟨k, q', hmk, Nat.lt_succ_of_lt hkn, hstep⟩)

theorem exists_call {rest : Option (Prog σ α)} (hmn : m ≤ n) (hn : n ≤ events.length)
    (hnone : (viewAt program s events m).calls c = none)
    (hc : (viewAt program s events n).calls c = some (op, rest)) :
    ∃ i, m ≤ i ∧ i < n ∧ (viewAt program s events (i + 1)).calls c = some (op, some (program op)) := by
  induction n, hmn using Nat.le_induction generalizing rest with
  | base =>
      rw [hnone] at hc
      cases hc
  | succ n hmn ih =>
      have hmoved := moved_at program s hn
      have hearlier : ∀ rest', (viewAt program s events n).calls c = some (op, rest') → _ :=
        fun rest' => ih (Nat.le_of_succ_le hn)
      have hlast : ∀ rest', (viewAt program s events n).calls c = some (op, rest') →
          ∃ i, m ≤ i ∧ i < n + 1 ∧
            (viewAt program s events (i + 1)).calls c = some (op, some (program op)) := by
        intro rest' h
        obtain ⟨i, hmi, hin, hi⟩ := hearlier rest' h
        exact ⟨i, hmi, Nat.lt_succ_of_lt hin, hi⟩
      generalize hv' : viewAt program s events (n + 1) = v' at hmoved hc
      generalize events[n] = e at hmoved
      cases hmoved with
      | drop _ hdrop =>
          rcases hdrop c with hsame | ⟨op', p, hp, -, hgone⟩
          · exact hlast rest (hsame ▸ hc)
          · rw [hgone] at hc
            cases hc
            exact hlast _ hp
      | @call d op' _ hnew =>
          rw [View.calls_set] at hc
          split_ifs at hc with hd
          · cases hc
            refine ⟨n, hmn, Nat.lt_succ_self n, ?_⟩
            rw [hv', View.calls_set, if_pos hd]
          · exact hlast rest hc
      | @advance d op' p q s' _ hp _ =>
          rw [View.calls_set] at hc
          split_ifs at hc with hd
          · cases hc
            exact hlast _ (hd ▸ hp)
          · exact hlast rest hc

theorem calls_remain {rest : Option (Prog σ α)} (hmn : m ≤ n) (hn : n ≤ events.length)
    (hc : (viewAt program s events m).calls c = some (op, rest)) :
    ∃ rest', (viewAt program s events n).calls c = some (op, rest') := by
  induction n, hmn using Nat.le_induction with
  | base => exact ⟨rest, hc⟩
  | succ n hmn ih =>
      obtain ⟨rest', hbefore⟩ := ih (Nat.le_of_succ_le hn)
      have hmoved := moved_at program s hn
      generalize viewAt program s events (n + 1) = v' at hmoved
      generalize events[n] = e at hmoved
      cases hmoved with
      | drop _ hdrop =>
          rcases hdrop c with hsame | ⟨op', p, hp, -, hgone⟩
          · exact ⟨rest', hsame.trans hbefore⟩
          · rw [hbefore] at hp
            cases hp
            exact ⟨none, hgone⟩
      | @call d op' _ hnew =>
          rw [View.calls_set]
          split_ifs with hd
          · rw [← hd, hbefore] at hnew
            cases hnew
          · exact ⟨rest', hbefore⟩
      | @advance d op' p q s' _ hp _ =>
          rw [View.calls_set]
          split_ifs with hd
          · rw [← hd, hbefore] at hp
            cases hp
            exact ⟨some q, rfl⟩
          · exact ⟨rest', hbefore⟩

theorem trail_between (hmn : m ≤ n) (hn : n ≤ events.length)
    (hp : (viewAt program s events m).calls c = some (op, some p))
    (hq : (viewAt program s events n).calls c = some (op', some q)) :
    op' = op ∧ Trail (storeAt program s events) (Mine events c) m p n q := by
  induction n, hmn using Nat.le_induction generalizing q with
  | base =>
      rw [hp] at hq
      cases hq
      exact ⟨rfl, .refl (Nat.le_refl m)⟩
  | succ n hmn ih =>
      have hmoved := moved_at program s hn
      have hkept : (viewAt program s events n).calls c = some (op', some q) →
          op' = op ∧ Trail (storeAt program s events) (Mine events c) m p (n + 1) q := by
        intro hsame
        obtain ⟨hop, htrail⟩ := ih (Nat.le_of_succ_le hn) hsame
        exact ⟨hop, htrail.wait (Nat.le_succ n)⟩
      generalize hv' : viewAt program s events (n + 1) = v' at hmoved hq
      generalize he : events[n] = e at hmoved
      cases hmoved with
      | drop _ hdrop =>
          rcases hdrop c with hsame | ⟨_, _, _, _, hgone⟩
          · exact hkept (hsame ▸ hq)
          · rw [hgone] at hq
            cases hq
      | @call d op'' _ hnew =>
          rw [View.calls_set] at hq
          split_ifs at hq with hd
          · have hearlier := calls_earlier (hd ▸ hnew) hmn (Nat.le_of_succ_le hn)
            rw [hearlier] at hp
            cases hp
          · exact hkept hq
      | @advance d op'' p' q' s' _ hp' hatomic =>
          rw [View.calls_set] at hq
          split_ifs at hq with hd
          · subst hd
            cases hq
            obtain ⟨hop, htrail⟩ := ih (Nat.le_of_succ_le hn) hp'
            refine ⟨hop, htrail.snoc ((mine_iff hn).mpr he) ?_⟩
            unfold storeAt
            rw [hv']
            exact hatomic
          · exact hkept hq

theorem exists_step (hmn : m ≤ n) (hn : n ≤ events.length)
    (hq : (viewAt program s events m).calls c = some (op, some q)) (hne : ∀ a, q ≠ .done a)
    (hdone : (viewAt program s events n).calls c = some (op', some (.done a))) :
    ∃ k q', m ≤ k ∧ k < n ∧ Steps program s events k c op q q' ∧
      Atomic q (storeAt program s events k) q' (storeAt program s events (k + 1)) := by
  rcases calls_later hmn hn hq with hsame | hnone | hstep
  · rw [hsame] at hdone
    cases hdone
    exact absurd rfl (hne a)
  · rw [hnone] at hdone
    cases hdone
  · exact hstep

theorem exists_executes {γ : Type} {run : σ → Option (γ × σ)} {next : γ → Prog σ α} (hmn : m ≤ n)
    (hn : n ≤ events.length)
    (hq : (viewAt program s events m).calls c = some (op, some (.execute run next)))
    (hdone : (viewAt program s events n).calls c = some (op', some (.done a))) :
    ∃ k g, m ≤ k ∧ k < n ∧ Steps program s events k c op (.execute run next) (next g) ∧
      run (storeAt program s events k) = some (g, storeAt program s events (k + 1)) := by
  obtain ⟨k, q', hmk, hkn, hstep, hatomic⟩ := exists_step hmn hn hq (fun a => by simp) hdone
  cases hatomic with
  | @execute _ _ _ _ _ g hrun => exact ⟨k, g, hmk, hkn, hstep, hrun⟩

theorem exists_reads {γ : Type} {run : σ → γ} {next : γ → Prog σ α} (hmn : m ≤ n)
    (hn : n ≤ events.length)
    (hq : (viewAt program s events m).calls c = some (op, some (.read run next)))
    (hdone : (viewAt program s events n).calls c = some (op', some (.done a))) :
    ∃ k, m ≤ k ∧ k < n ∧ Steps program s events k c op (.read run next)
      (next (run (storeAt program s events k))) := by
  obtain ⟨k, q', hmk, hkn, hstep, hatomic⟩ := exists_step hmn hn hq (fun a => by simp) hdone
  obtain ⟨rfl, -⟩ := hatomic.of_read
  exact ⟨k, hmk, hkn, hstep⟩

end

end Albedo.Interleave
