import Mathlib.Logic.Function.Basic
import Mathlib.Data.List.Basic

/-!
# Calls that share a store

A call runs a program of reads, single statements and transactions over one store. Reads
see what is committed and take no lock; everything that writes takes the one write lock,
a transaction for as long as it lasts, and until it commits only it sees what it did. Any
number of calls run at once, one step of one call at a time, and a call may fail at any
point. What they do is what they would do if each transaction were a single step
(`World.moved_step`).
-/
namespace Albedo.Interleave

/-- The rest of a transaction, which ends by telling its caller a `β`. -/
inductive Tx (σ β : Type) : Type 1
  | commit (b : β)
  | rollback (b : β)
  | read {γ : Type} (run : σ → γ) (next : γ → Tx σ β)
  | execute {γ : Type} (run : σ → Option (γ × σ)) (next : γ → Tx σ β)

/-- The rest of a call, which answers an `α`. A statement without a result has failed, and
the call with it. -/
inductive Prog (σ α : Type) : Type 1
  | done (a : α)
  | read {γ : Type} (run : σ → γ) (next : γ → Prog σ α)
  | execute {γ : Type} (run : σ → Option (γ × σ)) (next : γ → Prog σ α)
  | transaction {β : Type} (body : Tx σ β) (next : β → Prog σ α)

variable {σ Op α β γ : Type}

/-- How a transaction that found `start` and has made it `working` ends. -/
def Tx.finish (start : σ) : Tx σ β → σ → Option (β × σ)
  | .commit b, working => some (b, working)
  | .rollback b, _ => some (b, start)
  | .read run next, working => (next (run working)).finish start working
  | .execute run next, working =>
      match run working with
      | some (c, working) => (next c).finish start working
      | none => none

def Tx.run (body : Tx σ β) (s : σ) : Option (β × σ) := body.finish s s

def Prog.run : Prog σ α → σ → Option (α × σ)
  | .done a, s => some (a, s)
  | .read run next, s => (next (run s)).run s
  | .execute run next, s =>
      match run s with
      | some (g, s) => (next g).run s
      | none => none
  | .transaction body next, s =>
      match body.run s with
      | some (b, s) => (next b).run s
      | none => none

/-! ### Programs in sequence -/

/-- One program, and then another that depends on its answer. -/
def Prog.bind : Prog σ α → (α → Prog σ β) → Prog σ β
  | .done a, f => f a
  | .read run next, f => .read run fun g => (next g).bind f
  | .execute run next, f => .execute run fun g => (next g).bind f
  | .transaction body next, f => .transaction body fun b => (next b).bind f

instance : Monad (Prog σ) where
  pure := .done
  bind := Prog.bind

def Prog.query (run : σ → γ) : Prog σ γ := .read run .done

def Prog.statement (run : σ → Option (γ × σ)) : Prog σ γ := .execute run .done

def Prog.atomically (body : Tx σ β) : Prog σ β := .transaction body .done

/-! ### The machine -/

/-- Where a call is: between its steps, inside a transaction, or at its end. -/
inductive Phase (σ α : Type) : Type 1
  | running (rest : Prog σ α)
  | inside {β : Type} (whole : Tx σ β) (working : σ) (rest : Tx σ β) (next : β → Prog σ α)
  | answered (a : α)
  | failed

structure Call (σ Op α : Type) : Type 1 where
  op : Op
  phase : Phase σ α

/-- The committed store, the call that holds the write lock, and every call made so far. -/
structure World (σ Op α : Type) : Type 1 where
  store : σ
  lock : Option ℕ
  calls : ℕ → Option (Call σ Op α)

/-- What happens next: a call is made, makes a step or fails, or all of them do. -/
inductive Event (Op : Type) where
  | call (c : ℕ) (op : Op)
  | advance (c : ℕ)
  | fail (c : ℕ)
  | crash

def World.start (s : σ) : World σ Op α := ⟨s, none, fun _ => none⟩

def Prog.phase : Prog σ α → Phase σ α
  | .done a => .answered a
  | p => .running p

/-- A failure ends a call that is still under way. -/
def Phase.fail : Phase σ α → Phase σ α
  | .answered a => .answered a
  | _ => .failed

def World.setPhase (w : World σ Op α) (c : ℕ) (op : Op) (phase : Phase σ α) : World σ Op α :=
  { w with calls := Function.update w.calls c (some ⟨op, phase⟩) }

def World.advanceRunning (w : World σ Op α) (c : ℕ) (op : Op) : Prog σ α → World σ Op α
  | .done _ => w
  | .read run next => w.setPhase c op (next (run w.store)).phase
  | .execute run next =>
      match w.lock with
      | some _ => w
      | none =>
          match run w.store with
          | some (g, s) => { w with store := s }.setPhase c op (next g).phase
          | none => w.setPhase c op .failed
  | .transaction body next =>
      match w.lock with
      | some _ => w
      | none => { w with lock := some c }.setPhase c op (.inside body w.store body next)

def World.advanceInside (w : World σ Op α) (c : ℕ) (op : Op) (whole : Tx σ β) (working : σ)
    (next : β → Prog σ α) : Tx σ β → World σ Op α
  | .commit b => { w with store := working, lock := none }.setPhase c op (next b).phase
  | .rollback b => { w with lock := none }.setPhase c op (next b).phase
  | .read run rest => w.setPhase c op (.inside whole working (rest (run working)) next)
  | .execute run rest =>
      match run working with
      | some (g, working) => w.setPhase c op (.inside whole working (rest g) next)
      | none => { w with lock := none }.setPhase c op .failed

def World.advance (w : World σ Op α) (c : ℕ) : World σ Op α :=
  match w.calls c with
  | some ⟨op, .running rest⟩ => w.advanceRunning c op rest
  | some ⟨op, .inside whole working rest next⟩ => w.advanceInside c op whole working next rest
  | _ => w

/-- A call fails; the transaction it is in, if any, is rolled back. -/
def World.fail (w : World σ Op α) (c : ℕ) : World σ Op α :=
  match w.calls c with
  | some ⟨op, .running _⟩ => w.setPhase c op .failed
  | some ⟨op, .inside _ _ _ _⟩ => { w with lock := none }.setPhase c op .failed
  | _ => w

def World.call (program : Op → Prog σ α) (w : World σ Op α) (c : ℕ) (op : Op) : World σ Op α :=
  match w.calls c with
  | none => w.setPhase c op (program op).phase
  | some _ => w

/-- The next state. What cannot happen changes nothing. -/
def World.step (program : Op → Prog σ α) (w : World σ Op α) : Event Op → World σ Op α
  | .call c op => w.call program c op
  | .advance c => w.advance c
  | .fail c => w.fail c
  | .crash =>
      { w with lock := none, calls := fun c => (w.calls c).map fun k => ⟨k.op, k.phase.fail⟩ }

def World.run (program : Op → Prog σ α) (w : World σ Op α) (events : List (Event Op)) :
    World σ Op α :=
  events.foldl (World.step program) w

def calls (c : ℕ) (op : Op) (steps : ℕ) : List (Event Op) :=
  .call c op :: List.replicate steps (.advance c)

/-! ### Transactions as single steps -/

inductive Atomic : Prog σ α → σ → Prog σ α → σ → Prop
  | read {γ : Type} {run : σ → γ} {next : γ → Prog σ α} {s : σ} :
      Atomic (.read run next) s (next (run s)) s
  | execute {γ : Type} {run : σ → Option (γ × σ)} {next : γ → Prog σ α} {s s' : σ} {g : γ} :
      run s = some (g, s') → Atomic (.execute run next) s (next g) s'
  | transaction {β : Type} {body : Tx σ β} {next : β → Prog σ α} {s s' : σ} {b : β} :
      body.run s = some (b, s') → Atomic (.transaction body next) s (next b) s'

/-- What a call still has to do, the transaction it is in included: nothing when it failed. -/
def Phase.rest : Phase σ α → Option (Prog σ α)
  | .running rest => some rest
  | .inside whole _ _ next => some (.transaction whole next)
  | .answered a => some (.done a)
  | .failed => none

structure View (σ Op α : Type) : Type 1 where
  store : σ
  calls : ℕ → Option (Op × Option (Prog σ α))

def World.view (w : World σ Op α) : View σ Op α :=
  ⟨w.store, fun c => (w.calls c).map fun k => (k.op, k.phase.rest)⟩

/-- A call goes on, and may change the store. -/
def View.set (v : View σ Op α) (s : σ) (c : ℕ) (op : Op) (rest : Option (Prog σ α)) : View σ Op α :=
  ⟨s, Function.update v.calls c (some (op, rest))⟩

theorem View.calls_set (v : View σ Op α) (s : σ) (c : ℕ) (op : Op) (rest : Option (Prog σ α))
    (d : ℕ) : (v.set s c op rest).calls d = if d = c then some (op, rest) else v.calls d :=
  Function.update_apply ..

/-- A call that was under way is not any more. -/
def View.Drops (v v' : View σ Op α) (c : ℕ) : Prop :=
  ∃ op p, v.calls c = some (op, some p) ∧ (∀ a, p ≠ .done a) ∧ v'.calls c = some (op, none)

/-- What one event does to a view: some calls fail, or a call is made, or makes one step. -/
inductive Moved (program : Op → Prog σ α) : Event Op → View σ Op α → View σ Op α → Prop
  | drop {e : Event Op} {v v' : View σ Op α} : v'.store = v.store →
      (∀ c, v'.calls c = v.calls c ∨ v.Drops v' c) → Moved program e v v'
  | call {c : ℕ} {op : Op} {v : View σ Op α} : v.calls c = none →
      Moved program (.call c op) v (v.set v.store c op (some (program op)))
  | advance {c : ℕ} {op : Op} {p q : Prog σ α} {s : σ} {v : View σ Op α} :
      v.calls c = some (op, some p) → Atomic p v.store q s →
      Moved program (.advance c) v (v.set s c op (some q))

/-- A call inside a transaction holds the lock, and its transaction will end as it would if it
ran at once. A call between its steps has one left to do. -/
def Phase.Held (lock : Option ℕ) (c : ℕ) (s : σ) : Phase σ α → Prop
  | .running rest => ∀ a, rest ≠ .done a
  | .inside whole working rest _ => lock = some c ∧ whole.run s = rest.finish s working
  | _ => True

def World.Coherent (w : World σ Op α) : Prop :=
  ∀ c k, w.calls c = some k → k.phase.Held w.lock c w.store

@[simp] theorem Prog.rest_phase (p : Prog σ α) : p.phase.rest = some p := by
  cases p <;> rfl

@[simp] theorem Prog.held_phase (p : Prog σ α) (lock : Option ℕ) (c : ℕ) (s : σ) :
    p.phase.Held lock c s := by
  cases p <;> simp [Prog.phase, Phase.Held]

theorem Phase.Held.of_ne {lock lock' : Option ℕ} {c : ℕ} {s s' : σ} {phase : Phase σ α}
    (h : phase.Held lock c s) (hlock : lock ≠ some c) : phase.Held lock' c s' := by
  cases phase with
  | inside => exact absurd h.1 hlock
  | running rest => exact h
  | _ => trivial

theorem World.view_setPhase (w : World σ Op α) (c : ℕ) (op : Op) (phase : Phase σ α) :
    (w.setPhase c op phase).view = w.view.set w.store c op phase.rest := by
  unfold World.setPhase World.view View.set
  congr 1
  funext d
  by_cases hd : d = c
  · subst hd
    simp
  · simp [hd]

theorem World.coherent_setPhase {w : World σ Op α} {c : ℕ} {op : Op} {phase : Phase σ α}
    (hothers : ∀ d k, d ≠ c → w.calls d = some k → k.phase.Held w.lock d w.store)
    (hphase : phase.Held w.lock c w.store) : (w.setPhase c op phase).Coherent := by
  intro d k hk
  by_cases hd : d = c
  · subst hd
    obtain rfl : k = ⟨op, phase⟩ := by simpa [World.setPhase, eq_comm] using hk
    exact hphase
  · exact hothers d k hd (by simpa [World.setPhase, hd] using hk)

/-- Where the call that moves has the lock, or nobody does, the others are outside. -/
theorem World.Coherent.others {w : World σ Op α} (h : w.Coherent) {c : ℕ}
    (hlock : w.lock = none ∨ w.lock = some c) (lock : Option ℕ) (s : σ) :
    ∀ d k, d ≠ c → w.calls d = some k → k.phase.Held lock d s := by
  intro d k hd hk
  refine (h d k hk).of_ne fun hheld => ?_
  rcases hlock with hnone | hc
  · rw [hnone] at hheld
    cases hheld
  · exact hd (Option.some.inj (hheld.symm.trans hc))

theorem World.view_calls {w : World σ Op α} {c : ℕ} {op : Op} {phase : Phase σ α}
    (h : w.calls c = some ⟨op, phase⟩) : w.view.calls c = some (op, phase.rest) := by
  simp [World.view, h]

theorem Moved.stutter {program : Op → Prog σ α} {e : Event Op} {v : View σ Op α} {c : ℕ} {op : Op}
    {p : Prog σ α} (h : v.calls c = some (op, some p)) :
    Moved program e v (v.set v.store c op (some p)) := by
  refine .drop rfl fun d => Or.inl ?_
  rw [View.calls_set]
  split_ifs with hd
  · rw [hd, h]
  · rfl

theorem Moved.fail {program : Op → Prog σ α} {e : Event Op} {v : View σ Op α} {c : ℕ} {op : Op}
    {p : Prog σ α} (h : v.calls c = some (op, some p)) (hp : ∀ a, p ≠ .done a) :
    Moved program e v (v.set v.store c op none) := by
  refine .drop rfl fun d => ?_
  by_cases hd : d = c
  · subst hd
    exact Or.inr ⟨op, p, h, hp, by rw [View.calls_set, if_pos rfl]⟩
  · exact Or.inl (by rw [View.calls_set, if_neg hd])

variable {program : Op → Prog σ α} {w : World σ Op α} {c : ℕ} {op : Op}

theorem World.advanceRunning_moved {rest : Prog σ α} (hw : w.Coherent)
    (hc : w.calls c = some ⟨op, .running rest⟩) : (w.advanceRunning c op rest).Coherent ∧
      Moved program (.advance c) w.view (w.advanceRunning c op rest).view := by
  have hview : w.view.calls c = some (op, some rest) := World.view_calls hc
  have hkeep : ∀ d k, d ≠ c → w.calls d = some k → k.phase.Held w.lock d w.store :=
    fun d k _ => hw d k
  have hwait : w.Coherent ∧ Moved program (.advance c) w.view w.view :=
    ⟨hw, .drop rfl fun _ => Or.inl rfl⟩
  cases rest with
  | done a => exact absurd rfl (hw c _ hc a)
  | read run next =>
      refine ⟨World.coherent_setPhase hkeep (Prog.held_phase ..), ?_⟩
      rw [World.advanceRunning, World.view_setPhase, Prog.rest_phase]
      exact .advance hview .read
  | execute run next =>
      unfold World.advanceRunning
      cases hlock : w.lock with
      | some d => exact hwait
      | none =>
          dsimp only
          cases hrun : run w.store with
          | none =>
              refine ⟨World.coherent_setPhase hkeep trivial, ?_⟩
              rw [World.view_setPhase]
              exact .fail hview (by simp)
          | some result =>
              refine ⟨World.coherent_setPhase (hw.others (Or.inl hlock) _ _)
                (Prog.held_phase ..), ?_⟩
              rw [World.view_setPhase, Prog.rest_phase]
              exact .advance hview (.execute hrun)
  | transaction body next =>
      unfold World.advanceRunning
      cases hlock : w.lock with
      | some d => exact hwait
      | none =>
          refine ⟨World.coherent_setPhase (hw.others (Or.inl hlock) _ _) ⟨rfl, rfl⟩, ?_⟩
          rw [World.view_setPhase]
          exact .stutter hview

theorem World.advanceInside_moved {whole rest : Tx σ β} {working : σ} {next : β → Prog σ α}
    (hw : w.Coherent) (hc : w.calls c = some ⟨op, .inside whole working rest next⟩) :
    (w.advanceInside c op whole working next rest).Coherent ∧
      Moved program (.advance c) w.view (w.advanceInside c op whole working next rest).view := by
  have hview : w.view.calls c = some (op, some (.transaction whole next)) := World.view_calls hc
  obtain ⟨hlock, hwhole⟩ := hw c _ hc
  have hothers := hw.others (Or.inr hlock)
  cases rest with
  | commit b =>
      refine ⟨World.coherent_setPhase (hothers _ _) (Prog.held_phase ..), ?_⟩
      rw [World.advanceInside, World.view_setPhase, Prog.rest_phase]
      exact .advance hview (.transaction hwhole)
  | rollback b =>
      refine ⟨World.coherent_setPhase (hothers _ _) (Prog.held_phase ..), ?_⟩
      rw [World.advanceInside, World.view_setPhase, Prog.rest_phase]
      exact .advance hview (.transaction hwhole)
  | read run rest =>
      refine ⟨World.coherent_setPhase (hothers _ _) ⟨hlock, hwhole⟩, ?_⟩
      rw [World.advanceInside, World.view_setPhase]
      exact .stutter hview
  | execute run rest =>
      unfold World.advanceInside
      dsimp only
      unfold Tx.finish at hwhole
      cases hrun : run working with
      | none =>
          refine ⟨World.coherent_setPhase (hothers _ _) trivial, ?_⟩
          rw [World.view_setPhase]
          exact .fail hview (by simp)
      | some result =>
          rw [hrun] at hwhole
          refine ⟨World.coherent_setPhase (hothers _ _) ⟨hlock, hwhole⟩, ?_⟩
          rw [World.view_setPhase]
          exact .stutter hview

/-- Every event does to the calls what it would if transactions were single steps. -/
theorem World.moved_step (hw : w.Coherent) (e : Event Op) : (w.step program e).Coherent ∧
    Moved program e w.view (w.step program e).view := by
  have hwait : w.Coherent ∧ Moved program e w.view w.view :=
    ⟨hw, .drop rfl fun _ => Or.inl rfl⟩
  cases e with
  | call c op =>
      change (w.call program c op).Coherent ∧ Moved program _ _ (w.call program c op).view
      unfold World.call
      cases hc : w.calls c with
      | some k => exact hwait
      | none =>
          refine ⟨World.coherent_setPhase (fun d k _ => hw d k) (Prog.held_phase ..), ?_⟩
          rw [World.view_setPhase, Prog.rest_phase]
          exact .call (by simp [World.view, hc])
  | advance c =>
      change (w.advance c).Coherent ∧ Moved program _ _ (w.advance c).view
      unfold World.advance
      split
      · rename_i hc
        exact World.advanceRunning_moved hw hc
      · rename_i hc
        exact World.advanceInside_moved hw hc
      · exact hwait
  | fail c =>
      change (w.fail c).Coherent ∧ Moved program _ _ (w.fail c).view
      unfold World.fail
      split
      · rename_i hc
        refine ⟨World.coherent_setPhase (fun d k _ => hw d k) trivial, ?_⟩
        rw [World.view_setPhase]
        exact .fail (World.view_calls hc) (hw c _ hc)
      · rename_i hc
        obtain ⟨hlock, _⟩ := hw c _ hc
        refine ⟨World.coherent_setPhase (hw.others (Or.inr hlock) _ _) trivial, ?_⟩
        rw [World.view_setPhase]
        exact .fail (World.view_calls hc) (by simp)
      · exact hwait
  | crash =>
      unfold World.step
      constructor
      · intro c k hk
        obtain ⟨k', _, rfl⟩ := Option.map_eq_some_iff.mp hk
        cases k'.phase <;> trivial
      · refine .drop rfl fun c => ?_
        cases hc : w.calls c with
        | none => exact Or.inl (by simp [World.view, hc])
        | some k =>
            obtain ⟨op, phase⟩ := k
            cases phase with
            | running rest => exact Or.inr ⟨op, rest, World.view_calls hc, hw c _ hc,
                by simp [World.view, hc, Phase.fail, Phase.rest]⟩
            | inside whole working rest next => exact Or.inr ⟨op, _, World.view_calls hc,
                by simp, by simp [World.view, hc, Phase.fail, Phase.rest]⟩
            | answered a => exact Or.inl (by simp [World.view, hc, Phase.fail])
            | failed => exact Or.inl (by simp [World.view, hc, Phase.fail])

/-! ### Runs -/

theorem World.coherent_start (s : σ) : (World.start s : World σ Op α).Coherent :=
  fun _ _ hk => by cases hk

theorem World.coherent_run (hw : w.Coherent) (events : List (Event Op)) :
    (w.run program events).Coherent := by
  induction events generalizing w with
  | nil => exact hw
  | cons e events ih =>
      have hstep : (w.step program e).Coherent := (w.moved_step hw e).1
      exact ih hstep

/-- What the calls still have to do after the first `n` events of a run. -/
def viewAt (program : Op → Prog σ α) (s : σ) (events : List (Event Op)) (n : ℕ) : View σ Op α :=
  ((World.start s).run program (events.take n)).view

theorem moved_at (program : Op → Prog σ α) (s : σ) {events : List (Event Op)} {n : ℕ}
    (hn : n < events.length) :
    Moved program events[n] (viewAt program s events n) (viewAt program s events (n + 1)) := by
  unfold viewAt World.run
  rw [← List.take_append_getElem hn, List.foldl_append]
  exact (World.moved_step (World.coherent_run (World.coherent_start s) (events.take n)) _).2

theorem viewAt_length (program : Op → Prog σ α) (s : σ) (events : List (Event Op)) :
    viewAt program s events events.length = ((World.start s).run program events).view := by
  unfold viewAt
  rw [List.take_length]

/-- What holds of the first view and of every view that a held one moves to holds throughout. -/
theorem viewAt_induction {s : σ} {events : List (Event Op)} {P : View σ Op α → Prop}
    (hstart : P (World.start s).view)
    (hmoved : ∀ e v v', Moved program e v v' → P v → P v') {n : ℕ} (hn : n ≤ events.length) :
    P (viewAt program s events n) := by
  induction n with
  | zero => exact hstart
  | succ n ih => exact hmoved _ _ _ (moved_at program s hn) (ih (Nat.le_of_succ_le hn))

/-! ### What every program guarantees -/

/-- Every step of a program is one of a relation between stores. -/
def Prog.Guarantees (R : σ → σ → Prop) : Prog σ α → Prop
  | .done _ => True
  | .read run next => ∀ s, (next (run s)).Guarantees R
  | .execute run next => ∀ s g s', run s = some (g, s') → R s s' ∧ (next g).Guarantees R
  | .transaction body next => ∀ s b s', body.run s = some (b, s') → R s s' ∧ (next b).Guarantees R

def View.Guarantees (R : σ → σ → Prop) (v : View σ Op α) : Prop :=
  ∀ c op p, v.calls c = some (op, some p) → p.Guarantees R

theorem Atomic.guarantees {R : σ → σ → Prop} (hrefl : ∀ s, R s s) {p q : Prog σ α} {s s' : σ}
    (h : Atomic p s q s') (hp : p.Guarantees R) : R s s' ∧ q.Guarantees R := by
  cases h with
  | read => exact ⟨hrefl s, hp s⟩
  | execute hrun => exact hp s _ s' hrun
  | transaction hrun => exact hp s _ s' hrun

theorem Moved.guarantees {R : σ → σ → Prop} (hrefl : ∀ s, R s s) {e : Event Op} {v v' : View σ Op α}
    (hprogram : ∀ op, (program op).Guarantees R) (h : Moved program e v v')
    (hv : v.Guarantees R) : R v.store v'.store ∧ v'.Guarantees R := by
  cases h with
  | drop hsame hdrop =>
      refine ⟨hsame ▸ hrefl _, fun c op p hp => ?_⟩
      rcases hdrop c with hc | ⟨_, _, _, _, hc⟩
      · exact hv c op p (hc ▸ hp)
      · rw [hc] at hp
        cases hp
  | @call c op _ hnone =>
      refine ⟨hrefl _, fun d op' p hp => ?_⟩
      rw [View.calls_set] at hp
      split_ifs at hp with hd
      · cases hp
        exact hprogram _
      · exact hv d op' p hp
  | @advance c op p q s _ hp hatomic =>
      obtain ⟨hstore, hq⟩ := hatomic.guarantees hrefl (hv c op p hp)
      refine ⟨hstore, fun d op' p' hp' => ?_⟩
      rw [View.calls_set] at hp'
      split_ifs at hp' with hd
      · cases hp'
        exact hq
      · exact hv d op' p' hp'

theorem Prog.Guarantees.imp {R R' : σ → σ → Prop} {p : Prog σ α}
    (h : p.Guarantees R) (hR : ∀ s s', R s s' → R' s s') : p.Guarantees R' := by
  induction p with
  | done a => trivial
  | read run next ih => exact fun s => ih _ (h s)
  | execute run next ih =>
      exact fun s g s' hrun => ⟨hR s s' (h s g s' hrun).1, ih g (h s g s' hrun).2⟩
  | transaction body next ih =>
      exact fun s b s' hrun => ⟨hR s s' (h s b s' hrun).1, ih b (h s b s' hrun).2⟩

theorem Prog.Guarantees.bind {R : σ → σ → Prop} {p : Prog σ α} {f : α → Prog σ β}
    (hp : p.Guarantees R) (hf : ∀ a, (f a).Guarantees R) : (p >>= f).Guarantees R := by
  induction p with
  | done a => exact hf a
  | read run next ih => exact fun s => ih _ (hp s)
  | execute run next ih => exact fun s g s' h => ⟨(hp s g s' h).1, ih g (hp s g s' h).2⟩
  | transaction body next ih => exact fun s b s' h => ⟨(hp s b s' h).1, ih b (hp s b s' h).2⟩

theorem Prog.guarantees_query {R : σ → σ → Prop} {run : σ → β} {g : β → Prog σ α}
    (h : ∀ s, (g (run s)).Guarantees R) : (Prog.query run >>= g).Guarantees R := h

/-! ### What one call does -/

/-- The steps a program makes between two times, each at one of its own. -/
inductive Trail (stores : ℕ → σ) (mine : ℕ → Prop) : ℕ → Prog σ α → ℕ → Prog σ α → Prop
  | refl {i j : ℕ} {p : Prog σ α} : i ≤ j → Trail stores mine i p j p
  | step {i j k : ℕ} {p q r : Prog σ α} : i ≤ k → mine k →
      Atomic p (stores k) q (stores (k + 1)) → Trail stores mine (k + 1) q j r →
      Trail stores mine i p j r

theorem Trail.le {stores : ℕ → σ} {mine : ℕ → Prop} {i j : ℕ} {p q : Prog σ α}
    (h : Trail stores mine i p j q) : i ≤ j := by
  induction h with
  | refl hij => exact hij
  | step hik _ _ _ ih => omega

theorem Trail.wait {stores : ℕ → σ} {mine : ℕ → Prop} {i j k : ℕ} {p q : Prog σ α}
    (h : Trail stores mine i p j q) (hjk : j ≤ k) : Trail stores mine i p k q := by
  induction h with
  | refl hij => exact .refl (Nat.le_trans hij hjk)
  | step hik hmine hatomic _ ih => exact .step hik hmine hatomic (ih hjk)

theorem Trail.snoc {stores : ℕ → σ} {mine : ℕ → Prop} {i k : ℕ} {p q r : Prog σ α}
    (h : Trail stores mine i p k q) (hmine : mine k)
    (hatomic : Atomic q (stores k) r (stores (k + 1))) : Trail stores mine i p (k + 1) r := by
  induction h with
  | refl hij => exact .step hij hmine hatomic (.refl (Nat.le_refl _))
  | step hik hm ha _ ih => exact .step hik hm ha (ih hmine hatomic)

theorem Atomic.of_read {run : σ → γ} {next : γ → Prog σ α} {q : Prog σ α} {s s' : σ}
    (h : Atomic (.read run next) s q s') : q = next (run s) ∧ s' = s := by
  cases h
  exact ⟨rfl, rfl⟩

theorem Trail.done {stores : ℕ → σ} {mine : ℕ → Prop} {i j : ℕ} {a : α} {q : Prog σ α}
    (h : Trail stores mine i (.done a) j q) : q = .done a := by
  cases h with
  | refl _ => rfl
  | step _ _ hatomic _ => cases hatomic

theorem Trail.read {stores : ℕ → σ} {mine : ℕ → Prop} {i j : ℕ} {run : σ → γ}
    {next : γ → Prog σ α} {q : Prog σ α} (h : Trail stores mine i (.read run next) j q) :
    q = .read run next ∨ ∃ k, i ≤ k ∧ k < j ∧ mine k ∧
      Trail stores mine (k + 1) (next (run (stores k))) j q := by
  cases h with
  | refl _ => exact Or.inl rfl
  | step hik hmine hatomic hrest =>
      obtain ⟨rfl, -⟩ := hatomic.of_read
      exact Or.inr ⟨_, hik, hrest.le, hmine, hrest⟩

theorem Trail.execute {stores : ℕ → σ} {mine : ℕ → Prop} {i j : ℕ} {run : σ → Option (γ × σ)}
    {next : γ → Prog σ α} {q : Prog σ α} (h : Trail stores mine i (.execute run next) j q) :
    q = .execute run next ∨ ∃ k g, i ≤ k ∧ k < j ∧ mine k ∧
      run (stores k) = some (g, stores (k + 1)) ∧ Trail stores mine (k + 1) (next g) j q := by
  cases h with
  | refl _ => exact Or.inl rfl
  | step hik hmine hatomic hrest =>
      cases hatomic with
      | execute hrun => exact Or.inr ⟨_, _, hik, hrest.le, hmine, hrun, hrest⟩

theorem Trail.transaction {stores : ℕ → σ} {mine : ℕ → Prop} {i j : ℕ} {body : Tx σ β}
    {next : β → Prog σ α} {q : Prog σ α} (h : Trail stores mine i (.transaction body next) j q) :
    q = .transaction body next ∨ ∃ k b, i ≤ k ∧ k < j ∧ mine k ∧
      body.run (stores k) = some (b, stores (k + 1)) ∧ Trail stores mine (k + 1) (next b) j q := by
  cases h with
  | refl _ => exact Or.inl rfl
  | step hik hmine hatomic hrest =>
      cases hatomic with
      | transaction hrun => exact Or.inr ⟨_, _, hik, hrest.le, hmine, hrun, hrest⟩

theorem Trail.guarantees {R : σ → σ → Prop} (hrefl : ∀ s, R s s) {stores : ℕ → σ} {mine : ℕ → Prop}
    {i j : ℕ} {p q : Prog σ α} (h : Trail stores mine i p j q) (hp : p.Guarantees R) :
    q.Guarantees R := by
  induction h with
  | refl _ => exact hp
  | step _ _ hatomic _ ih => exact ih (hatomic.guarantees hrefl hp).2

theorem Atomic.bind {p : Prog σ α} {f : α → Prog σ β} {r : Prog σ β} {s s' : σ}
    (h : Atomic (p >>= f) s r s') :
    (∃ q, Atomic p s q s' ∧ r = q >>= f) ∨ ∃ a, p = .done a ∧ Atomic (f a) s r s' := by
  cases p with
  | done a => exact Or.inr ⟨a, rfl, h⟩
  | read run next =>
      cases h
      exact Or.inl ⟨_, .read, rfl⟩
  | execute run next =>
      cases h with
      | execute hrun => exact Or.inl ⟨_, .execute hrun, rfl⟩
  | transaction body next =>
      cases h with
      | transaction hrun => exact Or.inl ⟨_, .transaction hrun, rfl⟩

/-- Two programs in sequence make the steps of the first, and then those of the second. -/
theorem Trail.bind {stores : ℕ → σ} {mine : ℕ → Prop} {i j : ℕ} {p : Prog σ α}
    {f : α → Prog σ β} {r : Prog σ β} (h : Trail stores mine i (p >>= f) j r) :
    (∃ q, Trail stores mine i p j q ∧ r = q >>= f) ∨
      ∃ k a, Trail stores mine i p k (.done a) ∧ Trail stores mine k (f a) j r := by
  generalize hp : (p >>= f) = start at h
  induction h generalizing p with
  | refl hij => exact Or.inl ⟨p, .refl hij, hp.symm⟩
  | @step i j k start q r hik hmine hatomic hrest ih =>
      subst hp
      rcases hatomic.bind with ⟨q', hq, rfl⟩ | ⟨a, rfl, hfirst⟩
      · rcases ih rfl with ⟨r', htrail, rfl⟩ | ⟨m, a, htrail, hdone⟩
        · exact Or.inl ⟨r', .step hik hmine hq htrail, rfl⟩
        · exact Or.inr ⟨m, a, .step hik hmine hq htrail, hdone⟩
      · exact Or.inr ⟨i, a, .refl (Nat.le_refl i), .step hik hmine hfirst hrest⟩

section
variable {s : σ} {events : List (Event Op)} {n : ℕ} {p : Prog σ α}

variable (program s events) in
/-- The store after the first `n` events of a run. -/
def storeAt (n : ℕ) : σ := (viewAt program s events n).store

variable (events) in
def Mine (c n : ℕ) : Prop := events[n]? = some (.advance c)

def Event.mover : Event Op → Option ℕ
  | .advance c => some c
  | _ => none

theorem Mine.mover (h : Mine events c n) : events[n]?.bind Event.mover = some c := by
  rw [h]
  rfl

theorem guarantees_at {R : σ → σ → Prop} (hrefl : ∀ s, R s s)
    (hprogram : ∀ op, (program op).Guarantees R) (hn : n ≤ events.length) :
    (viewAt program s events n).Guarantees R :=
  viewAt_induction (fun _ _ _ hp => by cases hp)
    (fun _ _ _ h hv => (h.guarantees hrefl hprogram hv).2) hn

theorem run_guarantees {R : σ → σ → Prop} (hrefl : ∀ s, R s s)
    (htrans : ∀ a b c, R a b → R b c → R a c) (hprogram : ∀ op, (program op).Guarantees R)
    {m : ℕ} (hmn : m ≤ n) (hn : n ≤ events.length) :
    R (storeAt program s events m) (storeAt program s events n) := by
  induction n with
  | zero =>
      obtain rfl := Nat.le_zero.mp hmn
      exact hrefl _
  | succ n ih =>
      rcases Nat.lt_or_ge n m with hlt | hle
      · obtain rfl : m = n + 1 := by omega
        exact hrefl _
      · have hstep := (moved_at program s hn).guarantees hrefl hprogram
          (guarantees_at hrefl hprogram (Nat.le_of_succ_le hn))
        exact htrans _ _ _ (ih hle (Nat.le_of_succ_le hn)) hstep.1

theorem run_keeps {I : σ → Prop} (hprogram : ∀ op, (program op).Guarantees fun s s' => I s → I s')
    (hs : I s) (hn : n ≤ events.length) : I (storeAt program s events n) :=
  run_guarantees (fun _ h => h) (fun _ _ _ hab hbc ha => hbc (hab ha)) hprogram (Nat.zero_le n) hn hs

theorem mine_iff (hn : n < events.length) : Mine events c n ↔ events[n] = .advance c := by
  unfold Mine
  rw [List.getElem?_eq_getElem hn, Option.some_inj]

theorem trail_of_calls (hn : n ≤ events.length)
    (hp : (viewAt program s events n).calls c = some (op, some p)) :
    ∃ i < n, (viewAt program s events i).calls c = none ∧
      (viewAt program s events (i + 1)).calls c ≠ none ∧
      Trail (storeAt program s events) (Mine events c) (i + 1) (program op) n p := by
  induction n generalizing p with
  | zero => cases hp
  | succ n ih =>
      have hlt : n < events.length := hn
      have hmoved := moved_at program s hlt
      have hkept : (viewAt program s events n).calls c = some (op, some p) →
          ∃ i < n + 1, (viewAt program s events i).calls c = none ∧
            (viewAt program s events (i + 1)).calls c ≠ none ∧
            Trail (storeAt program s events) (Mine events c) (i + 1) (program op) (n + 1) p := by
        intro hsame
        obtain ⟨i, hi, hnone, hmade, htrail⟩ := ih (Nat.le_of_lt hlt) hsame
        exact ⟨i, by omega, hnone, hmade, htrail.wait (Nat.le_succ n)⟩
      generalize hv' : viewAt program s events (n + 1) = v' at hmoved hp
      generalize he : events[n] = e at hmoved
      cases hmoved with
      | drop hsame hdrop =>
          rcases hdrop c with hc | ⟨_, _, _, _, hc⟩
          · exact hkept (hc ▸ hp)
          · rw [hc] at hp
            cases hp
      | @call d op' _ hnone =>
          rw [View.calls_set] at hp
          split_ifs at hp with hd
          · cases hp
            refine ⟨n, Nat.lt_succ_self n, hd ▸ hnone, ?_, .refl (Nat.le_refl _)⟩
            rw [hv', View.calls_set, if_pos hd]
            simp
          · exact hkept hp
      | @advance d op' p' q store' _ hp' hatomic =>
          rw [View.calls_set] at hp
          split_ifs at hp with hd
          · subst hd
            cases hp
            obtain ⟨i, hi, hnone, hmade, htrail⟩ := ih (Nat.le_of_lt hlt) hp'
            refine ⟨i, by omega, hnone, hmade, htrail.snoc ((mine_iff hlt).mpr he) ?_⟩
            unfold storeAt
            rw [hv']
            exact hatomic
          · exact hkept hp

end

end Albedo.Interleave
