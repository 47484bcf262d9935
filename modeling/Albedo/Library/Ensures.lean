import Albedo.Library.Interleave

/-!
# What calls ensure along a run

A fact about the times of a run holds throughout it when it holds at first, stays where the
store does, and is kept by every step a program can make at any later time. The steps of a
program are gone through once, in its own order (`Prog.Ensures`), knowing of each the store
it was made in, and programs in sequence one after the other (`Prog.ensures_bind`).
-/
namespace Albedo.Interleave

variable {σ Op α β γ δ : Type}

theorem Prog.bind_done (p : Prog σ α) : (p >>= Prog.done) = p := by
  induction p with
  | done a => rfl
  | read run next ih => exact congrArg (Prog.read run) (funext ih)
  | execute run next ih => exact congrArg (Prog.execute run) (funext ih)
  | transaction body next ih => exact congrArg (Prog.transaction body) (funext ih)

theorem Prog.bind_assoc (p : Prog σ α) (f : α → Prog σ β) (g : β → Prog σ γ) :
    ((p >>= f) >>= g) = (p >>= fun a => f a >>= g) := by
  induction p with
  | done a => rfl
  | read run next ih => exact congrArg (Prog.read run) (funext ih)
  | execute run next ih => exact congrArg (Prog.execute run) (funext ih)
  | transaction body next ih => exact congrArg (Prog.transaction body) (funext ih)

section
variable (program : Op → Prog σ δ) (s : σ) (events : List (Event Op))

structure Steps (k c : ℕ) (op : Op) (p q : Prog σ δ) : Prop where
  time : k < events.length
  mine : Mine events c k
  before : (viewAt program s events k).calls c = some (op, some p)
  after : (viewAt program s events (k + 1)).calls c = some (op, some q)

/-- A call runs a transaction, which tells it `b`. -/
def Commits (k c : ℕ) (op : Op) (body : Tx σ β) (b : β) : Prop :=
  ∃ next : β → Prog σ δ, Steps program s events k c op (.transaction body next) (next b) ∧
    body.run (storeAt program s events k) = some (b, storeAt program s events (k + 1))

/-- A call runs a statement, which tells it `g`. -/
def Executes (k c : ℕ) (op : Op) (run : σ → Option (γ × σ)) (g : γ) : Prop :=
  ∃ next : γ → Prog σ δ, Steps program s events k c op (.execute run next) (next g) ∧
    run (storeAt program s events k) = some (g, storeAt program s events (k + 1))

/-- A call reads `g`. -/
def Reads (k c : ℕ) (op : Op) (run : σ → γ) (g : γ) : Prop :=
  ∃ next : γ → Prog σ δ, Steps program s events k c op (.read run next) (next g) ∧
    run (storeAt program s events k) = g ∧
      storeAt program s events (k + 1) = storeAt program s events k

variable (J : ℕ → Prop) (c : ℕ) (op : Op)

/-- Every step the call makes of a program, before it goes on with `f`, keeps `J`, from some
time on; and what it answers then meets `Q`. -/
def Prog.Ensures (f : α → Prog σ δ) (Q : ℕ → α → Prop) : Prog σ α → ℕ → Prop
  | .done a, n => Q n a
  | .read run next, n => ∀ k, n ≤ k → J k →
      Steps program s events k c op (.read run next >>= f)
        (next (run (storeAt program s events k)) >>= f) →
      storeAt program s events (k + 1) = storeAt program s events k →
      J (k + 1) → (next (run (storeAt program s events k))).Ensures f Q (k + 1)
  | .execute run next, n => ∀ k g, n ≤ k → J k →
      Steps program s events k c op (.execute run next >>= f) (next g >>= f) →
      run (storeAt program s events k) = some (g, storeAt program s events (k + 1)) →
      J (k + 1) ∧ (next g).Ensures f Q (k + 1)
  | .transaction body next, n => ∀ k b, n ≤ k → J k →
      Steps program s events k c op (.transaction body next >>= f) (next b >>= f) →
      body.run (storeAt program s events k) = some (b, storeAt program s events (k + 1)) →
      J (k + 1) ∧ (next b).Ensures f Q (k + 1)

end

section
variable {program : Op → Prog σ δ} {s : σ} {events : List (Event Op)} {J : ℕ → Prop} {c : ℕ} {op : Op}
variable {f : α → Prog σ δ} {Q Q' : ℕ → α → Prop} {n m k : ℕ}

theorem Steps.commits {body : Tx σ γ} {next : γ → Prog σ α} {b : γ}
    (h : Steps program s events k c op (.transaction body next >>= f) (next b >>= f))
    (hrun : body.run (storeAt program s events k) = some (b, storeAt program s events (k + 1))) :
    Commits program s events k c op body b :=
  ⟨fun b => next b >>= f, h, hrun⟩

theorem Steps.executes {run : σ → Option (γ × σ)} {next : γ → Prog σ α} {g : γ}
    (h : Steps program s events k c op (.execute run next >>= f) (next g >>= f))
    (hrun : run (storeAt program s events k) = some (g, storeAt program s events (k + 1))) :
    Executes program s events k c op run g :=
  ⟨fun g => next g >>= f, h, hrun⟩

theorem Steps.reads {run : σ → γ} {next : γ → Prog σ α}
    (h : Steps program s events k c op (.read run next >>= f)
      (next (run (storeAt program s events k)) >>= f))
    (hsame : storeAt program s events (k + 1) = storeAt program s events k) :
    Reads program s events k c op run (run (storeAt program s events k)) :=
  ⟨fun g => next g >>= f, h, rfl, hsame⟩

theorem Commits.run {body : Tx σ γ} {b : γ} (h : Commits program s events k c op body b) :
    body.run (storeAt program s events k) = some (b, storeAt program s events (k + 1)) := by
  obtain ⟨_, -, hrun⟩ := h
  exact hrun

theorem Commits.lt {body : Tx σ γ} {b : γ} (h : Commits program s events k c op body b) :
    k < events.length := by
  obtain ⟨_, hstep, -⟩ := h
  exact hstep.time

theorem Executes.run {run : σ → Option (γ × σ)} {g : γ}
    (h : Executes program s events k c op run g) :
    run (storeAt program s events k) = some (g, storeAt program s events (k + 1)) := by
  obtain ⟨_, -, hrun⟩ := h
  exact hrun

theorem Executes.lt {run : σ → Option (γ × σ)} {g : γ}
    (h : Executes program s events k c op run g) : k < events.length := by
  obtain ⟨_, hstep, -⟩ := h
  exact hstep.time

theorem Prog.Ensures.later {p : Prog σ α} (hQ : ∀ a n m, n ≤ m → Q n a → Q m a) (hnm : n ≤ m)
    (h : p.Ensures program s events J c op f Q n) : p.Ensures program s events J c op f Q m := by
  cases p with
  | done a => exact hQ a n m hnm h
  | read run next => exact fun k hk => h k (Nat.le_trans hnm hk)
  | execute run next => exact fun k g hk => h k g (Nat.le_trans hnm hk)
  | transaction body next => exact fun k b hk => h k b (Nat.le_trans hnm hk)

theorem Prog.Ensures.imp {p : Prog σ α} (hQ : ∀ m a, n ≤ m → Q m a → Q' m a)
    (h : p.Ensures program s events J c op f Q n) : p.Ensures program s events J c op f Q' n := by
  induction p generalizing n with
  | done a => exact hQ n a (Nat.le_refl _) h
  | read run next ih =>
      intro k hnk hJ hstep hsame hJ'
      exact ih _ (fun m a hm => hQ m a (by omega)) (h k hnk hJ hstep hsame hJ')
  | execute run next ih =>
      intro k g hnk hJ hstep hrun
      obtain ⟨hJ', hrest⟩ := h k g hnk hJ hstep hrun
      exact ⟨hJ', ih _ (fun m a hm => hQ m a (by omega)) hrest⟩
  | transaction body next ih =>
      intro k b hnk hJ hstep hrun
      obtain ⟨hJ', hrest⟩ := h k b hnk hJ hstep hrun
      exact ⟨hJ', ih _ (fun m a hm => hQ m a (by omega)) hrest⟩

theorem Prog.ensures_bind {p : Prog σ β} {g : β → Prog σ α}
    (h : p.Ensures program s events J c op (fun b => g b >>= f)
      (fun m b => (g b).Ensures program s events J c op f Q m) n) :
    (p >>= g).Ensures program s events J c op f Q n := by
  induction p generalizing n with
  | done b => exact h
  | read run next ih =>
      intro k hnk hJ hstep hsame hJ'
      change Steps program s events k c op ((Prog.read run next >>= g) >>= f)
        ((next _ >>= g) >>= f) at hstep
      rw [Prog.bind_assoc, Prog.bind_assoc] at hstep
      exact ih _ (h k hnk hJ hstep hsame hJ')
  | execute run next ih =>
      intro k x hnk hJ hstep hrun
      change Steps program s events k c op ((Prog.execute run next >>= g) >>= f)
        ((next _ >>= g) >>= f) at hstep
      rw [Prog.bind_assoc, Prog.bind_assoc] at hstep
      obtain ⟨hJ', hrest⟩ := h k x hnk hJ hstep hrun
      exact ⟨hJ', ih _ hrest⟩
  | transaction body next ih =>
      intro k b hnk hJ hstep hrun
      change Steps program s events k c op ((Prog.transaction body next >>= g) >>= f)
        ((next _ >>= g) >>= f) at hstep
      rw [Prog.bind_assoc, Prog.bind_assoc] at hstep
      obtain ⟨hJ', hrest⟩ := h k b hnk hJ hstep hrun
      exact ⟨hJ', ih _ hrest⟩

theorem Prog.ensures_query {run : σ → β} {g : β → Prog σ α}
    (h : ∀ k, n ≤ k → J k → Reads program s events k c op run (run (storeAt program s events k)) →
      J (k + 1) → (g (run (storeAt program s events k))).Ensures program s events J c op f Q (k + 1)) :
    (Prog.query run >>= g).Ensures program s events J c op f Q n :=
  fun k hnk hJ hstep hsame hJ' => h k hnk hJ (hstep.reads hsame) hJ'

theorem Prog.ensures_statement {run : σ → Option (β × σ)} {g : β → Prog σ α}
    (h : ∀ k b, n ≤ k → J k → Executes program s events k c op run b →
      J (k + 1) ∧ (g b).Ensures program s events J c op f Q (k + 1)) :
    (Prog.statement run >>= g).Ensures program s events J c op f Q n :=
  fun k b hnk hJ hstep hrun => h k b hnk hJ (hstep.executes hrun)

theorem Prog.ensures_atomically {body : Tx σ β} {g : β → Prog σ α}
    (h : ∀ k b, n ≤ k → J k → Commits program s events k c op body b →
      J (k + 1) ∧ (g b).Ensures program s events J c op f Q (k + 1)) :
    (Prog.atomically body >>= g).Ensures program s events J c op f Q n :=
  fun k b hnk hJ hstep hrun => h k b hnk hJ (hstep.commits hrun)

theorem Prog.Guarantees.ensures {R : σ → σ → Prop} {p : Prog σ α} (h : p.Guarantees R)
    (hJ : ∀ k < events.length, J k →
      R (storeAt program s events k) (storeAt program s events (k + 1)) → J (k + 1))
    (n : ℕ) : p.Ensures program s events J c op f (fun _ _ => True) n := by
  induction p generalizing n with
  | done a => trivial
  | read run next ih =>
      intro k _ _ _ _ _
      exact ih _ (h _) _
  | execute run next ih =>
      intro k g _ hk hstep hrun
      obtain ⟨hR, hrest⟩ := h _ _ _ hrun
      exact ⟨hJ k hstep.time hk hR, ih _ hrest _⟩
  | transaction body next ih =>
      intro k b _ hk hstep hrun
      obtain ⟨hR, hrest⟩ := h _ _ _ hrun
      exact ⟨hJ k hstep.time hk hR, ih _ hrest _⟩

theorem run_ensures (hstart : J 0)
    (hidle : ∀ k < events.length, storeAt program s events (k + 1) = storeAt program s events k →
      J k → J (k + 1))
    (hprogram : ∀ c op n, (program op).Ensures program s events J c op .done (fun _ _ => True) n)
    (hn : n ≤ events.length) : J n := by
  have hboth : J n ∧ ∀ c op p, (viewAt program s events n).calls c = some (op, some p) →
      p.Ensures program s events J c op .done (fun _ _ => True) n := by
    induction n with
    | zero => exact ⟨hstart, fun c op p hp => by cases hp⟩
    | succ n ih =>
        obtain ⟨hJ, hcalls⟩ := ih (Nat.le_of_succ_le hn)
        have hlater : ∀ c op p, (viewAt program s events n).calls c = some (op, some p) →
            p.Ensures program s events J c op .done (fun _ _ => True) (n + 1) :=
          fun c op p hp => (hcalls c op p hp).later (fun _ _ _ _ _ => trivial) (Nat.le_succ n)
        have hmoved := moved_at program s hn
        generalize hv' : viewAt program s events (n + 1) = v' at hmoved
        generalize he : events[n] = e at hmoved
        cases hmoved with
        | drop hsame hdrop =>
            have hstore : storeAt program s events (n + 1) = storeAt program s events n := by
              unfold storeAt
              rw [hv', hsame]
            refine ⟨hidle n hn hstore hJ, fun c op p hp => ?_⟩
            rcases hdrop c with hc | ⟨_, _, _, _, hc⟩
            · exact hlater c op p (hc ▸ hp)
            · rw [hc] at hp
              cases hp
        | @call d op' _ hnone =>
            have hstore : storeAt program s events (n + 1) = storeAt program s events n := by
              unfold storeAt
              rw [hv']
              rfl
            refine ⟨hidle n hn hstore hJ, fun c op p hp => ?_⟩
            rw [View.calls_set] at hp
            split_ifs at hp with hd
            · cases hp
              exact hprogram _ _ _
            · exact hlater c op p hp
        | @advance d op' p' q store' _ hp' hatomic =>
            have hstore : store' = storeAt program s events (n + 1) := by
              unfold storeAt
              rw [hv']
              rfl
            have hstep : Steps program s events n d op' (p' >>= .done) (q >>= .done) := by
              rw [Prog.bind_done, Prog.bind_done]
              exact ⟨hn, (mine_iff hn).mpr he, hp', by rw [hv', View.calls_set, if_pos rfl]⟩
            have hnow := hcalls d op' p' hp'
            change Atomic p' (storeAt program s events n) q store' at hatomic
            have hdone : J (n + 1) ∧
                q.Ensures program s events J d op' .done (fun _ _ => True) (n + 1) := by
              cases hatomic with
              | read =>
                  have hJ' := hidle n hn hstore.symm hJ
                  exact ⟨hJ', hnow n (Nat.le_refl _) hJ hstep hstore.symm hJ'⟩
              | execute hrun => exact hnow n _ (Nat.le_refl _) hJ hstep (hstore ▸ hrun)
              | transaction hrun => exact hnow n _ (Nat.le_refl _) hJ hstep (hstore ▸ hrun)
            refine ⟨hdone.1, fun c op p hp => ?_⟩
            rw [View.calls_set] at hp
            split_ifs at hp with hd
            · cases hp
              exact hd ▸ hdone.2
            · exact hlater c op p hp
  exact hboth.1

end

end Albedo.Interleave
