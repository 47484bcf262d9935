import Albedo.Library.History

/-!
# Values drawn by calls

A call may put a value of its own into the store, by one step. When no two calls draw the
same value, one that has ever been in the store is not put there again.
-/
namespace Albedo.Interleave

variable {σ Op α β ν : Type}

/-- One step of a program may be outside a relation, and none after it. -/
def Prog.Once (R : σ → σ → Prop) : Prog σ α → Prop
  | .done _ => True
  | .read run next => ∀ s, (next (run s)).Once R
  | .execute run next => ∀ s g s', run s = some (g, s') →
      R s s' ∧ (next g).Once R ∨ (next g).Guarantees R
  | .transaction body next => ∀ s b s', body.run s = some (b, s') →
      R s s' ∧ (next b).Once R ∨ (next b).Guarantees R

section
variable {R : σ → σ → Prop} {p q : Prog σ α} {s s' : σ}

theorem Prog.Guarantees.once (h : p.Guarantees R) : p.Once R := by
  induction p with
  | done a => trivial
  | read run next ih => exact fun s => ih _ (h s)
  | execute run next ih => exact fun s g s' hrun => Or.inr (h s g s' hrun).2
  | transaction body next ih => exact fun s b s' hrun => Or.inr (h s b s' hrun).2

theorem Prog.Guarantees.bind_once {f : α → Prog σ β} (h : p.Guarantees R) (hf : ∀ a, (f a).Once R) :
    (p >>= f).Once R := by
  induction p with
  | done a => exact hf a
  | read run next ih => exact fun s => ih _ (h s)
  | execute run next ih => exact fun s g s' hrun => Or.inl ⟨(h s g s' hrun).1, ih g (h s g s' hrun).2⟩
  | transaction body next ih =>
      exact fun s b s' hrun => Or.inl ⟨(h s b s' hrun).1, ih b (h s b s' hrun).2⟩

theorem Prog.Once.bind {f : α → Prog σ β} (h : p.Once R) (hf : ∀ a, (f a).Guarantees R) :
    (p >>= f).Once R := by
  induction p with
  | done a => exact (hf a).once
  | read run next ih => exact fun s => ih _ (h s)
  | execute run next ih =>
      intro s g s' hrun
      rcases h s g s' hrun with ⟨hR, hrest⟩ | hrest
      · exact Or.inl ⟨hR, ih g hrest⟩
      · exact Or.inr (hrest.bind hf)
  | transaction body next ih =>
      intro s b s' hrun
      rcases h s b s' hrun with ⟨hR, hrest⟩ | hrest
      · exact Or.inl ⟨hR, ih b hrest⟩
      · exact Or.inr (hrest.bind hf)

theorem Prog.once_query {γ : Type} {run : σ → γ} {g : γ → Prog σ α} (h : ∀ s, (g (run s)).Once R) :
    (Prog.query run >>= g).Once R := h

theorem Prog.once_atomically {γ : Type} {body : Tx σ γ} {g : γ → Prog σ α}
    (h : ∀ b, (g b).Guarantees R) : (Prog.atomically body >>= g).Once R :=
  fun _ b _ _ => Or.inr (h b)

theorem Atomic.once (hrefl : ∀ s, R s s) (h : Atomic p s q s') (hp : p.Once R) :
    R s s' ∧ q.Once R ∨ q.Guarantees R := by
  cases h with
  | read => exact Or.inl ⟨hrefl s, hp s⟩
  | execute hrun => exact hp s _ s' hrun
  | transaction hrun => exact hp s _ s' hrun

end

section
variable (program : Op → Prog σ α) (s : σ) (events : List (Event Op))

/-- How the calls of a run draw their values: which one a call may put into the store, and when
a value is there. -/
structure Draws (R : ν → σ → σ → Prop) (own : Op → Option ν) (present : σ → ν → Prop) : Prop where
  refl : ∀ x s, R x s s
  absent : ∀ x s s', R x s s' → present s' x → present s x
  start : ∀ x, ¬ present s x
  others : ∀ op x, own op ≠ some x → (program op).Guarantees (R x)
  once : ∀ op x, own op = some x → (program op).Once (R x)
  distinct : ∀ c d op op' x, .call c op ∈ events → .call d op' ∈ events →
    own op = some x → own op' = some x → c = d

variable {program s events} {R : ν → σ → σ → Prop} {own : Op → Option ν} {present : σ → ν → Prop}

/-- After some events: the call that draws a value may put it there, and no other; and once the
value has been there, no call may. -/
structure Settled (program : Op → Prog σ α) (s : σ) (events : List (Event Op))
    (R : ν → σ → σ → Prop) (own : Op → Option ν) (present : σ → ν → Prop) (x : ν) (n : ℕ) : Prop where
  others : ∀ c op p, (viewAt program s events n).calls c = some (op, some p) → own op ≠ some x →
    p.Guarantees (R x)
  once : ∀ c op p, (viewAt program s events n).calls c = some (op, some p) → own op = some x →
    p.Once (R x)
  drawn : (∃ m ≤ n, present (storeAt program s events m) x) →
    (∃ c op rest, (viewAt program s events n).calls c = some (op, rest) ∧ own op = some x) ∧
      ∀ c op p, (viewAt program s events n).calls c = some (op, some p) → p.Guarantees (R x)

theorem Draws.still (h : Draws program s events R own present) {x : ν} {n : ℕ}
    (hR : R x (storeAt program s events n) (storeAt program s events (n + 1)))
    (hm : ∃ m ≤ n + 1, present (storeAt program s events m) x) :
    ∃ m ≤ n, present (storeAt program s events m) x := by
  obtain ⟨m, hm, hpresent⟩ := hm
  rcases Nat.le_succ_iff.mp hm with hle | rfl
  · exact ⟨m, hle, hpresent⟩
  · exact ⟨n, Nat.le_refl n, h.absent x _ _ hR hpresent⟩

theorem Draws.settled (h : Draws program s events R own present) (x : ν) {n : ℕ}
    (hn : n ≤ events.length) : Settled program s events R own present x n := by
  induction n with
  | zero =>
      refine ⟨fun c op p hp => (by cases hp), fun c op p hp => (by cases hp), ?_⟩
      rintro ⟨m, hm, hpresent⟩
      obtain rfl := Nat.le_zero.mp hm
      exact absurd hpresent (h.start x)
  | succ n ih =>
      have hsettled := ih (Nat.le_of_succ_le hn)
      have hmoved := moved_at program s hn
      generalize hv' : viewAt program s events (n + 1) = v' at hmoved
      generalize he : events[n] = e at hmoved
      cases hmoved with
      | drop hsame hdrop =>
          have hstore : storeAt program s events (n + 1) = storeAt program s events n := by
            unfold storeAt
            rw [hv', hsame]
          have hcalls : ∀ c op p, v'.calls c = some (op, some p) →
              (viewAt program s events n).calls c = some (op, some p) := by
            intro c op p hp
            rcases hdrop c with hc | ⟨_, _, _, _, hc⟩
            · rw [← hc, hp]
            · rw [hc] at hp
              cases hp
          refine ⟨fun c op p hp => hsettled.others c op p (hcalls c op p (hv' ▸ hp)),
            fun c op p hp => hsettled.once c op p (hcalls c op p (hv' ▸ hp)), fun hm => ?_⟩
          obtain ⟨⟨c, op, rest, hc, hown⟩, hall⟩ :=
            hsettled.drawn (h.still (hstore ▸ h.refl x _) hm)
          refine ⟨?_, fun c op p hp => hall c op p (hcalls c op p (hv' ▸ hp))⟩
          rw [hv']
          rcases hdrop c with hsame' | ⟨op', p, hp, -, hnone⟩
          · exact ⟨c, op, rest, hsame' ▸ hc, hown⟩
          · obtain ⟨rfl, -⟩ := Prod.mk.inj (Option.some.inj (hp.symm.trans hc))
            exact ⟨c, op', none, hnone, hown⟩
      | @call d op' _ hnone =>
          have hstore : storeAt program s events (n + 1) = storeAt program s events n := by
            unfold storeAt
            rw [hv']
            rfl
          have hmade : Event.call d op' ∈ events := he ▸ List.getElem_mem hn
          refine ⟨fun c op p hp hown => ?_, fun c op p hp hown => ?_, fun hm => ?_⟩
          · rw [hv', View.calls_set] at hp
            split_ifs at hp
            · cases hp
              exact h.others _ _ hown
            · exact hsettled.others c op p hp hown
          · rw [hv', View.calls_set] at hp
            split_ifs at hp
            · cases hp
              exact h.once _ _ hown
            · exact hsettled.once c op p hp hown
          · obtain ⟨⟨c, op, rest, hc, hown⟩, hall⟩ :=
              hsettled.drawn (h.still (hstore ▸ h.refl x _) hm)
            have hcd : c ≠ d := by
              rintro rfl
              rw [hnone] at hc
              cases hc
            refine ⟨⟨c, op, rest, by rw [hv', View.calls_set, if_neg hcd, hc], hown⟩, ?_⟩
            intro c' op'' p hp
            rw [hv', View.calls_set] at hp
            split_ifs at hp
            · cases hp
              refine h.others _ _ fun hown' => hcd ?_
              exact h.distinct c d op _ x (call_mem (Nat.le_of_succ_le hn) hc) hmade hown hown'
            · exact hall c' op'' p hp
      | @advance d op' p' q s' _ hp' hatomic =>
          have hstore : s' = storeAt program s events (n + 1) := by
            unfold storeAt
            rw [hv']
            rfl
          rw [hstore] at hatomic
          change Atomic p' (storeAt program s events n) q _ at hatomic
          have hothers : own op' ≠ some x →
              R x (storeAt program s events n) (storeAt program s events (n + 1)) ∧
                q.Guarantees (R x) :=
            fun hown => hatomic.guarantees (h.refl x) (hsettled.others d op' p' hp' hown)
          refine ⟨fun c op p hp hown => ?_, fun c op p hp hown => ?_, fun hm => ?_⟩
          · rw [hv', View.calls_set] at hp
            split_ifs at hp
            · cases hp
              exact (hothers hown).2
            · exact hsettled.others c op p hp hown
          · rw [hv', View.calls_set] at hp
            split_ifs at hp
            · cases hp
              rcases hatomic.once (h.refl x) (hsettled.once d _ p' hp' hown) with ⟨-, honce⟩ | hrest
              · exact honce
              · exact hrest.once
            · exact hsettled.once c op p hp hown
          · by_cases hbefore : ∃ m ≤ n, present (storeAt program s events m) x
            · obtain ⟨⟨c, op, rest, hc, hown⟩, hall⟩ := hsettled.drawn hbefore
              constructor
              · by_cases hcd : c = d
                · subst hcd
                  rw [hp'] at hc
                  cases hc
                  exact ⟨c, op', some q, by rw [hv', View.calls_set, if_pos rfl], hown⟩
                · exact ⟨c, op, rest, by rw [hv', View.calls_set, if_neg hcd, hc], hown⟩
              · intro c' op'' p hp
                rw [hv', View.calls_set] at hp
                split_ifs at hp
                · cases hp
                  exact (hatomic.guarantees (h.refl x) (hall d _ p' hp')).2
                · exact hall c' op'' p hp
            · -- the value is there since this step: its call puts nothing there after it
              have hown : own op' = some x := by
                by_contra hown
                exact hbefore (h.still (hothers hown).1 hm)
              have hrest : q.Guarantees (R x) := by
                rcases hatomic.once (h.refl x) (hsettled.once d op' p' hp' hown) with ⟨hR, -⟩ | hrest
                · exact absurd (h.still hR hm) hbefore
                · exact hrest
              refine ⟨⟨d, op', some q, by rw [hv', View.calls_set, if_pos rfl], hown⟩, ?_⟩
              intro c' op'' p hp
              rw [hv', View.calls_set] at hp
              split_ifs at hp with hcd
              · cases hp
                exact hrest
              · refine hsettled.others c' op'' p hp fun hown' => hcd ?_
                exact h.distinct c' d op'' op' x (call_mem (Nat.le_of_succ_le hn) hp)
                  (call_mem (Nat.le_of_succ_le hn) hp') hown' hown

/-- Once a value has been there, a call that has yet to make its steps does not put it there. -/
theorem Draws.guarantees (h : Draws program s events R own present) {x : ν} {m k c : ℕ} {op : Op}
    {p : Prog σ α} (hmk : m ≤ k) (hk : k ≤ events.length) (hx : present (storeAt program s events m) x)
    (hp : (viewAt program s events k).calls c = some (op, some p)) : p.Guarantees (R x) :=
  ((h.settled x hk).drawn ⟨m, hmk, hx⟩).2 c op p hp

theorem Draws.step (h : Draws program s events R own present) {x : ν} {m k : ℕ} (hmk : m ≤ k)
    (hk : k < events.length) (hx : present (storeAt program s events m) x) :
    R x (storeAt program s events k) (storeAt program s events (k + 1)) := by
  by_cases hsame : storeAt program s events (k + 1) = storeAt program s events k
  · rw [hsame]
    exact h.refl x _
  · obtain ⟨c, op, p, q, -, hp, hatomic, -⟩ := storeAt_changed hk hsame
    exact (hatomic.guarantees (h.refl x) (h.guarantees hmk (Nat.le_of_lt hk) hx hp)).1

end

end Albedo.Interleave
