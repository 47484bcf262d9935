import Albedo.Library.Ensures
import Albedo.Library.History
import Albedo.Auth.Calls

/-!
# Mailed tokens are redeemed once

Whatever calls run, a token is redeemed for the purpose it was issued for, before it expires
and once, and not after a newer one was issued for its address or its principal's password
was reset.
-/
namespace Albedo.Auth
open Interleave

abbrev tablesAt (events : List (Event Op)) (n : ℕ) : AuthStore :=
  storeAt program AuthStore.empty events n

variable (events : List (Event Op))

def IssuedAt (i : ℕ) (t : EmailToken) : Prop :=
  ∃ c op r now, Commits program AuthStore.empty events i c op (issueTx r now t.tokenHash) () ∧
    t = r.token now t.tokenHash

def RedeemedAt (k : ℕ) (purpose : Purpose) (token : TokenHash) (now : ℤ) (redeemed : Redeemed) :
    Prop :=
  ∃ c op, Commits program AuthStore.empty events k c op (consumeTx purpose token now) (some redeemed)

def ResetAt (k : ℕ) (principal : PrincipalId) : Prop :=
  ∃ c op provider email secretHash now, Commits program AuthStore.empty events k c op
    (resetTx principal provider email secretHash now) true

/-- What ends a token: an issue over it, its redemption, and for a reset token a reset. -/
inductive Voids (k : ℕ) (t : EmailToken) : Prop
  | superseded {t' : EmailToken} : IssuedAt events k t' → t'.triple = t.triple → Voids k t
  | spent {purpose : Purpose} {now : ℤ} {redeemed : Redeemed} :
      RedeemedAt events k purpose t.tokenHash now redeemed → Voids k t
  | reset {principal : PrincipalId} : ResetAt events k principal → t.principal = some principal →
      t.purpose = .passwordReset → Voids k t

def Outstanding (n : ℕ) : Prop :=
  ∀ t ∈ (tablesAt events n).emailTokens, ∃ i < n, IssuedAt events i t ∧
    ∀ j, i < j → j < n → ¬ Voids events j t

def AuthStore.Newest (s : AuthStore) : Prop :=
  ∀ t ∈ s.emailTokens, ∀ t' ∈ s.emailTokens, t.triple = t'.triple → t = t'

variable {events}

/-! ### What the changes do to the tokens -/

section
variable {s s' : AuthStore} {kind : Kind} {t : EmailToken}

theorem Sets.emailTokens {principal : PrincipalId} {provider email secretHash : String} {now : ℤ}
    (h : Sets s principal provider email secretHash now s') : s'.emailTokens = s.emailTokens := by
  cases h <;> rfl

theorem Change.emailTokens (h : Change s kind s') (hkind : kind ≠ .issue)
    (ht : t ∈ s'.emailTokens) : t ∈ s.emailTokens := by
  cases h with
  | issue r now token hfree => exact absurd rfl hkind
  | spend p => exact (UniqueTable.mem_delete.mp ht).1
  | reset principal provider email secretHash now s₁ hsets =>
      have hkept := (UniqueTable.mem_delete.mp ht).1
      rw [hsets.emailTokens] at hkept
      exact hkept
  | takeover target magicProvider email now => exact (UniqueTable.mem_delete.mp ht).1
  | _ => exact ht

theorem Changes.emailTokens {kinds : List Kind} (h : Changes kinds s s') (hkinds : .issue ∉ kinds)
    (ht : t ∈ s'.emailTokens) : t ∈ s.emailTokens := by
  rcases h with rfl | ⟨kind, hkind, hchange⟩
  · exact ht
  · exact hchange.emailTokens (fun heq => hkinds (heq ▸ hkind)) ht

theorem Changes.newest {kinds : List Kind} (h : Changes kinds s s') (hs : s.Newest) : s'.Newest := by
  rcases h with rfl | ⟨kind, -, hchange⟩
  · exact hs
  · by_cases hkind : kind = .issue
    · subst hkind
      cases hchange with
      | issue r now token hfree =>
          intro t ht t' ht' heq
          -- the tokens of the triple were deleted just before the new one came
          rcases (UniqueTable.mem_put hfree).mp ht with ht | rfl
          · obtain ⟨ht, hother⟩ := UniqueTable.mem_delete.mp ht
            rcases (UniqueTable.mem_put hfree).mp ht' with ht' | rfl
            · exact hs t ht t' (UniqueTable.mem_delete.mp ht').1 heq
            · exact absurd heq (of_decide_eq_false hother)
          · rcases (UniqueTable.mem_put hfree).mp ht' with ht' | rfl
            · exact absurd heq.symm (of_decide_eq_false (UniqueTable.mem_delete.mp ht').2)
            · rfl
    · exact fun t ht t' ht' => hs t (hchange.emailTokens hkind ht) t' (hchange.emailTokens hkind ht')

end

/-! ### What the calls do to the tokens -/

section
variable {k : ℕ} {t : EmailToken}

theorem IssuedAt.only (h : IssuedAt events k t) {t' : EmailToken}
    (ht' : t' ∈ (tablesAt events (k + 1)).emailTokens) (htriple : t.triple = t'.triple) : t' = t := by
  obtain ⟨c, op, r, now, ⟨next, -, hrun⟩, ht⟩ := h
  obtain ⟨hfree, hstore⟩ := issueTx_run hrun
  rw [tablesAt, hstore] at ht'
  rcases (UniqueTable.mem_put hfree).mp ht' with hold | rfl
  · have hother := of_decide_eq_false (UniqueTable.mem_delete.mp hold).2
    rw [ht] at htriple
    exact absurd htriple.symm hother
  · exact ht.symm

theorem IssuedAt.stored (h : IssuedAt events k t) : t ∈ (tablesAt events (k + 1)).emailTokens := by
  obtain ⟨c, op, r, now, ⟨next, -, hrun⟩, ht⟩ := h
  obtain ⟨hfree, hstore⟩ := issueTx_run hrun
  rw [tablesAt, hstore]
  exact (UniqueTable.mem_put hfree).mpr (Or.inr ht)

theorem RedeemedAt.gone {purpose : Purpose} {token : TokenHash} {now : ℤ} {redeemed : Redeemed}
    (h : RedeemedAt events k purpose token now redeemed)
    (ht : t ∈ (tablesAt events (k + 1)).emailTokens) : t.tokenHash ≠ token := by
  obtain ⟨c, op, next, -, hrun⟩ := h
  rcases consumeTx_run hrun with ⟨hnone, -⟩ | ⟨t', -, -, hstore⟩
  · cases hnone
  · rw [tablesAt, hstore] at ht
    exact of_decide_eq_false (UniqueTable.mem_delete.mp ht).2

theorem Voids.reissued (h : Voids events k t) (ht : t ∈ (tablesAt events (k + 1)).emailTokens) :
    IssuedAt events k t := by
  cases h with
  | superseded hissued htriple =>
      rw [hissued.only ht htriple]
      exact hissued
  | spent hredeemed => exact absurd rfl (hredeemed.gone ht)
  | @reset principal hreset hprincipal hpurpose =>
      obtain ⟨c, op, provider, email, secretHash, now, next, -, hrun⟩ := hreset
      rcases resetTx_run hrun with ⟨hfalse, -⟩ | ⟨-, s₁, -, hstore⟩
      · cases hfalse
      · rw [tablesAt, hstore] at ht
        have hkept := (UniqueTable.mem_delete.mp ht).2
        simp [hprincipal, hpurpose] at hkept

theorem Outstanding.step (h : Outstanding events k)
    (hstep : ∀ t ∈ (tablesAt events (k + 1)).emailTokens,
      t ∈ (tablesAt events k).emailTokens ∨ IssuedAt events k t) : Outstanding events (k + 1) := by
  intro t ht
  by_cases hnew : IssuedAt events k t
  · exact ⟨k, Nat.lt_succ_self k, hnew, fun j hkj hj => absurd hkj (by omega)⟩
  · obtain ⟨i, hi, hissued, hvalid⟩ := h t ((hstep t ht).resolve_right hnew)
    refine ⟨i, Nat.lt_succ_of_lt hi, hissued, fun j hij hj hvoids => ?_⟩
    rcases Nat.lt_succ_iff_lt_or_eq.mp hj with hlt | rfl
    · exact hvalid j hij hlt hvoids
    · exact hnew (hvoids.reissued ht)

theorem Outstanding.idle (hsame : tablesAt events (k + 1) = tablesAt events k)
    (h : Outstanding events k) : Outstanding events (k + 1) := by
  refine h.step fun t ht => Or.inl ?_
  rw [hsame] at ht
  exact ht

theorem outstanding_program (c : ℕ) (op : Op) (n : ℕ) : (program op).Ensures program
    AuthStore.empty events (Outstanding events) c op .done (fun _ _ => True) n := by
  by_cases hissue : ∃ r now token, op = .issue r now token
  · obtain ⟨r, now, token, rfl⟩ := hissue
    intro k u _ hk hstep hrun
    refine ⟨hk.step fun t ht => ?_, trivial⟩
    obtain ⟨hfree, hstore⟩ := issueTx_run hrun
    rw [tablesAt, hstore] at ht
    rcases (UniqueTable.mem_put hfree).mp ht with hold | rfl
    · exact Or.inl (UniqueTable.mem_delete.mp hold).1
    · exact Or.inr ⟨c, _, r, now, hstep.commits hrun, rfl⟩
  · refine (program_guarantees op).ensures (fun k _ hk hchanges => hk.step fun t ht => Or.inl ?_) n
    refine hchanges.emailTokens ?_ ht
    cases op with
    | issue r now token => exact absurd ⟨r, now, token, rfl⟩ hissue
    | _ => simp [Op.kinds]

theorem outstanding {n : ℕ} (hn : n ≤ events.length) : Outstanding events n :=
  run_ensures (fun _ ht => absurd ht UniqueTable.not_mem_empty)
    (fun _ _ hsame h => h.idle hsame) outstanding_program hn

theorem newest {n : ℕ} (hn : n ≤ events.length) : (tablesAt events n).Newest :=
  run_keeps (fun op => (program_guarantees op).imp fun _ _ hchanges => hchanges.newest)
    (fun _ ht => absurd ht UniqueTable.not_mem_empty) hn

theorem RedeemedAt.issued {purpose : Purpose} {token : TokenHash} {now : ℤ} {redeemed : Redeemed}
    (h : RedeemedAt events k purpose token now redeemed) :
    ∃ i < k, ∃ t, IssuedAt events i t ∧ t.tokenHash = token ∧ t.purpose = purpose ∧
      now < t.expiresAt ∧ redeemed = t.redeemed ∧ ∀ j, i < j → j < k → ¬ Voids events j t := by
  obtain ⟨c, op, next, hstep, hrun⟩ := h
  rcases consumeTx_run hrun with ⟨hnone, -⟩ | ⟨t, hlive, hredeemed, -⟩
  · cases hnone
  · obtain ⟨ht, htoken, hpurpose, hexpires⟩ := AuthStore.liveToken_some.mp hlive
    obtain ⟨i, hi, hissued, hvalid⟩ := outstanding (Nat.le_of_lt hstep.time) t ht
    exact ⟨i, hi, t, hissued, htoken, hpurpose, hexpires, Option.some.inj hredeemed, hvalid⟩

theorem RedeemedAt.once {k' : ℕ} {purpose purpose' : Purpose} {token : TokenHash} {now now' : ℤ}
    {redeemed redeemed' : Redeemed} (h : RedeemedAt events k purpose token now redeemed)
    (h' : RedeemedAt events k' purpose' token now' redeemed') (hkk' : k < k') :
    ∃ i, k < i ∧ i < k' ∧ ∃ t, IssuedAt events i t ∧ t.tokenHash = token := by
  obtain ⟨i, hi, t, hissued, rfl, -, -, -, hvalid⟩ := h'.issued
  refine ⟨i, ?_, hi, t, hissued, rfl⟩
  rcases Nat.lt_trichotomy i k with hlt | rfl | hgt
  · exact absurd (Voids.spent h) (hvalid k hlt hkk')
  · exact absurd rfl (h.gone hissued.stored)
  · exact hgt

/-- Mailed tokens are redeemed for their purpose, in time, once, and only while nothing newer
was issued and no reset ended them; a look at one changes nothing; and there is at most one
for a purpose, provider and address. -/
theorem tokens_single_use (events : List (Event Op)) :
    (∀ k purpose token now redeemed, RedeemedAt events k purpose token now redeemed →
      ∃ i < k, ∃ t, IssuedAt events i t ∧ t.tokenHash = token ∧ t.purpose = purpose ∧
        now < t.expiresAt ∧ redeemed = t.redeemed ∧ ∀ j, i < j → j < k → ¬ Voids events j t) ∧
    (∀ k k' purpose purpose' token now now' redeemed redeemed', k < k' →
      RedeemedAt events k purpose token now redeemed →
      RedeemedAt events k' purpose' token now' redeemed' →
      ∃ i, k < i ∧ i < k' ∧ ∃ t, IssuedAt events i t ∧ t.tokenHash = token) ∧
    (∀ k < events.length, ∀ c purpose token now rest, Mine events c k →
      (viewAt program AuthStore.empty events k).calls c = some (.peek purpose token now, rest) →
      tablesAt events (k + 1) = tablesAt events k) ∧
    ∀ n ≤ events.length, (tablesAt events n).Newest := by
  refine ⟨fun k purpose token now redeemed h => h.issued,
    fun k k' purpose purpose' token now now' redeemed redeemed' hlt h h' => h.once h' hlt,
    fun k hk c purpose token now rest hmine hc => ?_, fun n hn => newest hn⟩
  have hchanges := step_guarantees (fun op s => (Or.inl rfl : Changes op.kinds s s))
    program_guarantees hk hmine hc
  rcases hchanges with hsame | ⟨kind, hkind, -⟩
  · exact hsame
  · cases hkind

end

end Albedo.Auth
