import Albedo.Auth.Accounts

/-!
# Mailed tokens and proven addresses

A token is issued over the ones before it, looked at, redeemed once, and void when its
principal's password was reset. A magic link resolves to the principal that has the address,
to the one that has proven it, or to the one that registered it unproven, whose other ways
in are then deleted.
-/
namespace Albedo.Auth
open Interleave

structure Redeemed where
  provider : String
  principal : Option PrincipalId
  email : String
  next : Option String

def EmailToken.redeemed (t : EmailToken) : Redeemed := ⟨t.provider, t.principal, t.email, t.next⟩

structure MagicLinked where
  principal : PrincipalId
  tookOver : Bool

/-! ### Tokens -/

structure Issue where
  purpose : Purpose
  provider : String
  principal : Option PrincipalId
  email : String
  next : Option String

def Issue.triple (r : Issue) : Purpose × String × String := (r.purpose, r.provider, r.email)

def EmailToken.triple (t : EmailToken) : Purpose × String × String := (t.purpose, t.provider, t.email)

def Issue.token (r : Issue) (now : ℤ) (token : TokenHash) : EmailToken :=
  ⟨token, r.purpose, r.provider, r.principal, r.email, r.next,
    saturatingAdd now r.purpose.ttlMs, now⟩

def issueTx (r : Issue) (now : ℤ) (token : TokenHash) : Tx AuthStore Unit :=
  deletes [fun s => s.deleteTokens fun t => t.triple = r.triple]
    (.execute (orFail fun s => s.insertToken (r.token now token)) fun _ => .commit ())

/-- Mint a token over any outstanding one for the same purpose, provider and address. -/
def issue (r : Issue) (now : ℤ) (token : TokenHash) : Prog AuthStore Unit :=
  .atomically (issueTx r now token)

def peek (purpose : Purpose) (token : TokenHash) (now : ℤ) : Prog AuthStore Bool :=
  .query fun s => (s.liveToken purpose token now).isSome

def consumeTx (purpose : Purpose) (token : TokenHash) (now : ℤ) : Tx AuthStore (Option Redeemed) :=
  .read (fun s => s.liveToken purpose token now) fun
    | none => .rollback none
    | some t =>
        .execute (fun s => some (s.emailTokens.rows.countP (fun r => r.tokenHash = token),
            s.deleteTokens fun r => r.tokenHash = token)) fun deleted =>
          if deleted ≠ 1 then .rollback none else .commit (some t.redeemed)

def consume (purpose : Purpose) (token : TokenHash) (now : ℤ) : Prog AuthStore (Option Redeemed) :=
  .atomically (consumeTx purpose token now)

/-! ### Password resets -/

def voidTx (principal : PrincipalId) : Tx AuthStore Bool :=
  deletes [fun s => s.deleteSessions fun r => r.principal = principal,
      fun s => s.deleteTokens fun t => t.principal = some principal && t.purpose = .passwordReset]
    (.commit true)

/-- A first password, where the address signs in as the principal or as nobody yet. -/
def firstPasswordTx (principal : PrincipalId) (provider email secretHash : String) (now : ℤ) :
    Tx AuthStore Bool :=
  .read (fun s => (s.users.find? principal).isSome) fun
    | false => .rollback false
    | true =>
        .execute (update fun s => s.insertAccountOrIgnore ⟨principal, provider, email, now⟩) fun _ =>
          .read (fun s => s.lookupAccount provider email) fun owner =>
            if owner = some principal then
              .execute (update fun s => s.insertCredential ⟨principal, provider, some secretHash, now⟩)
                fun _ => voidTx principal
            else .rollback false

def resetTx (principal : PrincipalId) (provider email secretHash : String) (now : ℤ) :
    Tx AuthStore Bool :=
  .execute (fun s => some (s.credentials.countP (AuthStore.holdsSecret principal provider),
      s.updateSecret principal provider secretHash)) fun updated =>
    if updated = 0 then firstPasswordTx principal provider email secretHash now
    else voidTx principal

def resetPassword (principal : PrincipalId) (provider email secretHash : String) (now : ℤ) :
    Prog AuthStore Bool :=
  .atomically (resetTx principal provider email secretHash now)

/-! ### Proven addresses -/

def verifiedPrincipal (email : String) : Prog AuthStore (Option PrincipalId) :=
  .query fun s => s.verifiedPrincipal email

def isVerified (principal : PrincipalId) (email : String) : Prog AuthStore Bool :=
  .query fun s => s.isVerified principal email

def markVerified (principal : PrincipalId) (email : String) (now : ℤ) : Prog AuthStore Unit :=
  .statement (update fun s => s.insertVerified ⟨principal, email, now⟩)

/-! ### Magic links -/

/-- The identity becomes the target's; what nobody proved goes. -/
def linkTx (target : PrincipalId) (magicProvider email : String) (tookOver : Bool) (now : ℤ) :
    Tx AuthStore Unit :=
  .execute (update fun s => s.insertAccountOrIgnore ⟨target, magicProvider, email, now⟩) fun _ =>
    if tookOver then
      deletes [fun s => s.deleteCredentials fun c => c.principal = target,
          fun s => s.deleteAccounts fun a => a.principal = target && a.provider ≠ magicProvider,
          fun s => s.deleteSessions fun r => r.principal = target,
          fun s => s.deleteTokens fun t => t.principal = some target]
        (.commit ())
    else .commit ()

def linkMagic (target : PrincipalId) (magicProvider email : String) (tookOver : Bool) (now : ℤ) :
    Prog AuthStore MagicLinked := do
  Prog.atomically (linkTx target magicProvider email tookOver now)
  match ← Prog.query fun s => s.lookupAccount magicProvider email with
  | some principal => return ⟨principal, tookOver && principal = target⟩
  | none => corrupt

/-- Whose the address is: of who has proven it, or of who registered it unproven. -/
def magicTarget (passwordProvider : Option String) (email : String) :
    Prog AuthStore (Option PrincipalId × Bool) := do
  match ← verifiedPrincipal email with
  | some principal => return (some principal, false)
  | none =>
      match passwordProvider with
      | some provider =>
          let found ← Prog.query fun s => s.lookupAccount provider email
          return (found, true)
      | none => return (none, false)

def resolveMagicLink (magicProvider : String) (passwordProvider : Option String) (email : String)
    (now : ℤ) (minted : PrincipalId) : Prog AuthStore MagicLinked := do
  match ← Prog.query fun s => s.lookupAccount magicProvider email with
  | some principal => return ⟨principal, false⟩
  | none =>
      match ← magicTarget passwordProvider email with
      | (some target, tookOver) => linkMagic target magicProvider email tookOver now
      | (none, _) =>
          let principal ← upsertPrincipal magicProvider email ⟨some email, none, none⟩ now minted
          return ⟨principal.id, false⟩

/-! ### Housekeeping -/

def admitMail (address : String) (now : ℤ) : Prog AuthStore Bool :=
  .statement fun s => some (s.chargeMail address now)

def purgeExpired (now : ℤ) : Prog AuthStore ℕ := do
  let tokens ← Prog.statement fun s =>
    some (s.emailTokens.rows.countP (fun t => t.expiresAt ≤ now),
      s.deleteTokens fun t => t.expiresAt ≤ now)
  let budgets ← Prog.statement fun s =>
    some (s.mailBudgets.rows.countP (fun b => b.tat ≤ now), s.deleteBudgets fun b => b.tat ≤ now)
  return tokens + budgets

/-! ### What the transactions do -/

section
variable {s s' : AuthStore}

theorem issueTx_run {r : Issue} {now : ℤ} {token : TokenHash} {u : Unit}
    (h : (issueTx r now token).run s = some (u, s')) :
    ∃ hfree : (s.emailTokens.delete fun t => t.triple = r.triple).Free (r.token now token),
      s' = { s with
        emailTokens := (s.emailTokens.delete fun t => t.triple = r.triple).put
          (r.token now token) hfree } := by
  unfold issueTx Tx.run at h
  rw [finish_deletes] at h
  simp only [List.foldl_cons, List.foldl_nil, Tx.finish] at h
  split at h
  · rename_i g working hrun
    rw [orFail_eq_some, AuthStore.insertToken_eq_some] at hrun
    cases h
    exact hrun
  · cases h

theorem consumeTx_run {purpose : Purpose} {token : TokenHash} {now : ℤ} {b : Option Redeemed}
    (h : (consumeTx purpose token now).run s = some (b, s')) :
    b = none ∧ s' = s ∨ ∃ t, s.liveToken purpose token now = some t ∧ b = some t.redeemed ∧
      s' = s.deleteTokens fun r => r.tokenHash = token := by
  unfold consumeTx Tx.run Tx.finish at h
  dsimp only at h
  cases hlive : s.liveToken purpose token now with
  | none =>
      rw [hlive] at h
      cases h
      exact Or.inl ⟨rfl, rfl⟩
  | some t =>
      rw [hlive] at h
      simp only [Tx.finish] at h
      split_ifs at h with hdeleted
      · cases h
        exact Or.inl ⟨rfl, rfl⟩
      · cases h
        exact Or.inr ⟨t, rfl, rfl, rfl⟩

inductive Sets (s : AuthStore) (principal : PrincipalId) (provider email secretHash : String)
    (now : ℤ) : AuthStore → Prop
  | replaced : (∃ c ∈ s.credentials, AuthStore.holdsSecret principal provider c = true) →
      Sets s principal provider email secretHash now (s.updateSecret principal provider secretHash)
  | first : (∀ c ∈ s.credentials, AuthStore.holdsSecret principal provider c = false) →
      (∃ u ∈ s.users, u.principal = principal) →
      (s.insertAccountOrIgnore ⟨principal, provider, email, now⟩).lookupAccount provider email =
        some principal →
      Sets s principal provider email secretHash now
        ((s.insertAccountOrIgnore ⟨principal, provider, email, now⟩).insertCredential
          ⟨principal, provider, some secretHash, now⟩)

def AuthStore.void (s : AuthStore) (principal : PrincipalId) : AuthStore :=
  { s with
    sessions := s.sessions.delete fun r => r.principal = principal
    emailTokens := s.emailTokens.delete fun t =>
      t.principal = some principal && t.purpose = .passwordReset }

theorem updateSecret_of_none {principal : PrincipalId} {provider secretHash : String}
    (h : ∀ c ∈ s.credentials, AuthStore.holdsSecret principal provider c = false) :
    s.updateSecret principal provider secretHash = s := by
  unfold AuthStore.updateSecret
  have hsame : (s.credentials.map fun c => if AuthStore.holdsSecret principal provider c then
      { c with secretHash := some secretHash } else c) = s.credentials := by
    refine List.map_congr_left (fun c hc => ?_) |>.trans (List.map_id _)
    rw [h c hc]
    rfl
  rw [hsame]

theorem resetTx_run {principal : PrincipalId} {provider email secretHash : String} {now : ℤ}
    {b : Bool} (h : (resetTx principal provider email secretHash now).run s = some (b, s')) :
    b = false ∧ s' = s ∨ b = true ∧ ∃ s₁, Sets s principal provider email secretHash now s₁ ∧
      s' = s₁.void principal := by
  unfold resetTx Tx.run Tx.finish at h
  dsimp only at h
  split_ifs at h with hupdated
  · -- nothing was updated, so the working store is still the one it began with
    rw [List.countP_eq_zero] at hupdated
    have hnone : ∀ c ∈ s.credentials, AuthStore.holdsSecret principal provider c = false :=
      fun c hc => by simpa using hupdated c hc
    rw [updateSecret_of_none hnone] at h
    unfold firstPasswordTx Tx.finish at h
    dsimp only at h
    split at h
    · cases h
      exact Or.inl ⟨rfl, rfl⟩
    · rename_i huser
      simp only [update, Tx.finish] at h
      split_ifs at h with howner
      · simp only [Tx.finish, voidTx, finish_deletes] at h
        cases h
        obtain ⟨u, hu⟩ := Option.isSome_iff_exists.mp huser
        exact Or.inr ⟨rfl, _, .first hnone ⟨u, UniqueTable.find?_some hu⟩ howner, rfl⟩
      · cases h
        exact Or.inl ⟨rfl, rfl⟩
  · rw [voidTx, finish_deletes] at h
    cases h
    have hsome := List.countP_pos_iff.mp (Nat.pos_of_ne_zero hupdated)
    exact Or.inr ⟨rfl, _, .replaced hsome, rfl⟩

def AuthStore.takenOver (s : AuthStore) (target : PrincipalId) (magicProvider : String) : AuthStore :=
  { s with
    credentials := s.credentials.filter fun c => !(c.principal = target)
    accounts := s.accounts.delete fun a => a.principal = target && a.provider ≠ magicProvider
    sessions := s.sessions.delete fun r => r.principal = target
    emailTokens := s.emailTokens.delete fun t => t.principal = some target }

theorem linkTx_run {target : PrincipalId} {magicProvider email : String} {tookOver : Bool} {now : ℤ}
    {u : Unit} (h : (linkTx target magicProvider email tookOver now).run s = some (u, s')) :
    s' = if tookOver then
      (s.insertAccountOrIgnore ⟨target, magicProvider, email, now⟩).takenOver target magicProvider
    else s.insertAccountOrIgnore ⟨target, magicProvider, email, now⟩ := by
  unfold linkTx Tx.run Tx.finish at h
  cases tookOver with
  | false =>
      cases h
      rfl
  | true =>
      simp only [update, if_true, finish_deletes] at h
      cases h
      rfl

end

end Albedo.Auth
