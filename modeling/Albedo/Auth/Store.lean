import Mathlib.Algebra.Order.Group.Int
import Albedo.Library.UniqueTable

/-!
# The auth tables

Who there is, which provider identities and secrets sign in as whom, the sessions that are
open, the tokens that were mailed and the addresses that were proven. A token is named by
its hash, which is all the tables hold. A statement that would break a unique index has no
result.
-/
namespace Albedo.Auth

abbrev PrincipalId := String
abbrev TokenHash := String

structure ProviderProfile where
  email : Option String
  name : Option String
  image : Option String

/-- A row of `albedo_users`. -/
structure User where
  principal : PrincipalId
  profile : ProviderProfile
  createdAt : ℤ
  updatedAt : ℤ

/-- A row of `albedo_accounts`: the identity signs in as the principal. -/
structure Account where
  principal : PrincipalId
  provider : String
  subject : String
  createdAt : ℤ

def Account.identity (a : Account) : String × String := (a.provider, a.subject)

/-- A row of `albedo_sessions`. -/
structure Session where
  principal : PrincipalId
  tokenHash : TokenHash
  provider : String
  createdAt : ℤ
  expiresAt : ℤ
  rotatedFrom : Option TokenHash
  deriving DecidableEq

/-- A row of `albedo_credentials`, with a hash where it is a password's. -/
structure Credential where
  principal : PrincipalId
  provider : String
  secretHash : Option String
  createdAt : ℤ
  deriving DecidableEq

structure PasswordCredential where
  principal : PrincipalId
  secretHash : String
  deriving DecidableEq

inductive Purpose where
  | passwordReset
  | verifyEmail
  | magicLink
  deriving DecidableEq

def Purpose.ttlMinutes : Purpose → ℕ
  | .passwordReset => 30
  | .magicLink => 15
  | .verifyEmail => 24 * 60

def Purpose.ttlMs (purpose : Purpose) : ℤ := purpose.ttlMinutes * 60000

/-- A row of `albedo_email_tokens`. -/
structure EmailToken where
  tokenHash : TokenHash
  purpose : Purpose
  provider : String
  principal : Option PrincipalId
  email : String
  next : Option String
  expiresAt : ℤ
  createdAt : ℤ
  deriving DecidableEq

/-- A row of `albedo_email_verified`. -/
structure Verified where
  principal : PrincipalId
  email : String
  verifiedAt : ℤ

def Verified.address (v : Verified) : PrincipalId × String := (v.principal, v.email)

/-- The earlier of two proofs of an address: by time, and then by principal. -/
def Verified.le (v w : Verified) : Bool :=
  v.verifiedAt < w.verifiedAt || (v.verifiedAt = w.verifiedAt && v.principal ≤ w.principal)

def earliest : List Verified → Option Verified
  | [] => none
  | v :: vs =>
      match earliest vs with
      | none => some v
      | some w => if v.le w then some v else some w

theorem earliest_mem {vs : List Verified} {v : Verified} (h : earliest vs = some v) : v ∈ vs := by
  induction vs generalizing v with
  | nil => cases h
  | cons w vs ih =>
      unfold earliest at h
      cases hrest : earliest vs with
      | none =>
          rw [hrest] at h
          rw [Option.some.inj h]
          exact List.mem_cons_self
      | some u =>
          rw [hrest] at h
          dsimp only at h
          split_ifs at h
          · rw [Option.some.inj h]
            exact List.mem_cons_self
          · exact List.mem_cons_of_mem _ (Option.some.inj h ▸ ih hrest)

/-- A row of `albedo_mail_budget`. -/
structure MailBudget where
  address : String
  tat : ℤ

structure AuthStore where
  users : UniqueTable User.principal
  accounts : UniqueTable Account.identity
  sessions : UniqueTable Session.tokenHash
  credentials : List Credential
  emailTokens : UniqueTable EmailToken.tokenHash
  emailVerified : UniqueTable Verified.address
  mailBudgets : UniqueTable MailBudget.address

def AuthStore.empty : AuthStore := ⟨.empty, .empty, .empty, [], .empty, .empty, .empty⟩

def i64Max : ℤ := 2 ^ 63 - 1

/-- `saturating_add` of a time and a non-negative span. -/
def saturatingAdd (a b : ℤ) : ℤ := min (a + b) i64Max

namespace AuthStore

variable (s : AuthStore)

/-! ### Reads -/

/-- `SELECT principal FROM albedo_accounts WHERE provider = ? AND subject = ?`. -/
def lookupAccount (provider subject : String) : Option PrincipalId :=
  (s.accounts.find? (provider, subject)).map Account.principal

def secretOf (principal : PrincipalId) (provider : String) : Option String :=
  s.credentials.findSome? fun c =>
    if c.principal = principal ∧ c.provider = provider then c.secretHash else none

def lookupCredential (provider subject : String) : Option PasswordCredential :=
  (s.lookupAccount provider subject).bind fun principal =>
    (s.secretOf principal provider).map fun secretHash => ⟨principal, secretHash⟩

def connected (principal : PrincipalId) (provider : String) : Bool :=
  s.accounts.rows.any fun a => a.principal = principal && a.provider = provider

/-- `SELECT provider FROM albedo_accounts WHERE principal = ?`. -/
def providersOf (principal : PrincipalId) : List String :=
  (s.accounts.rows.filter fun a => a.principal = principal).map Account.provider

def verifiedPrincipal (email : String) : Option PrincipalId :=
  (earliest (s.emailVerified.rows.filter fun v => v.email = email)).map Verified.principal

def isVerified (principal : PrincipalId) (email : String) : Bool :=
  (s.emailVerified.find? (principal, email)).isSome

def liveToken (purpose : Purpose) (token : TokenHash) (now : ℤ) : Option EmailToken :=
  (s.emailTokens.find? token).filter fun t => t.purpose = purpose && now < t.expiresAt

/-! ### Statements -/

def insertUser (user : User) : Option AuthStore :=
  (s.users.insert user).map fun users => { s with users }

/-- `UPDATE albedo_users SET email = COALESCE(?, email), …`. -/
def refreshUser (principal : PrincipalId) (profile : ProviderProfile) (now : ℤ) : AuthStore :=
  { s with
    users := s.users.update (fun u => u.principal = principal)
      (fun u => { u with
        profile :=
          { email := profile.email.or u.profile.email
            name := profile.name.or u.profile.name
            image := profile.image.or u.profile.image }
        updatedAt := now })
      (fun _ => rfl) }

def insertAccount (account : Account) : Option AuthStore :=
  (s.accounts.insert account).map fun accounts => { s with accounts }

/-- An insert whose failure the caller looks at: whether it went through. -/
def tryInsertAccount (account : Account) : Bool × AuthStore :=
  match s.insertAccount account with
  | some s' => (true, s')
  | none => (false, s)

def insertAccountOrIgnore (account : Account) : AuthStore :=
  { s with accounts := s.accounts.insertOrIgnore account }

def insertSession (session : Session) : Option AuthStore :=
  (s.sessions.insert session).map fun sessions => { s with sessions }

def insertCredential (credential : Credential) : AuthStore :=
  { s with credentials := s.credentials ++ [credential] }

def insertToken (token : EmailToken) : Option AuthStore :=
  (s.emailTokens.insert token).map fun emailTokens => { s with emailTokens }

def insertVerified (verified : Verified) : AuthStore :=
  { s with emailVerified := s.emailVerified.insertOrIgnore verified }

def deleteUsers (p : User → Bool) : AuthStore := { s with users := s.users.delete p }

def deleteAccounts (p : Account → Bool) : AuthStore := { s with accounts := s.accounts.delete p }

def deleteSessions (p : Session → Bool) : AuthStore := { s with sessions := s.sessions.delete p }

def deleteCredentials (p : Credential → Bool) : AuthStore :=
  { s with credentials := s.credentials.filter fun c => !p c }

def deleteTokens (p : EmailToken → Bool) : AuthStore :=
  { s with emailTokens := s.emailTokens.delete p }

def deleteBudgets (p : MailBudget → Bool) : AuthStore :=
  { s with mailBudgets := s.mailBudgets.delete p }

def holdsSecret (principal : PrincipalId) (provider : String) (c : Credential) : Bool :=
  c.principal = principal && c.provider = provider && c.secretHash.isSome

/-- `UPDATE albedo_credentials SET secret_hash = ? WHERE … AND secret_hash IS NOT NULL`. -/
def updateSecret (principal : PrincipalId) (provider secret : String) : AuthStore :=
  { s with
    credentials := s.credentials.map fun c =>
      if holdsSecret principal provider c then { c with secretHash := some secret } else c }

/-- The links one address may receive at once. -/
def mailBurst : ℤ := 3

/-- The milliseconds after which one link of budget is back. -/
def mailIntervalMs : ℤ := 6 * 60 * 1000

/-- `INSERT … ON CONFLICT DO UPDATE … WHERE`: whether the address may get one more link. -/
def chargeMail (address : String) (now : ℤ) : Bool × AuthStore :=
  match s.mailBudgets.find? address with
  | none => (true, { s with mailBudgets := s.mailBudgets.insertOrIgnore ⟨address, now + mailIntervalMs⟩ })
  | some budget =>
      if max budget.tat now + mailIntervalMs - now ≤ mailBurst * mailIntervalMs then
        (true, { s with
          mailBudgets := s.mailBudgets.update (fun b => b.address = address)
            (fun b => { b with tat := max b.tat now + mailIntervalMs }) (fun _ => rfl) })
      else (false, s)

/-! ### What the statements do -/

section
variable {s} {s' : AuthStore}

theorem insertUser_eq_some {user : User} : s.insertUser user = some s' ↔
    ∃ h : s.users.Free user, s' = { s with users := s.users.put user h } :=
  UniqueTable.map_insert_eq_some

theorem insertAccount_eq_some {account : Account} : s.insertAccount account = some s' ↔
    ∃ h : s.accounts.Free account, s' = { s with accounts := s.accounts.put account h } :=
  UniqueTable.map_insert_eq_some

theorem insertSession_eq_some {session : Session} : s.insertSession session = some s' ↔
    ∃ h : s.sessions.Free session, s' = { s with sessions := s.sessions.put session h } :=
  UniqueTable.map_insert_eq_some

theorem insertToken_eq_some {token : EmailToken} : s.insertToken token = some s' ↔
    ∃ h : s.emailTokens.Free token, s' = { s with emailTokens := s.emailTokens.put token h } :=
  UniqueTable.map_insert_eq_some

theorem tryInsertAccount_eq {account : Account} {b : Bool}
    (h : s.tryInsertAccount account = (b, s')) : b = false ∧ s' = s ∨
      b = true ∧ ∃ h : s.accounts.Free account, s' = { s with accounts := s.accounts.put account h } := by
  unfold tryInsertAccount at h
  cases hinsert : s.insertAccount account with
  | none =>
      rw [hinsert] at h
      obtain ⟨rfl, rfl⟩ := Prod.mk.inj h
      exact Or.inl ⟨rfl, rfl⟩
  | some s₁ =>
      rw [hinsert] at h
      obtain ⟨rfl, rfl⟩ := Prod.mk.inj h
      exact Or.inr ⟨rfl, insertAccount_eq_some.mp hinsert⟩

theorem lookupAccount_eq_some {provider subject : String} {principal : PrincipalId} :
    s.lookupAccount provider subject = some principal ↔
      ∃ a ∈ s.accounts, a.identity = (provider, subject) ∧ a.principal = principal := by
  unfold lookupAccount
  rw [Option.map_eq_some_iff]
  simp only [UniqueTable.find?_eq_some, and_assoc]

theorem secretOf_some {principal : PrincipalId} {provider secret : String}
    (h : s.secretOf principal provider = some secret) :
    ∃ c ∈ s.credentials, c.principal = principal ∧ c.provider = provider ∧
      c.secretHash = some secret := by
  unfold secretOf at h
  obtain ⟨c, hc, hsome⟩ := List.exists_of_findSome?_eq_some h
  split_ifs at hsome with hmatch
  exact ⟨c, hc, hmatch.1, hmatch.2, hsome⟩

theorem lookupCredential_some {provider subject : String} {found : PasswordCredential}
    (h : s.lookupCredential provider subject = some found) :
    s.lookupAccount provider subject = some found.principal ∧
      s.secretOf found.principal provider = some found.secretHash := by
  unfold lookupCredential at h
  obtain ⟨principal, haccount, hfound⟩ := Option.bind_eq_some_iff.mp h
  obtain ⟨secret, hsecret, rfl⟩ := Option.map_eq_some_iff.mp hfound
  exact ⟨haccount, hsecret⟩

theorem verifiedPrincipal_some {email : String} {principal : PrincipalId}
    (h : s.verifiedPrincipal email = some principal) :
    ∃ v ∈ s.emailVerified, v.principal = principal ∧ v.email = email := by
  unfold verifiedPrincipal at h
  obtain ⟨v, hearliest, rfl⟩ := Option.map_eq_some_iff.mp h
  have hmem := earliest_mem hearliest
  rw [List.mem_filter] at hmem
  exact ⟨v, hmem.1, rfl, by simpa using hmem.2⟩

theorem isVerified_iff {principal : PrincipalId} {email : String} :
    s.isVerified principal email = true ↔
      ∃ v ∈ s.emailVerified, v.principal = principal ∧ v.email = email := by
  unfold isVerified
  rw [Option.isSome_iff_exists]
  simp only [UniqueTable.find?_eq_some, Verified.address, Prod.mk.injEq]

theorem liveToken_some {purpose : Purpose} {token : TokenHash} {now : ℤ} {t : EmailToken} :
    s.liveToken purpose token now = some t ↔
      t ∈ s.emailTokens ∧ t.tokenHash = token ∧ t.purpose = purpose ∧ now < t.expiresAt := by
  unfold liveToken
  rw [Option.filter_eq_some_iff, UniqueTable.find?_eq_some]
  simp [and_assoc]

end

end AuthStore

end Albedo.Auth
