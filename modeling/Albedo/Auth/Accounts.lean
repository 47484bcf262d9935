import Albedo.Library.Interleave
import Albedo.Auth.Store

/-!
# Principals, identities and sessions

Every call as the statements and transactions it runs, in order. What is drawn at random (a
new principal, the hash of a new token) is an argument. A unique index that refuses a row is
an error of the call, except where the call looks at the error.
-/
namespace Albedo.Auth
open Interleave

structure Principal where
  id : PrincipalId
  profile : ProviderProfile
  provider : String

def buildPrincipal (id : PrincipalId) (provider : String) (profile : ProviderProfile) : Principal :=
  ⟨id, profile, provider⟩

def update (run : AuthStore → AuthStore) (s : AuthStore) : Option (Unit × AuthStore) :=
  some ((), run s)

/-- A statement that fails where it has no result. -/
def orFail (run : AuthStore → Option AuthStore) (s : AuthStore) : Option (Unit × AuthStore) :=
  (run s).map fun s' => ((), s')

def deletes {β : Type} : List (AuthStore → AuthStore) → Tx AuthStore β → Tx AuthStore β
  | [], rest => rest
  | run :: more, rest => .execute (update run) fun _ => deletes more rest

/-- A row that has to be there is not: the call ends with an error. -/
def corrupt {α : Type} : Prog AuthStore α :=
  .execute (fun _ => (none : Option (Empty × AuthStore))) Empty.elim

/-! ### Sessions -/

def newSession (principal : PrincipalId) (provider : String) (now ttl : ℤ) (token : TokenHash)
    (rotatedFrom : Option TokenHash) : Session :=
  ⟨principal, token, provider, now, saturatingAdd now ttl, rotatedFrom⟩

def createSession (principal : PrincipalId) (provider : String) (now ttl : ℤ) (token : TokenHash) :
    Prog AuthStore Unit :=
  .statement (orFail fun s => s.insertSession (newSession principal provider now ttl token none))

def rotateTx (old : TokenHash) (session : Session) : Tx AuthStore Unit :=
  deletes [fun s => s.deleteSessions fun r => r.tokenHash = old]
    (.execute (orFail fun s => s.insertSession session) fun _ => .commit ())

def rotateSession (old : TokenHash) (principal : PrincipalId) (provider : String) (now ttl : ℤ)
    (token : TokenHash) : Prog AuthStore Unit :=
  .atomically (rotateTx old (newSession principal provider now ttl token (some old)))

def endSessions (p : Session → Bool) : Prog AuthStore ℕ :=
  .statement fun s => some (s.sessions.rows.countP p, s.deleteSessions p)

def revokeSession (token : TokenHash) : Prog AuthStore ℕ := endSessions fun r => r.tokenHash = token

def revokeAllSessions (principal : PrincipalId) : Prog AuthStore ℕ :=
  endSessions fun r => r.principal = principal

def purgeExpiredSessions (now : ℤ) : Prog AuthStore ℕ := endSessions fun r => r.expiresAt ≤ now

/-! ### Sign-up -/

/-- A new human with one identity. `false` where the identity is somebody's already. -/
def signUpTx (user : User) (account : Account) (also : Tx AuthStore Bool) : Tx AuthStore Bool :=
  .execute (orFail fun s => s.insertUser user) fun _ =>
    .execute (fun s => some (s.tryInsertAccount account)) fun
      | true => also
      | false => .rollback false

/-- Find or create the principal behind an identity. Who loses the race adopts the winner. -/
def upsertPrincipal (provider subject : String) (profile : ProviderProfile) (now : ℤ)
    (minted : PrincipalId) : Prog AuthStore Principal := do
  match ← Prog.query fun s => s.lookupAccount provider subject with
  | some existing =>
      Prog.statement (update fun s => s.refreshUser existing profile now)
      return buildPrincipal existing provider profile
  | none =>
      if ← Prog.atomically (signUpTx ⟨minted, profile, now, now⟩ ⟨minted, provider, subject, now⟩
          (.commit true)) then
        return buildPrincipal minted provider profile
      else
        match ← Prog.query fun s => s.lookupAccount provider subject with
        | some winner => return buildPrincipal winner provider profile
        | none => corrupt

/-- Register a password account. `none` where the address is taken. -/
def createCredentialAccount (provider subject : String) (profile : ProviderProfile)
    (secretHash : String) (now : ℤ) (minted : PrincipalId) : Prog AuthStore (Option Principal) := do
  match ← Prog.query fun s => s.lookupAccount provider subject with
  | some _ => return none
  | none =>
      if ← Prog.atomically (signUpTx ⟨minted, profile, now, now⟩ ⟨minted, provider, subject, now⟩
          (.execute (update fun s => s.insertCredential ⟨minted, provider, some secretHash, now⟩)
            fun _ => .commit true)) then
        return some (buildPrincipal minted provider profile)
      else
        return none

def lookupCredential (provider subject : String) : Prog AuthStore (Option PasswordCredential) :=
  .query fun s => s.lookupCredential provider subject

/-! ### Linking -/

inductive LinkOutcome where
  | linked
  | alreadyLinked
  | takenByAnother
  | providerAlreadyConnected

inductive UnlinkOutcome where
  | unlinked (sessionsEnded : ℕ)
  | lastMethod
  | notConnected

def classify (principal owner : PrincipalId) : LinkOutcome :=
  if owner = principal then .alreadyLinked else .takenByAnother

def linkInsert (principal : PrincipalId) (provider subject : String) (now : ℤ) :
    Prog AuthStore LinkOutcome := do
  if ← Prog.statement fun s => some (s.tryInsertAccount ⟨principal, provider, subject, now⟩) then
    return .linked
  else
    match ← Prog.query fun s => s.lookupAccount provider subject with
    | some owner => return classify principal owner
    | none => corrupt

def linkAccount (principal : PrincipalId) (provider subject : String) (now : ℤ) :
    Prog AuthStore LinkOutcome := do
  match ← Prog.query fun s => s.lookupAccount provider subject with
  | some owner => return classify principal owner
  | none =>
      if ← Prog.query fun s => s.connected principal provider then
        return .providerAlreadyConnected
      else
        linkInsert principal provider subject now

/-- Disconnect a provider: its accounts, its credentials and the sessions it opened, one kept. -/
def unlinkTx (principal : PrincipalId) (provider : String) (keep : TokenHash) :
    Tx AuthStore UnlinkOutcome :=
  .read (fun s => s.providersOf principal) fun providers =>
    if ¬ provider ∈ providers then .rollback .notConnected
    else if ∀ name ∈ providers, name = provider then .rollback .lastMethod
    else
      deletes [fun s => s.deleteAccounts fun a => a.principal = principal && a.provider = provider,
          fun s => s.deleteCredentials fun c => c.principal = principal && c.provider = provider]
        (.execute (fun s =>
            let ended := fun (r : Session) =>
              r.principal = principal && r.provider = provider && r.tokenHash ≠ keep
            some (s.sessions.rows.countP ended, s.deleteSessions ended)) fun sessionsEnded =>
          .commit (.unlinked sessionsEnded))

def unlinkAccount (principal : PrincipalId) (provider : String) (keep : TokenHash) :
    Prog AuthStore UnlinkOutcome :=
  .atomically (unlinkTx principal provider keep)

/-! ### Deletion -/

def deletePrincipalTx (principal : PrincipalId) : Tx AuthStore Unit :=
  deletes [fun s => s.deleteSessions fun r => r.principal = principal,
      fun s => s.deleteCredentials fun c => c.principal = principal,
      fun s => s.deleteAccounts fun a => a.principal = principal,
      fun s => s.deleteUsers fun u => u.principal = principal]
    (.commit ())

def deletePrincipal (principal : PrincipalId) : Prog AuthStore Unit :=
  .atomically (deletePrincipalTx principal)

/-! ### What the transactions do -/

section
variable {s s' : AuthStore}

theorem orFail_eq_some {run : AuthStore → Option AuthStore} {u : Unit} :
    orFail run s = some (u, s') ↔ run s = some s' := by
  unfold orFail
  rw [Option.map_eq_some_iff]
  constructor
  · rintro ⟨t, ht, heq⟩
    obtain ⟨-, rfl⟩ := Prod.mk.inj heq
    exact ht
  · intro h
    exact ⟨s', h, rfl⟩

theorem insertSession_run {session : Session} {u : Unit}
    (h : orFail (fun s => s.insertSession session) s = some (u, s')) :
    ∃ hfree : (s.sessions.delete fun _ => false).Free session,
      s' = { s with sessions := (s.sessions.delete fun _ => false).put session hfree } := by
  obtain ⟨hfree, rfl⟩ := AuthStore.insertSession_eq_some.mp (orFail_eq_some.mp h)
  have hnone : (s.sessions.delete fun _ => false).Free session := by
    rw [UniqueTable.free_iff] at hfree ⊢
    exact fun r hr => hfree r (UniqueTable.mem_delete.mp hr).1
  refine ⟨hnone, ?_⟩
  simp [UniqueTable.put, UniqueTable.delete]

theorem finish_deletes {β : Type} (runs : List (AuthStore → AuthStore)) (rest : Tx AuthStore β)
    (start working : AuthStore) : (deletes runs rest).finish start working =
      rest.finish start (runs.foldl (fun s run => run s) working) := by
  induction runs generalizing working with
  | nil => rfl
  | cons run runs ih => exact ih (run working)

theorem rotateTx_run {old : TokenHash} {session : Session} {u : Unit}
    (h : (rotateTx old session).run s = some (u, s')) :
    ∃ hfree : (s.sessions.delete fun r => r.tokenHash = old).Free session,
      s' = { s with sessions := (s.sessions.delete fun r => r.tokenHash = old).put session hfree } := by
  unfold rotateTx Tx.run at h
  rw [finish_deletes] at h
  simp only [List.foldl_cons, List.foldl_nil, Tx.finish] at h
  split at h
  · rename_i g working hrun
    rw [orFail_eq_some, AuthStore.insertSession_eq_some] at hrun
    cases h
    exact hrun
  · cases h

theorem signUpTx_run {user : User} {account : Account} {also : Tx AuthStore Bool} {b : Bool}
    (h : (signUpTx user account also).run s = some (b, s')) : b = false ∧ s' = s ∨
      ∃ (hu : s.users.Free user) (ha : s.accounts.Free account),
        also.finish s { s with users := s.users.put user hu
                               accounts := s.accounts.put account ha } = some (b, s') := by
  unfold signUpTx Tx.run Tx.finish at h
  split at h
  · rename_i g working hrun
    obtain ⟨hu, rfl⟩ := AuthStore.insertUser_eq_some.mp (orFail_eq_some.mp hrun)
    simp only [Tx.finish] at h
    generalize htried : AuthStore.tryInsertAccount _ account = tried at h
    obtain ⟨claimed, s₁⟩ := tried
    rcases AuthStore.tryInsertAccount_eq htried with ⟨rfl, -⟩ | ⟨rfl, ha, rfl⟩
    · cases h
      exact Or.inl ⟨rfl, rfl⟩
    · exact Or.inr ⟨hu, ha, h⟩
  · cases h

theorem unlinkTx_run {principal : PrincipalId} {provider : String} {keep : TokenHash}
    {outcome : UnlinkOutcome} (h : (unlinkTx principal provider keep).run s = some (outcome, s')) :
    s' = s ∨ (∃ n, outcome = .unlinked n) ∧ s' =
      { s with
        accounts := s.accounts.delete fun a => a.principal = principal && a.provider = provider
        credentials := s.credentials.filter fun c => !(c.principal = principal && c.provider = provider)
        sessions := s.sessions.delete fun r =>
          r.principal = principal && r.provider = provider && r.tokenHash ≠ keep } := by
  unfold unlinkTx Tx.run Tx.finish at h
  dsimp only at h
  split_ifs at h with hconnected honly
  · cases h
    exact Or.inl rfl
  · rw [finish_deletes] at h
    cases h
    exact Or.inr ⟨⟨_, rfl⟩, rfl⟩
  · cases h
    exact Or.inl rfl

theorem deletePrincipalTx_run {principal : PrincipalId} {u : Unit}
    (h : (deletePrincipalTx principal).run s = some (u, s')) : s' =
      { s with
        users := s.users.delete fun u => u.principal = principal
        accounts := s.accounts.delete fun a => a.principal = principal
        sessions := s.sessions.delete fun r => r.principal = principal
        credentials := s.credentials.filter fun c => !(c.principal = principal) } := by
  unfold deletePrincipalTx Tx.run at h
  rw [finish_deletes] at h
  cases h
  rfl

end

end Albedo.Auth
