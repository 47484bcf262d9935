import Albedo.Auth.EmailToken

/-!
# The calls on the auth tables

The calls there are, and every change of the tables that each of them can make.
-/
namespace Albedo.Auth
open Interleave

inductive Kind where
  | openSession
  | endSessions
  | refresh
  | signUp
  | register
  | link
  | unlink
  | delete
  | issue
  | spend
  | reset
  | verify
  | magic
  | charge
  deriving DecidableEq

inductive Change (s : AuthStore) : Kind → AuthStore → Prop
  | openSession (p : Session → Bool) (session : Session) (h : (s.sessions.delete p).Free session) :
      Change s .openSession { s with sessions := (s.sessions.delete p).put session h }
  | endSessions (p : Session → Bool) : Change s .endSessions (s.deleteSessions p)
  | refresh (principal : PrincipalId) (profile : ProviderProfile) (now : ℤ) :
      Change s .refresh (s.refreshUser principal profile now)
  | signUp (user : User) (account : Account) (hu : s.users.Free user)
      (ha : s.accounts.Free account) : account.principal = user.principal →
      Change s .signUp { s with
        users := s.users.put user hu
        accounts := s.accounts.put account ha }
  | register (user : User) (account : Account) (credential : Credential)
      (hu : s.users.Free user) (ha : s.accounts.Free account) :
      account.principal = user.principal → credential.principal = user.principal →
      Change s .register { s with
        users := s.users.put user hu
        accounts := s.accounts.put account ha
        credentials := s.credentials ++ [credential] }
  | link (account : Account) (h : s.accounts.Free account) :
      Change s .link { s with accounts := s.accounts.put account h }
  | unlink (principal : PrincipalId) (provider : String) (keep : TokenHash) :
      Change s .unlink { s with
        accounts := s.accounts.delete fun a => a.principal = principal && a.provider = provider
        credentials := s.credentials.filter fun c => !(c.principal = principal && c.provider = provider)
        sessions := s.sessions.delete fun r =>
          r.principal = principal && r.provider = provider && r.tokenHash ≠ keep }
  | delete (principal : PrincipalId) :
      Change s .delete { s with
        users := s.users.delete fun u => u.principal = principal
        accounts := s.accounts.delete fun a => a.principal = principal
        sessions := s.sessions.delete fun r => r.principal = principal
        credentials := s.credentials.filter fun c => !(c.principal = principal) }
  | issue (r : Issue) (now : ℤ) (token : TokenHash)
      (h : (s.emailTokens.delete fun t => t.triple = r.triple).Free (r.token now token)) :
      Change s .issue { s with
        emailTokens := (s.emailTokens.delete fun t => t.triple = r.triple).put (r.token now token) h }
  | spend (p : EmailToken → Bool) : Change s .spend (s.deleteTokens p)
  | reset (principal : PrincipalId) (provider email secretHash : String) (now : ℤ) (s₁ : AuthStore) :
      Sets s principal provider email secretHash now s₁ → Change s .reset (s₁.void principal)
  | verify (v : Verified) : Change s .verify (s.insertVerified v)
  | magic (target : PrincipalId) (magicProvider email : String) (now : ℤ) :
      Change s .magic (s.insertAccountOrIgnore ⟨target, magicProvider, email, now⟩)
  | takeover (target : PrincipalId) (magicProvider email : String) (now : ℤ) :
      Change s .magic
        ((s.insertAccountOrIgnore ⟨target, magicProvider, email, now⟩).takenOver target magicProvider)
  | charge (mailBudgets : UniqueTable MailBudget.address) :
      Change s .charge { s with mailBudgets }

def Changes (kinds : List Kind) (s s' : AuthStore) : Prop :=
  s' = s ∨ ∃ kind ∈ kinds, Change s kind s'

section
variable {s s' : AuthStore} {kinds kinds' : List Kind}

theorem Change.changes {kind : Kind} (h : Change s kind s') (hkind : kind ∈ kinds) :
    Changes kinds s s' :=
  Or.inr ⟨kind, hkind, h⟩

theorem Changes.subset (h : Changes kinds s s') (hsub : kinds ⊆ kinds') : Changes kinds' s s' := by
  rcases h with rfl | ⟨kind, hkind, hchange⟩
  · exact Or.inl rfl
  · exact Or.inr ⟨kind, hsub hkind, hchange⟩

theorem guarantees_subset {α : Type} {p : Prog AuthStore α} (h : p.Guarantees (Changes kinds))
    (hsub : kinds ⊆ kinds') : p.Guarantees (Changes kinds') :=
  h.imp fun _ _ hchange => hchange.subset hsub

/-! ### What the calls change -/

theorem chargeMail_changes {address : String} {now : ℤ} {b : Bool}
    (h : s.chargeMail address now = (b, s')) : Changes [.charge] s s' := by
  unfold AuthStore.chargeMail at h
  cases hfind : s.mailBudgets.find? address with
  | none =>
      rw [hfind] at h
      obtain ⟨-, rfl⟩ := Prod.mk.inj h
      exact (Change.charge _).changes (List.mem_singleton_self _)
  | some budget =>
      rw [hfind] at h
      dsimp only at h
      split_ifs at h
      · obtain ⟨-, rfl⟩ := Prod.mk.inj h
        exact (Change.charge _).changes (List.mem_singleton_self _)
      · obtain ⟨-, rfl⟩ := Prod.mk.inj h
        exact Or.inl rfl

variable {principal minted : PrincipalId} {provider subject email secretHash : String} {now ttl : ℤ}
variable {token old keep : TokenHash} {profile : ProviderProfile}

theorem corrupt_guarantees {α : Type} {R : AuthStore → AuthStore → Prop} :
    (corrupt : Prog AuthStore α).Guarantees R :=
  fun _ g _ _ => g.elim

theorem createSession_guarantees :
    (createSession principal provider now ttl token).Guarantees (Changes [.openSession]) := by
  intro s u s' h
  obtain ⟨hfree, rfl⟩ := insertSession_run h
  exact ⟨(Change.openSession _ _ hfree).changes (List.mem_singleton_self _), trivial⟩

theorem rotateSession_guarantees :
    (rotateSession old principal provider now ttl token).Guarantees (Changes [.openSession]) := by
  intro s u s' h
  obtain ⟨hfree, rfl⟩ := rotateTx_run h
  exact ⟨(Change.openSession _ _ hfree).changes (List.mem_singleton_self _), trivial⟩

theorem endSessions_guarantees {p : Session → Bool} :
    (endSessions p).Guarantees (Changes [.endSessions]) := by
  intro s n s' h
  obtain ⟨-, rfl⟩ := Prod.mk.inj (Option.some.inj h)
  exact ⟨(Change.endSessions p).changes (List.mem_singleton_self _), trivial⟩

theorem upsertPrincipal_guarantees : (upsertPrincipal provider subject profile now minted).Guarantees
    (Changes [.refresh, .signUp]) := by
  intro s
  dsimp only
  cases s.lookupAccount provider subject with
  | some existing =>
      intro s u s' h
      obtain ⟨-, rfl⟩ := Prod.mk.inj (Option.some.inj h)
      exact ⟨(Change.refresh existing profile now).changes (by decide), trivial⟩
  | none =>
      intro s b s' h
      constructor
      · rcases signUpTx_run h with ⟨-, rfl⟩ | ⟨hu, ha, hfinish⟩
        · exact Or.inl rfl
        · cases hfinish
          exact (Change.signUp _ _ hu ha rfl).changes (by decide)
      · cases b with
        | true => trivial
        | false =>
            intro s₁
            dsimp only
            cases s₁.lookupAccount provider subject with
            | some winner => trivial
            | none => exact corrupt_guarantees

theorem createCredentialAccount_guarantees :
    (createCredentialAccount provider subject profile secretHash now minted).Guarantees
      (Changes [.register]) := by
  intro s
  dsimp only
  cases s.lookupAccount provider subject with
  | some _ => trivial
  | none =>
      intro s b s' h
      constructor
      · rcases signUpTx_run h with ⟨-, rfl⟩ | ⟨hu, ha, hfinish⟩
        · exact Or.inl rfl
        · cases hfinish
          exact (Change.register _ _ ⟨minted, provider, some secretHash, now⟩ hu ha rfl rfl).changes
            (List.mem_singleton_self _)
      · cases b <;> trivial

theorem linkAccount_guarantees :
    (linkAccount principal provider subject now).Guarantees (Changes [.link]) := by
  intro s
  dsimp only
  cases s.lookupAccount provider subject with
  | some owner => trivial
  | none =>
      intro s
      change Prog.Guarantees _ (if s.connected principal provider = true then _ else _)
      split_ifs
      · trivial
      · intro s b s' h
        constructor
        · rcases AuthStore.tryInsertAccount_eq (Option.some.inj h) with ⟨-, rfl⟩ | ⟨-, hfree, rfl⟩
          · exact Or.inl rfl
          · exact (Change.link _ hfree).changes (List.mem_singleton_self _)
        · cases b with
          | true => trivial
          | false =>
              intro s₁
              dsimp only
              cases s₁.lookupAccount provider subject with
              | some owner => trivial
              | none => exact corrupt_guarantees

theorem unlinkAccount_guarantees :
    (unlinkAccount principal provider keep).Guarantees (Changes [.unlink]) := by
  intro s outcome s' h
  refine ⟨?_, trivial⟩
  rcases unlinkTx_run h with rfl | ⟨-, rfl⟩
  · exact Or.inl rfl
  · exact (Change.unlink principal provider keep).changes (List.mem_singleton_self _)

theorem deletePrincipal_guarantees : (deletePrincipal principal).Guarantees (Changes [.delete]) := by
  intro s u s' h
  rw [deletePrincipalTx_run h]
  exact ⟨(Change.delete principal).changes (List.mem_singleton_self _), trivial⟩

theorem issue_guarantees {r : Issue} : (issue r now token).Guarantees (Changes [.issue]) := by
  intro s u s' h
  obtain ⟨hfree, rfl⟩ := issueTx_run h
  exact ⟨(Change.issue r now token hfree).changes (List.mem_singleton_self _), trivial⟩

theorem consume_guarantees {purpose : Purpose} :
    (consume purpose token now).Guarantees (Changes [.spend]) := by
  intro s b s' h
  refine ⟨?_, trivial⟩
  rcases consumeTx_run h with ⟨-, rfl⟩ | ⟨t, -, -, rfl⟩
  · exact Or.inl rfl
  · exact (Change.spend _).changes (List.mem_singleton_self _)

theorem resetPassword_guarantees :
    (resetPassword principal provider email secretHash now).Guarantees (Changes [.reset]) := by
  intro s b s' h
  refine ⟨?_, trivial⟩
  rcases resetTx_run h with ⟨-, rfl⟩ | ⟨-, s₁, hsets, rfl⟩
  · exact Or.inl rfl
  · exact (Change.reset principal provider email secretHash now s₁ hsets).changes
      (List.mem_singleton_self _)

theorem markVerified_guarantees : (markVerified principal email now).Guarantees (Changes [.verify]) := by
  intro s u s' h
  obtain ⟨-, rfl⟩ := Prod.mk.inj (Option.some.inj h)
  exact ⟨(Change.verify _).changes (List.mem_singleton_self _), trivial⟩

theorem linkMagic_guarantees {target : PrincipalId} {tookOver : Bool} :
    (linkMagic target provider email tookOver now).Guarantees (Changes [.magic]) := by
  intro s u s' h
  constructor
  · rw [linkTx_run h]
    split_ifs
    · exact (Change.takeover target provider email now).changes (List.mem_singleton_self _)
    · exact (Change.magic target provider email now).changes (List.mem_singleton_self _)
  · intro s₁
    dsimp only
    cases s₁.lookupAccount provider email with
    | some principal => trivial
    | none => exact corrupt_guarantees

theorem magicTarget_guarantees {passwordProvider : Option String}
    {R : AuthStore → AuthStore → Prop} : (magicTarget passwordProvider email).Guarantees R := by
  intro s
  dsimp only
  cases s.verifiedPrincipal email with
  | some principal => trivial
  | none =>
      cases passwordProvider with
      | some provider => exact fun s => trivial
      | none => trivial

theorem resolveMagicLink_guarantees {passwordProvider : Option String} :
    (resolveMagicLink provider passwordProvider email now minted).Guarantees
      (Changes [.refresh, .signUp, .magic]) := by
  intro s
  dsimp only
  cases s.lookupAccount provider email with
  | some principal => trivial
  | none =>
      change Prog.Guarantees _ (magicTarget passwordProvider email >>= _)
      refine Prog.Guarantees.bind magicTarget_guarantees fun found => ?_
      obtain ⟨target, tookOver⟩ := found
      cases target with
      | some target => exact guarantees_subset linkMagic_guarantees (by decide)
      | none =>
          exact Prog.Guarantees.bind (guarantees_subset upsertPrincipal_guarantees (by decide))
            fun _ => trivial

theorem admitMail_guarantees : (admitMail email now).Guarantees (Changes [.charge]) := by
  intro s b s' h
  exact ⟨chargeMail_changes (Option.some.inj h), trivial⟩

theorem purgeExpired_guarantees : (purgeExpired now).Guarantees (Changes [.spend, .charge]) := by
  intro s tokens s' h
  obtain ⟨-, rfl⟩ := Prod.mk.inj (Option.some.inj h)
  refine ⟨(Change.spend _).changes (by decide), ?_⟩
  intro s budgets s' h
  obtain ⟨-, rfl⟩ := Prod.mk.inj (Option.some.inj h)
  exact ⟨(Change.charge _).changes (by decide), trivial⟩

end

/-! ### The calls -/

inductive Op where
  | createSession (principal : PrincipalId) (provider : String) (now ttl : ℤ) (token : TokenHash)
  | rotateSession (old : TokenHash) (principal : PrincipalId) (provider : String) (now ttl : ℤ)
      (token : TokenHash)
  | revokeSession (token : TokenHash)
  | revokeAllSessions (principal : PrincipalId)
  | purgeExpiredSessions (now : ℤ)
  | upsertPrincipal (provider subject : String) (profile : ProviderProfile) (now : ℤ)
      (minted : PrincipalId)
  | createCredentialAccount (provider subject : String) (profile : ProviderProfile)
      (secretHash : String) (now : ℤ) (minted : PrincipalId)
  | lookupCredential (provider subject : String)
  | linkAccount (principal : PrincipalId) (provider subject : String) (now : ℤ)
  | unlinkAccount (principal : PrincipalId) (provider : String) (keep : TokenHash)
  | deletePrincipal (principal : PrincipalId)
  | issue (r : Issue) (now : ℤ) (token : TokenHash)
  | peek (purpose : Purpose) (token : TokenHash) (now : ℤ)
  | consume (purpose : Purpose) (token : TokenHash) (now : ℤ)
  | resetPassword (principal : PrincipalId) (provider email secretHash : String) (now : ℤ)
  | verifiedPrincipal (email : String)
  | isVerified (principal : PrincipalId) (email : String)
  | markVerified (principal : PrincipalId) (email : String) (now : ℤ)
  | resolveMagicLink (magicProvider : String) (passwordProvider : Option String) (email : String)
      (now : ℤ) (minted : PrincipalId)
  | admitMail (address : String) (now : ℤ)
  | purgeExpired (now : ℤ)

inductive Answer where
  | done
  | yes (b : Bool)
  | count (n : ℕ)
  | principal (principal : Principal)
  | created (principal : Option Principal)
  | credential (found : Option PasswordCredential)
  | linked (outcome : LinkOutcome)
  | unlinked (outcome : UnlinkOutcome)
  | redeemed (redeemed : Option Redeemed)
  | proven (principal : Option PrincipalId)
  | magic (linked : MagicLinked)

def answer {α : Type} (p : Prog AuthStore α) (tell : α → Answer) : Prog AuthStore Answer :=
  p >>= fun a => .done (tell a)

def program : Op → Prog AuthStore Answer
  | .createSession principal provider now ttl token =>
      answer (createSession principal provider now ttl token) fun _ => .done
  | .rotateSession old principal provider now ttl token =>
      answer (rotateSession old principal provider now ttl token) fun _ => .done
  | .revokeSession token => answer (revokeSession token) .count
  | .revokeAllSessions principal => answer (revokeAllSessions principal) .count
  | .purgeExpiredSessions now => answer (purgeExpiredSessions now) .count
  | .upsertPrincipal provider subject profile now minted =>
      answer (upsertPrincipal provider subject profile now minted) .principal
  | .createCredentialAccount provider subject profile secretHash now minted =>
      answer (createCredentialAccount provider subject profile secretHash now minted) .created
  | .lookupCredential provider subject => answer (lookupCredential provider subject) .credential
  | .linkAccount principal provider subject now =>
      answer (linkAccount principal provider subject now) .linked
  | .unlinkAccount principal provider keep =>
      answer (unlinkAccount principal provider keep) .unlinked
  | .deletePrincipal principal => answer (deletePrincipal principal) fun _ => .done
  | .issue r now token => answer (issue r now token) fun _ => .done
  | .peek purpose token now => answer (peek purpose token now) .yes
  | .consume purpose token now => answer (consume purpose token now) .redeemed
  | .resetPassword principal provider email secretHash now =>
      answer (resetPassword principal provider email secretHash now) .yes
  | .verifiedPrincipal email => answer (verifiedPrincipal email) .proven
  | .isVerified principal email => answer (isVerified principal email) .yes
  | .markVerified principal email now => answer (markVerified principal email now) fun _ => .done
  | .resolveMagicLink magicProvider passwordProvider email now minted =>
      answer (resolveMagicLink magicProvider passwordProvider email now minted) .magic
  | .admitMail address now => answer (admitMail address now) .yes
  | .purgeExpired now => answer (purgeExpired now) .count

def Op.kinds : Op → List Kind
  | .createSession .. | .rotateSession .. => [.openSession]
  | .revokeSession .. | .revokeAllSessions .. | .purgeExpiredSessions .. => [.endSessions]
  | .upsertPrincipal .. => [.refresh, .signUp]
  | .createCredentialAccount .. => [.register]
  | .linkAccount .. => [.link]
  | .unlinkAccount .. => [.unlink]
  | .deletePrincipal .. => [.delete]
  | .issue .. => [.issue]
  | .consume .. => [.spend]
  | .resetPassword .. => [.reset]
  | .markVerified .. => [.verify]
  | .resolveMagicLink .. => [.refresh, .signUp, .magic]
  | .admitMail .. => [.charge]
  | .purgeExpired .. => [.spend, .charge]
  | .lookupCredential .. | .peek .. | .verifiedPrincipal .. | .isVerified .. => []

theorem answer_guarantees {α : Type} {p : Prog AuthStore α} {tell : α → Answer}
    {R : AuthStore → AuthStore → Prop} (h : p.Guarantees R) : (answer p tell).Guarantees R :=
  h.bind fun _ => trivial

theorem program_guarantees (op : Op) : (program op).Guarantees (Changes op.kinds) := by
  cases op with
  | createSession => exact answer_guarantees createSession_guarantees
  | rotateSession => exact answer_guarantees rotateSession_guarantees
  | revokeSession => exact answer_guarantees endSessions_guarantees
  | revokeAllSessions => exact answer_guarantees endSessions_guarantees
  | purgeExpiredSessions => exact answer_guarantees endSessions_guarantees
  | upsertPrincipal => exact answer_guarantees upsertPrincipal_guarantees
  | createCredentialAccount => exact answer_guarantees createCredentialAccount_guarantees
  | linkAccount => exact answer_guarantees linkAccount_guarantees
  | unlinkAccount => exact answer_guarantees unlinkAccount_guarantees
  | deletePrincipal => exact answer_guarantees deletePrincipal_guarantees
  | issue => exact answer_guarantees issue_guarantees
  | consume => exact answer_guarantees consume_guarantees
  | resetPassword => exact answer_guarantees resetPassword_guarantees
  | markVerified => exact answer_guarantees markVerified_guarantees
  | resolveMagicLink => exact answer_guarantees resolveMagicLink_guarantees
  | admitMail => exact answer_guarantees admitMail_guarantees
  | purgeExpired => exact answer_guarantees purgeExpired_guarantees
  | lookupCredential => exact fun _ => trivial
  | peek => exact fun _ => trivial
  | verifiedPrincipal => exact fun _ => trivial
  | isVerified => exact fun _ => trivial

end Albedo.Auth
