import Albedo.Auth.Calls

/-!
# The auth routes

What the server does for each form that is posted to it, in calls on the auth tables. A form
arrives with its fields already read: an address is normalised, a new password hashed, a
token hashed, and each is missing where it was refused. What is mailed is mailed after the
response, as the rest of the same request.
-/
namespace Albedo.Auth
open Interleave

structure PasswordProvider where
  name : String
  verifyEmail : Bool
  resetByEmail : Bool

structure Config where
  password : Option PasswordProvider
  /-- The name of the magic-link provider. -/
  magic : Option String
  /-- There is a mail runtime and a queue. -/
  mails : Bool
  ttlMs : ℤ
  verifies : String → String → Bool

/-- Who posts a form, and what the server draws and reads off the clock for it. -/
structure Visit where
  /-- The session that was presented. -/
  session : Option TokenHash
  principal : Option PrincipalId
  back : String
  next : Option String
  /-- The answers of `now_ms`, in order. -/
  clock : ℕ → ℤ
  minted : PrincipalId
  sessionHash : TokenHash
  mailHash : TokenHash
  /-- The statements that may fail without the request failing do not. -/
  noted : Bool
  proofRead : Bool

inductive Request where
  | register (v : Visit) (email : Option String) (secret : Option String)
  | login (v : Visit) (email : Option String) (password : String) (admitted : Bool)
  | logout (v : Visit)
  | logoutAll (v : Visit)
  | forgot (v : Visit) (email : Option String)
  | reset (v : Visit) (token : Option TokenHash) (secret : Option String)
  | magicStart (v : Visit) (email : Option String)
  | magicSignIn (v : Visit) (token : Option TokenHash)
  | verify (v : Visit) (token : Option TokenHash)

/-- What a request is told: a refusal with its status, where to go, or a session. -/
inductive Response where
  | refused (status : ℕ)
  | seeOther
  | opened (principal : PrincipalId)

abbrev Handler := Prog AuthStore Response

def refusal (status : ℕ) : Handler := pure (.refused status)

def withField {α : Type} (status : ℕ) (found : Option α) (next : α → Handler) : Handler :=
  match found with
  | none => refusal status
  | some a => next a

def mintSession (config : Config) (v : Visit) (principal : PrincipalId) (provider : String) (now : ℤ) :
    Prog AuthStore Unit :=
  match v.session with
  | some existing => rotateSession existing principal provider now config.ttlMs v.sessionHash
  | none => createSession principal provider now config.ttlMs v.sessionHash

def openSession (config : Config) (v : Visit) (principal : PrincipalId) (provider : String) (now : ℤ) :
    Handler := do
  mintSession config v principal provider now
  return .opened principal

/-- Record a proven address; a failure is only logged. -/
def noteVerified (v : Visit) (principal : PrincipalId) (email : String) (now : ℤ) :
    Prog AuthStore Unit :=
  if v.noted then markVerified principal email now else pure ()

/-- Issue a token and queue the mail with its link, where the mailbox has budget for it. -/
def mailLink (v : Visit) (link : Issue) (budgetNow now : ℤ) (response : Response) : Handler := do
  if ← admitMail link.email budgetNow then
    issue link now v.mailHash
    return response
  else
    return response

def redeem (purpose : Purpose) (token : TokenHash) (provider : String) (now : ℤ) :
    Prog AuthStore (Option (PrincipalId × String)) := do
  match ← consume purpose token now with
  | some redeemed =>
      if redeemed.provider = provider then
        return redeemed.principal.map fun principal => (principal, redeemed.email)
      else return none
  | none => return none

/-! ### Sign-up and sign-in -/

/-- The account of a sign-up, unless somebody has proven the address or has it. -/
def claimAddress (v : Visit) (provider email secret : String) (now : ℤ) :
    Prog AuthStore (Option PrincipalId) := do
  match ← verifiedPrincipal email with
  | some _ => return none
  | none =>
      let created ← createCredentialAccount provider email ⟨some email, none, none⟩ secret now v.minted
      return created.map Principal.id

/-- A sign-up that answers a new address and a taken one alike. -/
def registerQuietly (v : Visit) (provider email secret : String) : Handler := do
  match ← claimAddress v provider email secret (v.clock 0) with
  | some principal =>
      mailLink v ⟨.verifyEmail, provider, some principal, email, some (v.next.getD "/")⟩ (v.clock 1)
        (v.clock 2) .seeOther
  | none =>
      let _ ← admitMail email (v.clock 1)
      return .seeOther

def register (config : Config) (v : Visit) (email secret : Option String) : Handler :=
  withField 404 config.password fun declared =>
    withField 400 email fun email =>
      withField 400 secret fun secret =>
        if declared.verifyEmail then
          if config.mails then registerQuietly v declared.name email secret else refusal 500
        else do
          match ← claimAddress v declared.name email secret (v.clock 0) with
          | some principal => openSession config v principal declared.name (v.clock 1)
          | none => refusal 409

/-- The password was right, but the address is not proven: refuse, and mail a fresh link. -/
def unverifiedLogin (config : Config) (v : Visit) (provider : String) (principal : PrincipalId)
    (email : String) : Handler :=
  if config.mails then
    mailLink v ⟨.verifyEmail, provider, some principal, email, some v.back⟩ (v.clock 0) (v.clock 1)
      (.refused 403)
  else refusal 403

def passwordWasRight (config : Config) (v : Visit) (declared : PasswordProvider)
    (found : PasswordCredential) (email : String) : Handler :=
  if declared.verifyEmail then do
    let proven ← isVerified found.principal email
    if proven && v.proofRead then openSession config v found.principal declared.name (v.clock 0)
    else unverifiedLogin config v declared.name found.principal email
  else openSession config v found.principal declared.name (v.clock 0)

def login (config : Config) (v : Visit) (email : Option String) (password : String) (admitted : Bool) :
    Handler :=
  withField 404 config.password fun declared =>
    if admitted then
      withField 401 email fun email => do
        match ← lookupCredential declared.name email with
        | none => refusal 401
        | some found =>
            if config.verifies found.secretHash password then
              passwordWasRight config v declared found email
            else refusal 401
    else refusal 429

def logout (v : Visit) : Handler :=
  match v.session with
  | some token => do
      let _ ← revokeSession token
      return .seeOther
  | none => return .seeOther

def logoutAll (v : Visit) : Handler :=
  match v.principal with
  | some principal => do
      let _ ← revokeAllSessions principal
      return .seeOther
  | none => return .seeOther

/-! ### Mailed links -/

def resetTarget (provider email : String) : Prog AuthStore (Option PrincipalId) := do
  match ← lookupCredential provider email with
  | some found => return some found.principal
  | none => verifiedPrincipal email

def forgot (config : Config) (v : Visit) (email : Option String) : Handler :=
  withField 404 (config.password.filter fun p => p.resetByEmail && config.mails) fun declared =>
    withField 400 email fun email => do
      if ← admitMail email (v.clock 0) then
        match ← resetTarget declared.name email with
        | some principal =>
            issue ⟨.passwordReset, declared.name, some principal, email, none⟩ (v.clock 1) v.mailHash
            return .seeOther
        | none => return .seeOther
      else
        return .seeOther

def reset (config : Config) (v : Visit) (token : Option TokenHash) (secret : Option String) : Handler :=
  withField 404 (config.password.filter PasswordProvider.resetByEmail) fun declared =>
    withField 410 token fun token =>
      withField 400 secret fun secret => do
        match ← redeem .passwordReset token declared.name (v.clock 0) with
        | none => refusal 410
        | some (principal, email) =>
            if ← resetPassword principal declared.name email secret (v.clock 1) then
              noteVerified v principal email (v.clock 2)
              openSession config v principal declared.name (v.clock 3)
            else
              refusal 410

def magicStart (config : Config) (v : Visit) (email : Option String) : Handler :=
  withField 404 (config.magic.filter fun _ => config.mails) fun provider =>
    withField 400 email fun email =>
      mailLink v ⟨.magicLink, provider, none, email, v.next⟩ (v.clock 0) (v.clock 1) .seeOther

def magicSignIn (config : Config) (v : Visit) (token : Option TokenHash) : Handler :=
  withField 404 config.magic fun provider =>
    withField 410 token fun token => do
      match ← consume .magicLink token (v.clock 0) with
      | none => refusal 410
      | some redeemed =>
          if redeemed.provider = provider then
            let linked ← resolveMagicLink provider (config.password.map PasswordProvider.name)
              redeemed.email (v.clock 1) v.minted
            noteVerified v linked.principal redeemed.email (v.clock 2)
            openSession config v linked.principal provider (v.clock 3)
          else
            refusal 410

def verify (config : Config) (v : Visit) (token : Option TokenHash) : Handler :=
  withField 404 (config.password.filter PasswordProvider.verifyEmail) fun declared =>
    withField 410 token fun token => do
      match ← redeem .verifyEmail token declared.name (v.clock 0) with
      | none => refusal 410
      | some (principal, email) =>
          noteVerified v principal email (v.clock 1)
          openSession config v principal declared.name (v.clock 2)

def serve (config : Config) : Request → Handler
  | .register v email secret => register config v email secret
  | .login v email password admitted => login config v email password admitted
  | .logout v => logout v
  | .logoutAll v => logoutAll v
  | .forgot v email => forgot config v email
  | .reset v token secret => reset config v token secret
  | .magicStart v email => magicStart config v email
  | .magicSignIn v token => magicSignIn config v token
  | .verify v token => verify config v token

/-! ### What the routes change -/

section
variable {config : Config} {v : Visit} {principal : PrincipalId} {provider email : String} {now : ℤ}
variable {kinds : List Kind}

theorem withField_guarantees {α : Type} {status : ℕ} {found : Option α} {next : α → Handler}
    {R : AuthStore → AuthStore → Prop} (h : ∀ a, found = some a → (next a).Guarantees R) :
    (withField status found next).Guarantees R := by
  cases found with
  | none => trivial
  | some a => exact h a rfl

theorem openSession_guarantees (hkinds : .openSession ∈ kinds) :
    (openSession config v principal provider now).Guarantees (Changes kinds) := by
  have hmint : (mintSession config v principal provider now).Guarantees (Changes [.openSession]) := by
    unfold mintSession
    cases v.session with
    | none => exact createSession_guarantees
    | some existing => exact rotateSession_guarantees
  exact Prog.Guarantees.bind (guarantees_subset hmint (by simpa using hkinds)) fun _ => trivial

theorem noteVerified_guarantees (hkinds : .verify ∈ kinds) :
    (noteVerified v principal email now).Guarantees (Changes kinds) := by
  unfold noteVerified
  split_ifs
  · exact guarantees_subset markVerified_guarantees (by simpa using hkinds)
  · trivial

theorem mailLink_guarantees {link : Issue} {budgetNow : ℤ} {response : Response}
    (hkinds : [.charge, .issue] ⊆ kinds) :
    (mailLink v link budgetNow now response).Guarantees (Changes kinds) := by
  refine Prog.Guarantees.bind (guarantees_subset admitMail_guarantees fun kind hkind =>
    hkinds (List.mem_of_mem_head? (List.mem_singleton.mp hkind ▸ rfl))) fun admitted => ?_
  split_ifs
  · exact Prog.Guarantees.bind (guarantees_subset issue_guarantees fun kind hkind =>
      hkinds (List.mem_cons_of_mem _ hkind)) fun _ => trivial
  · trivial

theorem redeem_guarantees {purpose : Purpose} {token : TokenHash} (hkinds : .spend ∈ kinds) :
    (redeem purpose token provider now).Guarantees (Changes kinds) := by
  refine Prog.Guarantees.bind (guarantees_subset consume_guarantees (by simpa using hkinds))
    fun redeemed => ?_
  cases redeemed with
  | none => trivial
  | some redeemed =>
      dsimp only
      split_ifs <;> trivial

theorem passwordWasRight_guarantees {declared : PasswordProvider} {found : PasswordCredential} :
    (passwordWasRight config v declared found email).Guarantees
      (Changes [.openSession, .charge, .issue]) := by
  have hunverified : ∀ provider principal, (unverifiedLogin config v provider principal email).Guarantees
      (Changes [.openSession, .charge, .issue]) := by
    intro provider principal
    unfold unverifiedLogin
    split_ifs
    · exact mailLink_guarantees (by decide)
    · trivial
  unfold passwordWasRight
  split_ifs
  · refine Prog.guarantees_query fun s => ?_
    split_ifs
    · exact openSession_guarantees (by decide)
    · exact hunverified _ _
  · exact openSession_guarantees (by decide)

theorem serve_guarantees {req : Request} (h : ∀ v email secret, req ≠ .register v email secret)
    (h' : ∀ v token secret, req ≠ .reset v token secret) : (serve config req).Guarantees
      (Changes [.openSession, .endSessions, .refresh, .signUp, .issue, .spend, .verify, .magic,
        .charge]) := by
  cases req with
  | register v email secret => exact absurd rfl (h v email secret)
  | reset v token secret => exact absurd rfl (h' v token secret)
  | login v email password admitted =>
      refine withField_guarantees fun declared _ => ?_
      split_ifs
      · refine withField_guarantees fun email _ => Prog.guarantees_query fun s => ?_
        cases s.lookupCredential declared.name email with
        | none => trivial
        | some found =>
            dsimp only
            split_ifs
            · exact guarantees_subset passwordWasRight_guarantees (by decide)
            · trivial
      · trivial
  | logout v =>
      change (logout v).Guarantees _
      unfold logout
      cases v.session with
      | none => trivial
      | some token =>
          exact Prog.Guarantees.bind (guarantees_subset endSessions_guarantees (by decide))
            fun _ => trivial
  | logoutAll v =>
      change (logoutAll v).Guarantees _
      unfold logoutAll
      cases v.principal with
      | none => trivial
      | some principal =>
          exact Prog.Guarantees.bind (guarantees_subset endSessions_guarantees (by decide))
            fun _ => trivial
  | forgot v email =>
      refine withField_guarantees fun declared _ => withField_guarantees fun email _ =>
        Prog.Guarantees.bind (guarantees_subset admitMail_guarantees (by decide)) fun admitted => ?_
      split_ifs
      · refine Prog.Guarantees.bind (Prog.guarantees_query fun s => ?_) fun target => ?_
        · cases s.lookupCredential declared.name email with
          | none => exact fun s => trivial
          | some found => trivial
        · cases target with
          | none => trivial
          | some principal =>
              exact Prog.Guarantees.bind (guarantees_subset issue_guarantees (by decide))
                fun _ => trivial
      · trivial
  | magicStart v email =>
      exact withField_guarantees fun provider _ => withField_guarantees fun email _ =>
        mailLink_guarantees (by decide)
  | magicSignIn v token =>
      refine withField_guarantees fun provider _ => withField_guarantees fun token _ =>
        Prog.Guarantees.bind (guarantees_subset consume_guarantees (by decide)) fun redeemed => ?_
      cases redeemed with
      | none => trivial
      | some redeemed =>
          dsimp only
          split_ifs
          · exact Prog.Guarantees.bind (guarantees_subset resolveMagicLink_guarantees (by decide))
              fun linked => Prog.Guarantees.bind (noteVerified_guarantees (by decide))
                fun _ => openSession_guarantees (by decide)
          · trivial
  | verify v token =>
      refine withField_guarantees fun declared _ => withField_guarantees fun token _ =>
        Prog.Guarantees.bind (redeem_guarantees (by decide)) fun redeemed => ?_
      cases redeemed with
      | none => trivial
      | some found =>
          exact Prog.Guarantees.bind (noteVerified_guarantees (by decide))
            fun _ => openSession_guarantees (by decide)

end

end Albedo.Auth
