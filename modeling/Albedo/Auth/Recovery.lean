import Mathlib.Tactic.IntervalCases
import Albedo.Library.Drawn
import Albedo.Library.Ensures
import Albedo.Auth.Routes

/-!
# A reset ends what the old password opened

Once a reset is committed there is no session of its principal, and none is opened by a login
that verified against the hash it replaced, as long as every login that opens a session still
finds the credential it verified. The code does not look again, so a login that read the old
hash opens its session after the reset.
-/
namespace Albedo.Auth
open Interleave

variable (config : Config) (events : List (Event Request))

abbrev servedAt (n : ℕ) : AuthStore := storeAt (serve config) AuthStore.empty events n

def ResetsAt (j : ℕ) (principal : PrincipalId) (provider : String) : Prop :=
  ∃ c req email secretHash now, Commits (serve config) AuthStore.empty events j c req
    (resetTx principal provider email secretHash now) true

def EndsAllAt (j : ℕ) (principal : PrincipalId) : Prop :=
  ∃ c req n, Executes (serve config) AuthStore.empty events j c req
    (fun s => some (s.sessions.rows.countP (fun r => r.principal = principal),
      s.deleteSessions fun r => r.principal = principal)) n

structure OpensAt (k c : ℕ) (session : Session) : Prop where
  mine : Mine events c k
  fresh : session ∉ (servedAt config events k).sessions
  opened : session ∈ (servedAt config events (k + 1)).sessions

def LooksUpAt (i c : ℕ) (declared : PasswordProvider) (email : String) (found : PasswordCredential) :
    Prop :=
  ∃ v password admitted, Reads (serve config) AuthStore.empty events i c
    (.login v (some email) password admitted)
    (fun s => s.lookupCredential declared.name email) (some found) ∧
      config.verifies found.secretHash password = true

def VerifiedAgainst (k c : ℕ) (principal : PrincipalId) (secretHash : String) : Prop :=
  ∃ i < k, ∃ declared ∈ config.password, ∃ email,
    LooksUpAt config events i c declared email ⟨principal, secretHash⟩

def AuthStore.HasSecret (s : AuthStore) (principal : PrincipalId) (provider secretHash : String) :
    Prop :=
  ∃ c ∈ s.credentials, c.principal = principal ∧ c.provider = provider ∧ c.secretHash = some secretHash

structure RecoveryEnds : Prop where
  reset : ∀ j principal, ∀ declared ∈ config.password, ResetsAt config events j principal declared.name →
    ∀ n, j < n → n ≤ events.length → ∀ r ∈ (servedAt config events n).sessions,
      r.principal = principal → ∃ k c, j < k ∧ k < n ∧ OpensAt config events k c r ∧
        ∀ secretHash, (servedAt config events j).HasSecret principal declared.name secretHash →
          ¬ VerifiedAgainst config events k c principal secretHash
  logoutAll : ∀ j principal, EndsAllAt config events j principal →
    ∀ n, j < n → n ≤ events.length → ∀ r ∈ (servedAt config events n).sessions,
      r.principal = principal → ∃ k c, j < k ∧ k < n ∧ OpensAt config events k c r

def StillStands : Prop :=
  ∀ i k c declared email found session, i < k → declared ∈ config.password →
    LooksUpAt config events i c declared email found → OpensAt config events k c session →
    (servedAt config events k).lookupCredential declared.name email = some found

def Request.secret : Request → Option String
  | .register _ _ secret => secret
  | .reset _ _ secret => secret
  | _ => none

def Salted : Prop :=
  ∀ c d req req' secretHash, .call c req ∈ events → .call d req' ∈ events →
    req.secret = some secretHash → req'.secret = some secretHash → c = d

variable {config events}

/-! ### Hashes are stored once -/

def Keeps (secretHash : String) (s s' : AuthStore) : Prop :=
  ∀ c ∈ s'.credentials, c.secretHash = some secretHash → c ∈ s.credentials

def AuthStore.Stores (s : AuthStore) (secretHash : String) : Prop :=
  ∃ c ∈ s.credentials, c.secretHash = some secretHash

section
variable {s s' : AuthStore} {kinds : List Kind} {secretHash secret : String}
variable {principal minted : PrincipalId} {provider subject email : String} {now : ℤ}

theorem Changes.keeps (h : Changes kinds s s') (hkinds : ∀ kind ∈ kinds, kind ∉ [Kind.register, .reset]) :
    Keeps secretHash s s' := by
  rcases h with rfl | ⟨kind, hkind, hchange⟩
  · exact fun _ hc _ => hc
  have hkind' := hkinds kind hkind
  cases hchange with
  | register => simp at hkind'
  | reset => simp at hkind'
  | unlink => exact fun _ hc _ => (List.mem_filter.mp hc).1
  | delete => exact fun _ hc _ => (List.mem_filter.mp hc).1
  | takeover => exact fun _ hc _ => (List.mem_filter.mp hc).1
  | _ => exact fun _ hc _ => hc

theorem register_credentials {b : Bool} {user : User} {account : Account}
    (h : (signUpTx user account
      (.execute (update fun s => s.insertCredential ⟨minted, provider, some secret, now⟩)
        fun _ => .commit true)).run s = some (b, s')) :
    ∀ c ∈ s'.credentials, c ∈ s.credentials ∨ c = ⟨minted, provider, some secret, now⟩ := by
  intro c hc
  rcases signUpTx_run h with ⟨-, rfl⟩ | ⟨hu, ha, hfinish⟩
  · exact Or.inl hc
  · cases hfinish
    exact (List.mem_append.mp hc).imp_right List.mem_singleton.mp

theorem Sets.credentials (h : Sets s principal provider email secret now s') :
    ∀ c ∈ s'.credentials, c ∈ s.credentials ∨ c.secretHash = some secret := by
  intro c hc
  cases h with
  | replaced _ =>
      obtain ⟨c', hc', rfl⟩ := List.mem_map.mp hc
      split_ifs
      · exact Or.inr rfl
      · exact Or.inl hc'
  | first _ _ _ =>
      rcases List.mem_append.mp hc with hold | hnew
      · exact Or.inl hold
      · exact Or.inr (by rw [List.mem_singleton.mp hnew])

theorem resetTx_credentials {b : Bool} (h : (resetTx principal provider email secret now).run s =
    some (b, s')) : ∀ c ∈ s'.credentials, c ∈ s.credentials ∨ c.secretHash = some secret := by
  rcases resetTx_run h with ⟨-, rfl⟩ | ⟨-, s₁, hsets, rfl⟩
  · exact fun c hc => Or.inl hc
  · exact hsets.credentials

theorem keeps_of_changes {α : Type} {p : Prog AuthStore α} (h : p.Guarantees (Changes kinds))
    (hkinds : ∀ kind ∈ kinds, kind ∉ [Kind.register, .reset]) : p.Guarantees (Keeps secretHash) :=
  h.imp fun _ _ hchanges => hchanges.keeps hkinds

theorem createCredentialAccount_keeps {profile : ProviderProfile} (hne : secret ≠ secretHash) :
    (createCredentialAccount provider subject profile secret now minted).Guarantees
      (Keeps secretHash) := by
  refine Prog.guarantees_query fun s => ?_
  cases s.lookupAccount provider subject with
  | some _ => trivial
  | none =>
      intro s b s' hrun
      refine ⟨fun c hc hsecret => ?_, by cases b <;> trivial⟩
      rcases register_credentials hrun c hc with hold | rfl
      · exact hold
      · exact absurd (Option.some.inj hsecret) hne

theorem createCredentialAccount_once {profile : ProviderProfile} :
    (createCredentialAccount provider subject profile secret now minted).Once (Keeps secretHash) := by
  refine Prog.once_query fun s => ?_
  cases s.lookupAccount provider subject with
  | some _ => trivial
  | none => exact Prog.once_atomically fun b => (by cases b <;> trivial)

theorem claimAddress_keeps {v : Visit} (hne : secret ≠ secretHash) :
    (claimAddress v provider email secret now).Guarantees (Keeps secretHash) := by
  refine Prog.guarantees_query fun s => ?_
  cases s.verifiedPrincipal email with
  | some _ => trivial
  | none => exact (createCredentialAccount_keeps hne).bind fun _ => trivial

theorem claimAddress_once {v : Visit} :
    (claimAddress v provider email secret now).Once (Keeps secretHash) := by
  refine Prog.once_query fun s => ?_
  cases s.verifiedPrincipal email with
  | some _ => trivial
  | none => exact createCredentialAccount_once.bind fun _ => trivial

theorem registerQuietly_eq (provider email secret : String) (v : Visit) :
    ∃ rest : Option PrincipalId → Handler,
    registerQuietly v provider email secret =
      (claimAddress v provider email secret (v.clock 0) >>= rest) ∧
    ∀ created, (rest created).Guarantees (Changes [.charge, .issue]) := by
  refine ⟨_, rfl, fun created => ?_⟩
  cases created with
  | none => exact Prog.Guarantees.bind (guarantees_subset admitMail_guarantees (by decide)) fun _ => trivial
  | some principal => exact mailLink_guarantees (by decide)

theorem register_eq (v : Visit) (email secret : Option String) :
    (∃ status, register config v email secret = refusal status) ∨
    ∃ provider email' secret', secret = some secret' ∧ ∃ rest : Option PrincipalId → Handler,
      register config v email secret =
        (claimAddress v provider email' secret' (v.clock 0) >>= rest) ∧
      ∀ created, (rest created).Guarantees (Changes [.charge, .issue, .openSession]) := by
  unfold register withField
  cases config.password with
  | none => exact Or.inl ⟨_, rfl⟩
  | some declared =>
    cases email with
    | none => exact Or.inl ⟨_, rfl⟩
    | some email =>
      cases secret with
      | none => exact Or.inl ⟨_, rfl⟩
      | some secret =>
        dsimp only
        split_ifs
        · obtain ⟨rest, heq, hrest⟩ := registerQuietly_eq declared.name email secret v
          exact Or.inr ⟨_, _, _, rfl, rest, heq, fun created =>
            guarantees_subset (hrest created) (by decide)⟩
        · exact Or.inl ⟨_, rfl⟩
        · refine Or.inr ⟨_, _, _, rfl, _, rfl, fun created => ?_⟩
          cases created with
          | none => trivial
          | some principal => exact openSession_guarantees (by decide)

theorem resetPassword_keeps (hne : secret ≠ secretHash) :
    (resetPassword principal provider email secret now).Guarantees (Keeps secretHash) := by
  intro s b s' hrun
  refine ⟨fun c hc hsecret => ?_, trivial⟩
  rcases resetTx_credentials hrun c hc with hold | hnew
  · exact hold
  · exact absurd (Option.some.inj (hnew.symm.trans hsecret)) hne

theorem resetPassword_once :
    (resetPassword principal provider email secret now).Once (Keeps secretHash) :=
  fun _ _ _ _ => Or.inr trivial

theorem reset_eq (v : Visit) (token : Option TokenHash) (secret : Option String) :
    (∃ status, reset config v token secret = refusal status) ∨
    ∃ provider token' secret', secret = some secret' ∧ ∃ rest : PrincipalId → String → Bool → Handler,
      reset config v token secret = (redeem .passwordReset token' provider (v.clock 0) >>= fun
        | none => refusal 410
        | some (principal, email) =>
            resetPassword principal provider email secret' (v.clock 1) >>= rest principal email) ∧
      ∀ principal email changed, (rest principal email changed).Guarantees
        (Changes [.verify, .openSession]) := by
  unfold reset withField
  cases config.password.filter PasswordProvider.resetByEmail with
  | none => exact Or.inl ⟨_, rfl⟩
  | some declared =>
    cases token with
    | none => exact Or.inl ⟨_, rfl⟩
    | some token =>
      cases secret with
      | none => exact Or.inl ⟨_, rfl⟩
      | some secret =>
        refine Or.inr ⟨declared.name, token, secret, rfl, fun principal email changed =>
          if changed then noteVerified v principal email (v.clock 2) >>= fun _ =>
            openSession config v principal declared.name (v.clock 3) else refusal 410, rfl, ?_⟩
        intro principal email changed
        dsimp only
        split_ifs
        · exact Prog.Guarantees.bind (noteVerified_guarantees (by decide)) fun _ =>
            openSession_guarantees (by decide)
        · trivial

theorem serve_keeps {req : Request} (hne : req.secret ≠ some secretHash) :
    (serve config req).Guarantees (Keeps secretHash) := by
  cases req with
  | register v email secret =>
      change (register config v email secret).Guarantees _
      rcases @register_eq config v email secret with
        ⟨status, heq⟩ | ⟨provider, email', secret', rfl, rest, heq, hrest⟩
      · rw [heq]
        trivial
      · rw [heq]
        exact (claimAddress_keeps fun h => hne (congrArg some h)).bind fun created =>
          keeps_of_changes (hrest created) (by decide)
  | reset v token secret =>
      change (reset config v token secret).Guarantees _
      rcases @reset_eq config v token secret with
        ⟨status, heq⟩ | ⟨provider, token', secret', rfl, rest, heq, hrest⟩
      · rw [heq]
        trivial
      · rw [heq]
        refine (keeps_of_changes (redeem_guarantees (List.mem_singleton_self _)) (by decide)).bind
          fun redeemed => ?_
        cases redeemed with
        | none => trivial
        | some found =>
            exact (resetPassword_keeps fun h => hne (congrArg some h)).bind fun changed =>
              keeps_of_changes (hrest _ _ changed) (by decide)
  | _ => exact keeps_of_changes (serve_guarantees (by simp) (by simp)) (by decide)

theorem serve_once {req : Request} : (serve config req).Once (Keeps secretHash) := by
  cases req with
  | register v email secret =>
      change (register config v email secret).Once _
      rcases @register_eq config v email secret with
        ⟨status, heq⟩ | ⟨provider, email', secret', -, rest, heq, hrest⟩
      · rw [heq]
        trivial
      · rw [heq]
        exact claimAddress_once.bind fun created => keeps_of_changes (hrest created) (by decide)
  | reset v token secret =>
      change (reset config v token secret).Once _
      rcases @reset_eq config v token secret with
        ⟨status, heq⟩ | ⟨provider, token', secret', -, rest, heq, hrest⟩
      · rw [heq]
        trivial
      · rw [heq]
        refine (keeps_of_changes (redeem_guarantees (List.mem_singleton_self _)) (by decide)).bind_once
          fun redeemed => ?_
        cases redeemed with
        | none => trivial
        | some found =>
            exact resetPassword_once.bind fun changed =>
              keeps_of_changes (hrest _ _ changed) (by decide)
  | _ => exact (keeps_of_changes (serve_guarantees (by simp) (by simp)) (by decide)).once

theorem draws (h : Salted events) :
    Draws (serve config) AuthStore.empty events Keeps Request.secret AuthStore.Stores where
  refl := fun _ _ _ hc _ => hc
  absent := fun _ _ _ hkeeps ⟨c, hc, hsecret⟩ => ⟨c, hkeeps c hc hsecret, hsecret⟩
  start := fun _ ⟨_, hc, _⟩ => absurd hc List.not_mem_nil
  others := fun _ _ hne => serve_keeps hne
  once := fun _ _ _ => serve_once
  distinct := fun c d req req' secretHash => h c d req req' secretHash

def onePassword (principal : PrincipalId) (provider secret : String) : AuthStore :=
  { AuthStore.empty with credentials := [⟨principal, provider, some secret, 0⟩] }

theorem resetTx_stores (principal : PrincipalId) (provider email : String) (now : ℤ)
    (hne : secret ≠ secretHash) : ∃ b s',
    (resetTx principal provider email secretHash now).run (onePassword principal provider secret) =
      some (b, s') ∧ ¬ Keeps secretHash (onePassword principal provider secret) s' := by
  have hholds : AuthStore.holdsSecret principal provider ⟨principal, provider, some secret, 0⟩ = true := by
    simp [AuthStore.holdsSecret]
  refine ⟨true, ((onePassword principal provider secret).updateSecret principal provider
    secretHash).void principal, ?_, fun hkeeps => ?_⟩
  · unfold resetTx Tx.run Tx.finish onePassword
    dsimp only
    rw [List.countP_singleton, hholds, if_pos rfl, if_neg Nat.one_ne_zero, voidTx, finish_deletes]
    rfl
  · have hnew := hkeeps ⟨principal, provider, some secretHash, 0⟩
      (by simp [AuthStore.void, AuthStore.updateSecret, onePassword, hholds]) rfl
    simp [onePassword, hne.symm] at hnew

end

/-! ### Runs -/

section
variable {j k n : ℕ} {principal : PrincipalId} {provider secretHash : String}

theorem ResetsAt.replaced (hsalted : Salted events) (h : ResetsAt config events j principal provider) :
    ¬ (servedAt config events (j + 1)).HasSecret principal provider secretHash ∨
    ¬ (servedAt config events j).HasSecret principal provider secretHash := by
  by_contra hboth
  push Not at hboth
  obtain ⟨⟨c', hc', hprincipal', hprovider', hsecret'⟩, c, hc, hprincipal, hprovider, hsecret⟩ := hboth
  obtain ⟨d, req, email, secret, now, next, hstep, hrun⟩ := h
  have hholds : AuthStore.holdsSecret principal provider c = true := by
    simp [AuthStore.holdsSecret, hprincipal, hprovider, hsecret]
  -- the reset can only have stored the same hash again
  have hsame : secret = secretHash := by
    rcases resetTx_run hrun with ⟨hfalse, -⟩ | ⟨-, s₁, hsets, hstore⟩
    · cases hfalse
    · rw [servedAt, hstore] at hc'
      change c' ∈ s₁.credentials at hc'
      cases hsets with
      | replaced _ =>
          obtain ⟨c₀, hc₀, rfl⟩ := List.mem_map.mp hc'
          split_ifs at hsecret' hprincipal' hprovider' with hupdated
          · exact Option.some.inj hsecret'
          · simp [AuthStore.holdsSecret, hprincipal', hprovider', hsecret'] at hupdated
      | first hnone _ _ =>
          rw [hnone c hc] at hholds
          cases hholds
  subst hsame
  -- but its request draws a hash of its own
  have hguarantees := (draws hsalted).guarantees (Nat.le_refl j) (Nat.le_of_lt hstep.time)
    ⟨c, hc, hsecret⟩ hstep.before
  obtain ⟨other, hother⟩ : ∃ other : String, other ≠ secret := by
    by_cases hempty : secret = ""
    · exact ⟨"a", by rw [hempty]; decide⟩
    · exact ⟨"", fun h => hempty h.symm⟩
  obtain ⟨b, s', hrun', hnew⟩ := resetTx_stores principal provider email now hother
  exact hnew (hguarantees _ b s' hrun').1

theorem hash_gone (hsalted : Salted events)
    (hstored : (servedAt config events j).HasSecret principal provider secretHash)
    (hgone : ¬ (servedAt config events (j + 1)).HasSecret principal provider secretHash)
    (hjn : j + 1 ≤ n) (hn : n ≤ events.length) :
    ¬ (servedAt config events n).HasSecret principal provider secretHash := by
  induction n, hjn using Nat.le_induction with
  | base => exact hgone
  | succ n hjn ih =>
      rintro ⟨c, hc, hprincipal, hprovider, hsecret⟩
      obtain ⟨c₀, hc₀, -, -, hsecret₀⟩ := hstored
      have hjn' : j ≤ n := Nat.le_of_succ_le hjn
      have hkeeps := (@draws config events hsalted).step hjn' hn ⟨c₀, hc₀, hsecret₀⟩
      exact ih (Nat.le_of_succ_le hn) ⟨c, hkeeps c hc hsecret, hprincipal, hprovider, hsecret⟩

theorem opened_between {r : Session} (hjn : j ≤ n) (hn : n ≤ events.length)
    (hbefore : r ∉ (servedAt config events j).sessions) (hr : r ∈ (servedAt config events n).sessions) :
    ∃ k c, j ≤ k ∧ k < n ∧ OpensAt config events k c r := by
  induction n, hjn using Nat.le_induction with
  | base => exact absurd hr hbefore
  | succ n hjn ih =>
      by_cases hold : r ∈ (servedAt config events n).sessions
      · obtain ⟨k, c, hjk, hkn, hopens⟩ := ih (Nat.le_of_succ_le hn) hold
        exact ⟨k, c, hjk, Nat.lt_succ_of_lt hkn, hopens⟩
      · have hne : servedAt config events (n + 1) ≠ servedAt config events n := by
          intro heq
          rw [heq] at hr
          exact hold hr
        obtain ⟨c, -, -, -, hmine, -⟩ := storeAt_changed hn hne
        exact ⟨n, c, hjn, Nat.lt_succ_self n, hmine, hold, hr⟩

theorem ResetsAt.ended (h : ResetsAt config events j principal provider) :
    ∀ r ∈ (servedAt config events (j + 1)).sessions, r.principal ≠ principal := by
  obtain ⟨c, req, email, secret, now, hcommits⟩ := h
  intro r hr
  rcases resetTx_run hcommits.run with ⟨hfalse, -⟩ | ⟨-, s₁, -, hstore⟩
  · cases hfalse
  · rw [servedAt, hstore] at hr
    exact of_decide_eq_false (UniqueTable.mem_delete.mp hr).2

theorem EndsAllAt.ended (h : EndsAllAt config events j principal) :
    ∀ r ∈ (servedAt config events (j + 1)).sessions, r.principal ≠ principal := by
  obtain ⟨c, req, count, hexecutes⟩ := h
  intro r hr
  obtain ⟨-, hstore⟩ := Prod.mk.inj (Option.some.inj hexecutes.run)
  rw [servedAt, ← hstore] at hr
  exact of_decide_eq_false (UniqueTable.mem_delete.mp hr).2

/-- After a reset, and after a sign-out everywhere, no session of the principal comes from a
login with a hash that was replaced, where every login that opens a session still finds the
credential it verified. -/
theorem recovery_ends (config : Config) (events : List (Event Request)) (hsalted : Salted events)
    (hstands : StillStands config events) : RecoveryEnds config events where
  reset := fun j principal declared hdeclared hreset n hjn hn r hr hprincipal => by
    have hbefore : r ∉ (servedAt config events (j + 1)).sessions :=
      fun hmem => hreset.ended r hmem hprincipal
    obtain ⟨k, c, hjk, hkn, hopens⟩ := opened_between hjn hn hbefore hr
    refine ⟨k, c, hjk, hkn, hopens, fun secretHash hstored hverified => ?_⟩
    obtain ⟨i, hik, declared', hdeclared', email, hlooks⟩ := hverified
    obtain rfl : declared' = declared := Option.some.inj (hdeclared'.symm.trans hdeclared)
    have hgone := hreset.replaced hsalted |>.resolve_right (not_not.mpr hstored)
    refine hash_gone hsalted hstored hgone hjk (by omega) ?_
    -- the login finds the hash it verified as it opens its session
    have hfound := hstands i k c declared' email _ r hik hdeclared' hlooks hopens
    obtain ⟨c₀, hc₀, hprincipal₀, hprovider₀, hsecret₀⟩ :=
      AuthStore.secretOf_some (AuthStore.lookupCredential_some hfound).2
    exact ⟨c₀, hc₀, hprincipal₀, hprovider₀, hsecret₀⟩
  logoutAll := fun j principal hends n hjn hn r hr hprincipal =>
    opened_between hjn hn (fun hmem => hends.ended r hmem hprincipal) hr

end

/-! ### A login that is late -/

def passwords : Config where
  password := some ⟨"password", false, true⟩
  magic := none
  mails := true
  ttlMs := 86400000
  verifies := fun secretHash password => secretHash = "hash of " ++ password

def visit (minted : PrincipalId) (sessionHash mailHash : TokenHash) : Visit :=
  ⟨none, none, "/", none, fun n => n, minted, sessionHash, mailHash, true, true⟩

def adaRegisters : Request :=
  .register (visit "u_ada" "s0" "") (some "ada@x.dev") (some "hash of old")

def adaForgot : Request := .forgot (visit "" "" "m2") (some "ada@x.dev")

def adaResets : Request := .reset (visit "" "s3" "") (some "m2") (some "hash of new")

def recovery : List (Event Request) := calls 2 adaForgot 6 ++ calls 3 adaResets 11

def signIn (password : String) : Request :=
  .login (visit "" "s1" "") (some "ada@x.dev") password true

def lateLogin : List (Event Request) :=
  calls 0 adaRegisters 8 ++ calls 1 (signIn "old") 1 ++ recovery ++ [.advance 1]

/-- The session of the late login outlives the reset. -/
theorem recovery_fails : ¬ RecoveryEnds passwords lateLogin := by
  intro h
  have hreset : ResetsAt passwords lateLogin 27 "u_ada" "password" :=
    ⟨3, _, "ada@x.dev", "hash of new", 1, _, ⟨by decide, rfl, rfl, rfl⟩, rfl⟩
  obtain ⟨k, c, hjk, hkn, hopens, hnot⟩ := h.reset 27 "u_ada" ⟨"password", false, true⟩ rfl hreset 31
    (by decide) (by decide) ⟨"u_ada", "s1", "password", 0, 86400000, none⟩
    (List.mem_cons_of_mem _ List.mem_cons_self) rfl
  have hlooks : VerifiedAgainst passwords lateLogin 30 1 "u_ada" "hash of old" :=
    ⟨10, by decide, _, rfl, "ada@x.dev", _, "old", true,
      ⟨_, ⟨by decide, rfl, rfl, rfl⟩, rfl, rfl⟩, rfl⟩
  have hstored : (servedAt passwords lateLogin 27).HasSecret "u_ada" "password" "hash of old" :=
    ⟨_, List.mem_cons_self, rfl, rfl, rfl⟩
  have hk : k = 30 := by
    have hopened := hopens.opened
    interval_cases k
    · exact absurd hopened (by decide)
    · exact absurd hopened (by decide)
    · rfl
  subst hk
  obtain rfl : 1 = c := by
    have hmine : lateLogin[30]? = some (.advance c) := hopens.mine
    cases hmine
    rfl
  exact hnot "hash of old" hstored hlooks

def promptLogin : List (Event Request) :=
  calls 0 adaRegisters 8 ++ recovery ++ calls 1 (signIn "new") 2

theorem promptLogin_calls {c : ℕ} {req : Request} (h : .call c req ∈ promptLogin) :
    c = 0 ∧ req = adaRegisters ∨ c = 1 ∧ req = signIn "new" ∨ c = 2 ∧ req = adaForgot ∨
      c = 3 ∧ req = adaResets := by
  simp only [promptLogin, recovery, calls, List.mem_append, List.mem_cons, List.mem_replicate,
    Event.call.injEq, reduceCtorEq, and_false, or_false] at h
  tauto

theorem promptLogin_mine {k : ℕ} (h : Mine promptLogin 1 k) : k = 29 ∨ k = 30 := by
  have hk : k < 31 := (List.getElem?_eq_some_iff.mp h).1
  have hlast : ∀ k < 31, promptLogin[k]?.bind Event.mover = some 1 → k = 29 ∨ k = 30 := by
    decide +kernel
  exact hlast k hk h.mover

theorem promptLogin_salted : Salted promptLogin := by
  intro c d req req' secretHash hc hd hreq hreq'
  have hsame := hreq.trans hreq'.symm
  rcases promptLogin_calls hc with ⟨rfl, rfl⟩ | ⟨rfl, rfl⟩ | ⟨rfl, rfl⟩ | ⟨rfl, rfl⟩ <;>
    rcases promptLogin_calls hd with ⟨rfl, rfl⟩ | ⟨rfl, rfl⟩ | ⟨rfl, rfl⟩ | ⟨rfl, rfl⟩ <;>
    first
    | rfl
    | (cases hreq; done)
    | exact absurd hsame (by decide)

theorem promptLogin_stillStands : StillStands passwords promptLogin := by
  intro i k c declared email found session hik hdeclared hlooks hopens
  obtain ⟨v, password, admitted, ⟨next, hstep, hfound, hsame⟩, -⟩ := hlooks
  obtain rfl : c = 1 := by
    rcases promptLogin_calls (call_mem (Nat.le_of_lt hstep.time) hstep.before) with
      ⟨-, h⟩ | ⟨rfl, -⟩ | ⟨-, h⟩ | ⟨-, h⟩
    · cases h
    · rfl
    · cases h
    · cases h
  rcases promptLogin_mine hstep.mine with rfl | rfl
  · rcases promptLogin_mine hopens.mine with rfl | rfl
    · omega
    · rw [servedAt, hsame]
      exact hfound
  · rcases promptLogin_mine hopens.mine with rfl | rfl <;> omega

theorem recovery_ends_promptly : RecoveryEnds passwords promptLogin :=
  recovery_ends passwords promptLogin promptLogin_salted promptLogin_stillStands

end Albedo.Auth
