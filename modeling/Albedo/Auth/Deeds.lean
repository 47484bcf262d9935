import Albedo.Auth.Recovery

/-!
# What the requests do

Every step of a run changes the tables in one of a few ways, and each way says what the
request had read or redeemed before: whose link it was, which password it checked, who had
proven the address. The routes are gone through once, for an app whose sign-ups are verified.
-/
namespace Albedo.Auth
open Interleave

variable (config : Config) (events : List (Event Request))

def RedeemsAt (i c : ℕ) (purpose : Purpose) (redeemed : Redeemed) : Prop :=
  ∃ req token now, Commits (serve config) AuthStore.empty events i c req
    (consumeTx purpose token now) (some redeemed)

/-- A link that names the principal is redeemed, which was mailed to the address. -/
def NamedAt (i c : ℕ) (purpose : Purpose) (principal : PrincipalId) (email : String) : Prop :=
  ∃ redeemed, RedeemsAt config events i c purpose redeemed ∧ redeemed.principal = some principal ∧
    redeemed.email = email

def LinkedAt (i c : ℕ) (email : String) : Prop :=
  ∃ redeemed, RedeemsAt config events i c .magicLink redeemed ∧ redeemed.email = email

/-- The password of a principal is set by the request that redeemed the link for it. -/
def SetsAt (k : ℕ) (principal : PrincipalId) (email secretHash : String) : Prop :=
  ∃ c, (∃ i < k, NamedAt config events i c .passwordReset principal email) ∧
    ∃ req now, ∃ declared ∈ config.password, Commits (serve config) AuthStore.empty events k c req
      (resetTx principal declared.name email secretHash now) true

def registerTx (minted : PrincipalId) (provider email secretHash : String) (now : ℤ) :
    Tx AuthStore Bool :=
  signUpTx ⟨minted, ⟨some email, none, none⟩, now, now⟩ ⟨minted, provider, email, now⟩
    (.execute (update fun s => s.insertCredential ⟨minted, provider, some secretHash, now⟩)
      fun _ => .commit true)

def RegistersAt (k : ℕ) (principal : PrincipalId) (email secretHash : String) : Prop :=
  ∃ c req now, ∃ declared ∈ config.password, Commits (serve config) AuthStore.empty events k c req
    (registerTx principal declared.name email secretHash now) true

/-- The address signs in as the principal, or the principal has proven it. -/
def AuthStore.Reaches (s : AuthStore) (principal : PrincipalId) (email : String) : Prop :=
  (∃ provider, s.lookupAccount provider email = some principal) ∨
    ∃ v ∈ s.emailVerified, v.principal = principal ∧ v.email = email

/-- What lets a call open a session: the link it redeemed, or the password it checked for a
principal whose address it then found proven. -/
inductive Entitled (k c : ℕ) (principal : PrincipalId) : Prop
  | named {i : ℕ} {purpose : Purpose} {email : String} : i < k →
      NamedAt config events i c purpose principal email → Entitled k c principal
  | linked {i j : ℕ} {email provider : String} : i < k → LinkedAt config events i c email → j ≤ k →
      provider ∈ config.magic →
      (servedAt config events j).lookupAccount provider email = some principal →
      Entitled k c principal
  | password {i j : ℕ} {declared : PasswordProvider} {email : String} {found : PasswordCredential} :
      i < j → j < k → declared ∈ config.password → LooksUpAt config events i c declared email found →
      found.principal = principal → (servedAt config events j).isVerified principal email = true →
      Entitled k c principal

inductive Proves (k c : ℕ) (principal : PrincipalId) (email : String) : Prop
  | verified {i : ℕ} : i < k → NamedAt config events i c .verifyEmail principal email →
      Proves k c principal email
  | reset {j : ℕ} {secretHash : String} : j < k → SetsAt config events j principal email secretHash →
      Proves k c principal email
  | linked {j : ℕ} {provider : String} : j ≤ k → provider ∈ config.magic →
      (servedAt config events j).lookupAccount provider email = some principal →
      Proves k c principal email

/-- The ways in which step `k` may change the tables. -/
inductive Deed (k : ℕ) (s : AuthStore) : AuthStore → Prop
  | same : Deed k s s
  | ended (p : Session → Bool) : Deed k s (s.deleteSessions p)
  | spent (p : EmailToken → Bool) : Deed k s (s.deleteTokens p)
  | charged (mailBudgets : UniqueTable MailBudget.address) : Deed k s { s with mailBudgets }
  | issued (r : Issue) (now : ℤ) (token : TokenHash)
      (h : (s.emailTokens.delete fun t => t.triple = r.triple).Free (r.token now token)) :
      (∀ principal, r.principal = some principal →
        ∃ i ≤ k, (servedAt config events i).Reaches principal r.email) →
      Deed k s { s with
        emailTokens := (s.emailTokens.delete fun t => t.triple = r.triple).put (r.token now token) h }
  | opened (c : ℕ) (p : Session → Bool) (session : Session) (h : (s.sessions.delete p).Free session) :
      Mine events c k → Entitled config events k c session.principal →
      Deed k s { s with sessions := (s.sessions.delete p).put session h }
  | registered (declared : PasswordProvider) (minted : PrincipalId) (email secretHash : String)
      (now : ℤ) (hu : s.users.Free ⟨minted, ⟨some email, none, none⟩, now, now⟩)
      (ha : s.accounts.Free ⟨minted, declared.name, email, now⟩) :
      declared ∈ config.password → RegistersAt config events k minted email secretHash →
      Deed k s { s with
        users := s.users.put ⟨minted, ⟨some email, none, none⟩, now, now⟩ hu
        accounts := s.accounts.put ⟨minted, declared.name, email, now⟩ ha
        credentials := s.credentials ++ [⟨minted, declared.name, some secretHash, now⟩] }
  | signedUp (c i : ℕ) (magic : String) (minted : PrincipalId) (email : String) (now : ℤ)
      (hu : s.users.Free ⟨minted, ⟨some email, none, none⟩, now, now⟩)
      (ha : s.accounts.Free ⟨minted, magic, email, now⟩) :
      magic ∈ config.magic → i < k → LinkedAt config events i c email →
      Deed k s { s with
        users := s.users.put ⟨minted, ⟨some email, none, none⟩, now, now⟩ hu
        accounts := s.accounts.put ⟨minted, magic, email, now⟩ ha }
  | refreshed (i : ℕ) (magic : String) (existing : PrincipalId) (email : String) (now : ℤ) :
      magic ∈ config.magic → i ≤ k →
      (servedAt config events i).lookupAccount magic email = some existing →
      Deed k s (s.refreshUser existing ⟨some email, none, none⟩ now)
  | reset (declared : PasswordProvider) (principal : PrincipalId) (email secretHash : String)
      (now : ℤ) (s₁ : AuthStore) : declared ∈ config.password →
      SetsAt config events k principal email secretHash →
      Sets s principal declared.name email secretHash now s₁ → Deed k s (s₁.void principal)
  | verified (c : ℕ) (principal : PrincipalId) (email : String) (now : ℤ) :
      Proves config events k c principal email → Deed k s (s.insertVerified ⟨principal, email, now⟩)
  | linked (c i j : ℕ) (magic : String) (target : PrincipalId) (email : String) (now : ℤ) :
      magic ∈ config.magic → i < k → LinkedAt config events i c email → j ≤ k →
      (servedAt config events j).verifiedPrincipal email = some target →
      Deed k s (s.insertAccountOrIgnore ⟨target, magic, email, now⟩)
  | tookOver (c i j : ℕ) (magic provider : String) (target : PrincipalId) (email : String) (now : ℤ) :
      magic ∈ config.magic → i < k → LinkedAt config events i c email → j ≤ k →
      (servedAt config events j).lookupAccount provider email = some target →
      Deed k s ((s.insertAccountOrIgnore ⟨target, magic, email, now⟩).takenOver target magic)

def Done (n : ℕ) : Prop :=
  ∀ k < n, Deed config events k (servedAt config events k) (servedAt config events (k + 1))

def Config.VerifiesSignUps (config : Config) : Prop :=
  ∀ declared ∈ config.password, declared.verifyEmail = true ∧ declared.name ∉ config.magic

variable {config events}

/-! ### The times so far -/

section
variable {i k n c : ℕ} {principal : PrincipalId} {email : String} {s : AuthStore}

theorem Done.step (h : Done config events k) (hstore : servedAt config events (k + 1) = s)
    (hdeed : Deed config events k (servedAt config events k) s) : Done config events (k + 1) := by
  intro j hj
  rcases Nat.lt_succ_iff_lt_or_eq.mp hj with hlt | rfl
  · exact h j hlt
  · exact hstore ▸ hdeed

theorem Done.idle (hsame : servedAt config events (k + 1) = servedAt config events k)
    (h : Done config events k) : Done config events (k + 1) :=
  h.step hsame .same

theorem AuthStore.Reaches.of_credential {provider : String} {found : PasswordCredential}
    (h : s.lookupCredential provider email = some found) : s.Reaches found.principal email :=
  Or.inl ⟨provider, (AuthStore.lookupCredential_some h).1⟩

theorem AuthStore.Reaches.of_verified (h : s.verifiedPrincipal email = some principal) :
    s.Reaches principal email :=
  Or.inr (AuthStore.verifiedPrincipal_some h)

end

/-! ### What the calls do -/

section
variable {c n : ℕ} {req : Request} {v : Visit} {principal : PrincipalId} {provider email : String}
variable {now budgetNow : ℤ} {α : Type}

theorem endSessions_ensures {p : Session → Bool} {f : ℕ → Handler} :
    (endSessions p).Ensures (serve config) AuthStore.empty events (Done config events) c req f
      (fun _ _ => True) n := by
  intro k count _ hdone _ hrun
  obtain ⟨-, hstore⟩ := Prod.mk.inj (Option.some.inj hrun)
  exact ⟨hdone.step hstore.symm (.ended p), trivial⟩

theorem chargeMail_charged {s s' : AuthStore} {address : String} {b : Bool}
    (h : s.chargeMail address now = (b, s')) : ∃ mailBudgets, s' = { s with mailBudgets } := by
  rcases chargeMail_changes h with rfl | ⟨kind, hkind, hchange⟩
  · exact ⟨s'.mailBudgets, rfl⟩
  · obtain rfl := List.mem_singleton.mp hkind
    cases hchange with
    | charge mailBudgets => exact ⟨mailBudgets, rfl⟩

theorem admitMail_ensures {address : String} {f : Bool → Handler} :
    (admitMail address now).Ensures (serve config) AuthStore.empty events (Done config events) c req f
      (fun _ _ => True) n := by
  intro k admitted _ hdone _ hrun
  obtain ⟨mailBudgets, hstore⟩ := chargeMail_charged (Option.some.inj hrun)
  exact ⟨hdone.step hstore (.charged mailBudgets), trivial⟩

theorem issue_ensures {r : Issue} {token : TokenHash} {f : Unit → Handler}
    (h : ∀ principal, r.principal = some principal →
      ∃ i ≤ n, (servedAt config events i).Reaches principal r.email) :
    (issue r now token).Ensures (serve config) AuthStore.empty events (Done config events) c req f
      (fun _ _ => True) n := by
  intro k u hnk hdone _ hrun
  obtain ⟨hfree, hstore⟩ := issueTx_run hrun
  refine ⟨hdone.step hstore (.issued r now token hfree fun principal hprincipal => ?_), trivial⟩
  obtain ⟨i, hi, hreaches⟩ := h principal hprincipal
  exact ⟨i, Nat.le_trans hi hnk, hreaches⟩

theorem mailLink_ensures {link : Issue} {response : Response} {f : Response → Handler}
    (h : ∀ principal, link.principal = some principal →
      ∃ i ≤ n, (servedAt config events i).Reaches principal link.email) :
    (mailLink v link budgetNow now response).Ensures (serve config) AuthStore.empty events
      (Done config events) c req f (fun _ _ => True) n := by
  refine Prog.ensures_bind (admitMail_ensures.imp fun m admitted hm _ => ?_)
  split_ifs
  · refine Prog.ensures_bind ((issue_ensures fun principal hprincipal => ?_).imp fun _ _ _ _ => trivial)
    obtain ⟨i, hi, hreaches⟩ := h principal hprincipal
    exact ⟨i, Nat.le_trans hi hm, hreaches⟩
  · trivial

theorem openSession_ensures {f : Response → Handler}
    (h : ∀ k, n ≤ k → Entitled config events k c principal) :
    (openSession config v principal provider now).Ensures (serve config) AuthStore.empty events
      (Done config events) c req f (fun _ _ => True) n := by
  refine Prog.ensures_bind ?_
  unfold mintSession
  cases v.session with
  | none =>
      intro k u hnk hdone hstep hrun
      obtain ⟨hfree, hstore⟩ := insertSession_run hrun
      exact ⟨hdone.step hstore (.opened c _ _ hfree hstep.mine (h k hnk)), trivial⟩
  | some existing =>
      intro k u hnk hdone hstep hrun
      obtain ⟨hfree, hstore⟩ := rotateTx_run hrun
      exact ⟨hdone.step hstore (.opened c _ _ hfree hstep.mine (h k hnk)), trivial⟩

theorem noteVerified_ensures {f : Unit → Handler}
    (h : ∀ k, n ≤ k → Proves config events k c principal email) :
    (noteVerified v principal email now).Ensures (serve config) AuthStore.empty events
      (Done config events) c req f (fun _ _ => True) n := by
  unfold noteVerified
  split_ifs
  · intro k u hnk hdone hstep hrun
    obtain ⟨-, hstore⟩ := Prod.mk.inj (Option.some.inj hrun)
    exact ⟨hdone.step hstore.symm (.verified c _ _ _ (h k hnk)), trivial⟩
  · trivial

theorem consume_ensures {purpose : Purpose} {token : TokenHash} {f : Option Redeemed → Handler} :
    (consume purpose token now).Ensures (serve config) AuthStore.empty events (Done config events) c
      req f (fun m found => ∀ redeemed, found = some redeemed →
        ∃ i < m, RedeemsAt config events i c purpose redeemed) n := by
  intro k found _ hdone hstep hrun
  have hcommits := hstep.commits hrun
  rcases consumeTx_run hrun with ⟨rfl, hstore⟩ | ⟨t, -, rfl, hstore⟩
  · exact ⟨hdone.idle hstore, fun redeemed hredeemed => by cases hredeemed⟩
  · refine ⟨hdone.step hstore (.spent _), fun redeemed hredeemed => ?_⟩
    cases hredeemed
    exact ⟨k, Nat.lt_succ_self k, req, token, now, hcommits⟩

theorem redeem_ensures {purpose : Purpose} {token : TokenHash}
    {f : Option (PrincipalId × String) → Handler} :
    (redeem purpose token provider now).Ensures (serve config) AuthStore.empty events
      (Done config events) c req f (fun m found => ∀ principal email, found = some (principal, email) →
        ∃ i < m, NamedAt config events i c purpose principal email) n := by
  refine Prog.ensures_bind (consume_ensures.imp fun m found _ hfound => ?_)
  cases found with
  | none => exact fun principal email h => by cases h
  | some redeemed =>
      obtain ⟨i, hi, hredeems⟩ := hfound redeemed rfl
      dsimp only
      split_ifs
      · intro principal email h
        obtain ⟨principal', hprincipal, heq⟩ := Option.map_eq_some_iff.mp h
        obtain ⟨rfl, rfl⟩ := Prod.mk.inj heq
        exact ⟨i, hi, redeemed, hredeems, hprincipal, rfl⟩
      · exact fun principal email h => by cases h

theorem resetPassword_ensures {declared : PasswordProvider} {secretHash : String} {i : ℕ}
    {f : Bool → Handler} (hdeclared : declared ∈ config.password) (hi : i < n)
    (hnamed : NamedAt config events i c .passwordReset principal email) :
    (resetPassword principal declared.name email secretHash now).Ensures (serve config)
      AuthStore.empty events (Done config events) c req f
      (fun m changed => changed = true →
        ∃ j < m, SetsAt config events j principal email secretHash) n := by
  intro k changed hnk hdone hstep hrun
  have hcommits := hstep.commits hrun
  rcases resetTx_run hrun with ⟨rfl, hstore⟩ | ⟨rfl, s₁, hsets, hstore⟩
  · exact ⟨hdone.idle hstore, fun h => by cases h⟩
  · have hset : SetsAt config events k principal email secretHash :=
      ⟨c, ⟨i, Nat.lt_of_lt_of_le hi hnk, hnamed⟩, req, now, declared, hdeclared, hcommits⟩
    exact ⟨hdone.step hstore (.reset declared _ _ _ now s₁ hdeclared hset hsets),
      fun _ => ⟨k, Nat.lt_succ_self k, hset⟩⟩

theorem claimAddress_ensures {declared : PasswordProvider} {secret : String}
    {f : Option PrincipalId → Handler} (hdeclared : declared ∈ config.password) :
    (claimAddress v declared.name email secret now).Ensures (serve config) AuthStore.empty events
      (Done config events) c req f (fun m created => ∀ principal, created = some principal →
        ∃ i ≤ m, (servedAt config events i).Reaches principal email) n := by
  refine Prog.ensures_query fun k _ _ _ _ => ?_
  cases (servedAt config events k).verifiedPrincipal email with
  | some _ => exact fun principal h => by cases h
  | none =>
      refine Prog.ensures_bind (Prog.ensures_query fun k _ _ _ _ => ?_)
      cases (servedAt config events k).lookupAccount declared.name email with
      | some _ => exact fun principal h => by cases h
      | none =>
          refine Prog.ensures_atomically fun k created _ hdone hcommits => ?_
          rcases signUpTx_run hcommits.run with ⟨rfl, hstore⟩ | ⟨hu, ha, hfinish⟩
          · exact ⟨hdone.idle hstore, fun principal h => by cases h⟩
          · obtain ⟨rfl, hstore⟩ := Prod.mk.inj (Option.some.inj hfinish)
            have hregisters : RegistersAt config events k v.minted email secret :=
              ⟨c, req, now, declared, hdeclared, hcommits⟩
            refine ⟨hdone.step hstore.symm (.registered declared _ _ _ now hu ha hdeclared hregisters),
              fun principal h => ⟨k + 1, Nat.le_refl _, Or.inl ⟨declared.name, ?_⟩⟩⟩
            cases h
            rw [servedAt, ← hstore]
            exact AuthStore.lookupAccount_eq_some.mpr
              ⟨_, (UniqueTable.mem_put ha).mpr (Or.inr rfl), rfl, rfl⟩

theorem resetTarget_ensures {f : Option PrincipalId → Handler} :
    (resetTarget provider email).Ensures (serve config) AuthStore.empty events (Done config events) c
      req f (fun m target => ∀ principal, target = some principal →
        ∃ i ≤ m, (servedAt config events i).Reaches principal email) n := by
  refine Prog.ensures_query fun k _ _ _ _ => ?_
  cases hfound : (servedAt config events k).lookupCredential provider email with
  | some found =>
      intro principal h
      cases h
      exact ⟨k, Nat.le_succ k, .of_credential hfound⟩
  | none => exact Prog.ensures_query fun k _ _ _ _ principal h => ⟨k, Nat.le_succ k, .of_verified h⟩

theorem upsertPrincipal_ensures {i : ℕ} {magic : String} {minted : PrincipalId}
    {f : Principal → Handler} (hmagic : magic ∈ config.magic) (hi : i < n)
    (hlinked : LinkedAt config events i c email) :
    (upsertPrincipal magic email ⟨some email, none, none⟩ now minted).Ensures (serve config)
      AuthStore.empty events (Done config events) c req f
      (fun m principal => ∃ j ≤ m, (servedAt config events j).lookupAccount magic email =
        some principal.id) n := by
  refine Prog.ensures_query fun j hnj _ _ _ => ?_
  cases hexisting : (servedAt config events j).lookupAccount magic email with
  | some existing =>
      refine Prog.ensures_statement fun k u hjk hdone hexecutes => ?_
      obtain ⟨-, hstore⟩ := Prod.mk.inj (Option.some.inj hexecutes.run)
      have hj : j ≤ k := Nat.le_of_succ_le hjk
      exact ⟨hdone.step hstore.symm (.refreshed j magic existing email now hmagic hj hexisting),
        j, Nat.le_succ_of_le hj, hexisting⟩
  | none =>
      refine Prog.ensures_atomically fun k created hjk hdone hcommits => ?_
      rcases signUpTx_run hcommits.run with ⟨rfl, hstore⟩ | ⟨hu, ha, hfinish⟩
      · refine ⟨hdone.idle hstore, Prog.ensures_query fun k' _ _ _ _ => ?_⟩
        cases hwinner : (servedAt config events k').lookupAccount magic email with
        | some winner => exact ⟨k', Nat.le_succ k', hwinner⟩
        | none => exact fun _ g => g.elim
      · obtain ⟨rfl, hstore⟩ := Prod.mk.inj (Option.some.inj hfinish)
        refine ⟨hdone.step hstore.symm (.signedUp c i magic _ _ now hu ha hmagic (by omega) hlinked),
          k + 1, Nat.le_refl _, ?_⟩
        rw [servedAt, ← hstore]
        exact AuthStore.lookupAccount_eq_some.mpr
          ⟨_, (UniqueTable.mem_put ha).mpr (Or.inr rfl), rfl, rfl⟩

/-- How a principal came to be the target of a link: it has proven the address, or signs in
with it and has not. -/
def Targeted (config : Config) (events : List (Event Request)) (j : ℕ) (target : PrincipalId)
    (email : String) (tookOver : Bool) : Prop :=
  tookOver = false ∧ (servedAt config events j).verifiedPrincipal email = some target ∨
    tookOver = true ∧
      ∃ provider, (servedAt config events j).lookupAccount provider email = some target

theorem magicTarget_ensures {passwordProvider : Option String}
    {f : Option PrincipalId × Bool → Handler} :
    (magicTarget passwordProvider email).Ensures (serve config) AuthStore.empty events
      (Done config events) c req f (fun m found => ∀ target, found.1 = some target →
        ∃ j ≤ m, Targeted config events j target email found.2) n := by
  refine Prog.ensures_query fun k _ _ _ _ => ?_
  cases hverified : (servedAt config events k).verifiedPrincipal email with
  | some principal =>
      intro target h
      cases h
      exact ⟨k, Nat.le_succ k, Or.inl ⟨rfl, hverified⟩⟩
  | none =>
      cases passwordProvider with
      | some provider =>
          exact Prog.ensures_query fun k _ _ _ _ target h =>
            ⟨k, Nat.le_succ k, Or.inr ⟨rfl, provider, h⟩⟩
      | none => exact fun target h => by cases h

theorem linkMagic_ensures {i j : ℕ} {magic : String} {target : PrincipalId} {tookOver : Bool}
    {f : MagicLinked → Handler} (hmagic : magic ∈ config.magic) (hi : i < n)
    (hlinked : LinkedAt config events i c email) (hj : j ≤ n)
    (htarget : Targeted config events j target email tookOver) :
    (linkMagic target magic email tookOver now).Ensures (serve config) AuthStore.empty events
      (Done config events) c req f (fun m linked => ∃ j ≤ m,
        (servedAt config events j).lookupAccount magic email = some linked.principal) n := by
  refine Prog.ensures_atomically fun k u hnk hdone hcommits => ⟨?_, ?_⟩
  · have hstore := linkTx_run hcommits.run
    have hik : i < k := Nat.lt_of_lt_of_le hi hnk
    have hjk : j ≤ k := Nat.le_trans hj hnk
    rcases htarget with ⟨rfl, hverified⟩ | ⟨rfl, provider, hlookup⟩
    · exact hdone.step hstore (.linked c i j magic target email now hmagic hik hlinked hjk hverified)
    · exact hdone.step hstore
        (.tookOver c i j magic provider target email now hmagic hik hlinked hjk hlookup)
  · refine Prog.ensures_query fun k' _ _ _ _ => ?_
    cases hprincipal : (servedAt config events k').lookupAccount magic email with
    | some principal => exact ⟨k', Nat.le_succ k', hprincipal⟩
    | none => exact fun _ g => g.elim

theorem resolveMagicLink_resolves {i : ℕ} {magic : String} {passwordProvider : Option String}
    {minted : PrincipalId} {f : MagicLinked → Handler} (hmagic : magic ∈ config.magic) (hi : i < n)
    (hlinked : LinkedAt config events i c email) :
    (resolveMagicLink magic passwordProvider email now minted).Ensures (serve config)
      AuthStore.empty events (Done config events) c req f (fun m linked => ∃ j ≤ m,
        (servedAt config events j).lookupAccount magic email = some linked.principal) n := by
  refine Prog.ensures_query fun k hnk _ _ _ => ?_
  cases hprincipal : (servedAt config events k).lookupAccount magic email with
  | some principal => exact ⟨k, Nat.le_succ k, hprincipal⟩
  | none =>
      refine Prog.ensures_bind (magicTarget_ensures.imp fun m found hm hfound => ?_)
      obtain ⟨target, tookOver⟩ := found
      cases target with
      | some target =>
          obtain ⟨j, hj, htarget⟩ := hfound target rfl
          exact linkMagic_ensures hmagic (by omega) hlinked hj htarget
      | none =>
          exact Prog.ensures_bind ((upsertPrincipal_ensures hmagic (by omega) hlinked).imp
            fun m principal _ h => h)

end

/-! ### What the routes do -/

section
variable {c n : ℕ} {req : Request} {v : Visit} {f : Response → Handler}

theorem withField_ensures {α : Type} {status : ℕ} {found : Option α} {next : α → Handler}
    {J : ℕ → Prop} (h : ∀ a ∈ found, (next a).Ensures (serve config) AuthStore.empty events J c req f
      (fun _ _ => True) n) :
    (withField status found next).Ensures (serve config) AuthStore.empty events J c req f
      (fun _ _ => True) n := by
  cases found with
  | none => trivial
  | some a => exact h a rfl

theorem register_ensures (hconfig : config.VerifiesSignUps) {email secret : Option String} :
    (register config v email secret).Ensures (serve config) AuthStore.empty events
      (Done config events) c req f (fun _ _ => True) n := by
  refine withField_ensures fun declared hdeclared => withField_ensures fun email _ =>
    withField_ensures fun secret _ => ?_
  rw [if_pos (hconfig declared hdeclared).1]
  split_ifs
  · refine Prog.ensures_bind ((claimAddress_ensures hdeclared).imp fun m created _ hcreated => ?_)
    cases created with
    | some principal => exact mailLink_ensures fun p hp => hcreated p hp
    | none => exact Prog.ensures_bind (admitMail_ensures.imp fun _ _ _ _ => trivial)
  · trivial

theorem login_ensures (hconfig : config.VerifiesSignUps) {email : Option String} {password : String}
    {admitted : Bool} : (serve config (.login v email password admitted)).Ensures (serve config)
      AuthStore.empty events (Done config events) c (.login v email password admitted) f
      (fun _ _ => True) n := by
  refine withField_ensures fun declared hdeclared => ?_
  split_ifs
  · refine withField_ensures fun email' hemail => ?_
    obtain rfl : email = some email' := hemail
    refine Prog.ensures_query fun i _ _ hreads _ => ?_
    cases hfound : (servedAt config events i).lookupCredential declared.name email' with
    | none => trivial
    | some found =>
        dsimp only
        split_ifs with hverifies
        · have hlooks : LooksUpAt config events i c declared email' found :=
            ⟨v, password, admitted, hfound ▸ hreads, hverifies⟩
          unfold passwordWasRight
          rw [if_pos (hconfig declared hdeclared).1]
          refine Prog.ensures_query fun j hij _ _ _ => ?_
          split_ifs with hproven
          · refine openSession_ensures fun k hjk => ?_
            exact .password hij hjk hdeclared hlooks rfl (Bool.and_eq_true_iff.mp hproven).1
          · unfold unverifiedLogin
            split_ifs
            · refine mailLink_ensures fun principal hprincipal => ?_
              cases hprincipal
              exact ⟨i, by omega, .of_credential hfound⟩
            · trivial
        · trivial
  · trivial

theorem reset_ensures {token : Option TokenHash} {secret : Option String} :
    (reset config v token secret).Ensures (serve config) AuthStore.empty events
      (Done config events) c req f (fun _ _ => True) n := by
  refine withField_ensures fun declared hdeclared => withField_ensures fun token _ =>
    withField_ensures fun secret _ => Prog.ensures_bind (redeem_ensures.imp fun m found _ hfound => ?_)
  cases found with
  | none => trivial
  | some found =>
      obtain ⟨principal, email⟩ := found
      obtain ⟨i, hi, hnamed⟩ := hfound principal email rfl
      have hdeclared' : declared ∈ config.password := (Option.filter_eq_some_iff.mp hdeclared).1
      refine Prog.ensures_bind ((resetPassword_ensures hdeclared' hi hnamed).imp
        fun m' changed hm' hchanged => ?_)
      split_ifs with hset
      · obtain ⟨j, hj, hsets⟩ := hchanged hset
        refine Prog.ensures_bind ((noteVerified_ensures fun k hk =>
          .reset (Nat.lt_of_lt_of_le hj hk) hsets).imp fun m'' _ hm'' _ => ?_)
        exact openSession_ensures fun k hk => .named (by omega) hnamed
      · trivial

theorem magicSignIn_ensures {token : Option TokenHash} :
    (magicSignIn config v token).Ensures (serve config) AuthStore.empty events (Done config events) c
      req f (fun _ _ => True) n := by
  refine withField_ensures fun magic hmagic => withField_ensures fun token _ =>
    Prog.ensures_bind (consume_ensures.imp fun m found _ hfound => ?_)
  cases found with
  | none => trivial
  | some redeemed =>
      obtain ⟨i, hi, hredeems⟩ := hfound redeemed rfl
      have hlinked : LinkedAt config events i c redeemed.email := ⟨redeemed, hredeems, rfl⟩
      dsimp only
      split_ifs
      · refine Prog.ensures_bind ((resolveMagicLink_resolves hmagic hi hlinked).imp
          fun m' linked hm' hresolved => ?_)
        obtain ⟨j, hj, hlookup⟩ := hresolved
        refine Prog.ensures_bind ((noteVerified_ensures fun k hk =>
          .linked (Nat.le_trans hj hk) hmagic hlookup).imp fun m'' _ hm'' _ => ?_)
        exact openSession_ensures fun k hk => .linked (by omega) hlinked (by omega) hmagic hlookup
      · trivial

theorem verify_ensures {token : Option TokenHash} :
    (verify config v token).Ensures (serve config) AuthStore.empty events (Done config events) c
      req f (fun _ _ => True) n := by
  refine withField_ensures fun declared _ => withField_ensures fun token _ =>
    Prog.ensures_bind (redeem_ensures.imp fun m found _ hfound => ?_)
  cases found with
  | none => trivial
  | some found =>
      obtain ⟨principal, email⟩ := found
      obtain ⟨i, hi, hnamed⟩ := hfound principal email rfl
      refine Prog.ensures_bind ((noteVerified_ensures fun k hk =>
        .verified (Nat.lt_of_lt_of_le hi hk) hnamed).imp fun m' _ hm' _ => ?_)
      exact openSession_ensures fun k hk => .named (by omega) hnamed

theorem serve_ensures (hconfig : config.VerifiesSignUps) (req : Request) :
    (serve config req).Ensures (serve config) AuthStore.empty events (Done config events) c req .done
      (fun _ _ => True) n := by
  cases req with
  | register v email secret => exact register_ensures hconfig
  | login v email password admitted => exact login_ensures hconfig
  | logout v =>
      change (logout v).Ensures _ _ _ _ _ _ _ _ _
      unfold logout
      cases v.session with
      | none => trivial
      | some token => exact Prog.ensures_bind (endSessions_ensures.imp fun _ _ _ _ => trivial)
  | logoutAll v =>
      change (logoutAll v).Ensures _ _ _ _ _ _ _ _ _
      unfold logoutAll
      cases v.principal with
      | none => trivial
      | some principal => exact Prog.ensures_bind (endSessions_ensures.imp fun _ _ _ _ => trivial)
  | forgot v email =>
      refine withField_ensures fun declared _ => withField_ensures fun email _ =>
        Prog.ensures_bind (admitMail_ensures.imp fun m admitted _ _ => ?_)
      split_ifs
      · refine Prog.ensures_bind (resetTarget_ensures.imp fun m' target _ htarget => ?_)
        cases target with
        | none => trivial
        | some principal =>
            exact Prog.ensures_bind ((issue_ensures fun p hp => htarget p hp).imp
              fun _ _ _ _ => trivial)
      · trivial
  | reset v token secret => exact reset_ensures
  | magicStart v email =>
      exact withField_ensures fun provider _ => withField_ensures fun email _ =>
        mailLink_ensures fun p hp => by cases hp
  | magicSignIn v token => exact magicSignIn_ensures
  | verify v token => exact verify_ensures

theorem done (hconfig : config.VerifiesSignUps) {n : ℕ} (hn : n ≤ events.length) :
    Done config events n :=
  run_ensures (fun _ hk => absurd hk (Nat.not_lt_zero _)) (fun _ _ hsame h => h.idle hsame)
    (fun _ req _ => serve_ensures hconfig req) hn

end

end Albedo.Auth
