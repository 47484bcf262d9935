import Albedo.Auth.Deeds

/-!
# No pre-account takeover

Once a magic link for an address has resolved to a principal, every way left into it comes
from somebody who redeemed a link mailed to that address: every password that signs in, every
identity, every session and every token. This is so as long as a login that found the address
unproven still finds its credential as it opens the session. The code does not look again, so
a squatter whose login is under way as the link takes the account over gets a session for it.
-/
namespace Albedo.Auth
open Interleave

variable (config : Config) (events : List (Event Request))

inductive ResolvesAt (m c : ℕ) (email : String) (principal : PrincipalId) : Prop
  | found {v : Visit} {token : Option TokenHash} {magic : String} : magic ∈ config.magic →
      Reads (serve config) AuthStore.empty events m c (.magicSignIn v token)
        (fun s => s.lookupAccount magic email) (some principal) →
      ResolvesAt m c email principal
  | created {v : Visit} {token : Option TokenHash} {magic : String} {now : ℤ} :
      magic ∈ config.magic →
      Commits (serve config) AuthStore.empty events m c (.magicSignIn v token)
        (signUpTx ⟨principal, ⟨some email, none, none⟩, now, now⟩ ⟨principal, magic, email, now⟩
          (.commit true)) true →
      ResolvesAt m c email principal

/-- The password was set by a link mailed to the address, or the sign-up that set it was
verified by one. -/
inductive Established (n : ℕ) (principal : PrincipalId) (email secretHash : String) : Prop
  | set {k : ℕ} : k < n → SetsAt config events k principal email secretHash →
      Established n principal email secretHash
  | verified {k i c : ℕ} : k < n → RegistersAt config events k principal email secretHash → i < n →
      NamedAt config events i c .verifyEmail principal email →
      Established n principal email secretHash

/-- The identity came with, or was confirmed by, a link mailed to its address. -/
def Claimed (n : ℕ) (a : Account) : Prop :=
  ∃ i < n, ∃ c, a.provider ∈ config.magic ∧ LinkedAt config events i c a.subject ∨
    ∃ purpose, NamedAt config events i c purpose a.principal a.subject

/-- A session is opened with a link mailed to the address, or with an established password. -/
inductive Entered (k c : ℕ) (principal : PrincipalId) (email : String) : Prop
  | linked {i : ℕ} : i < k → LinkedAt config events i c email → Entered k c principal email
  | named {i : ℕ} {purpose : Purpose} : i < k → NamedAt config events i c purpose principal email →
      Entered k c principal email
  | password {i : ℕ} {declared : PasswordProvider} {secretHash : String} : i < k →
      declared ∈ config.password → LooksUpAt config events i c declared email ⟨principal, secretHash⟩ →
      Established config events k principal email secretHash → Entered k c principal email

/-- Every way into the principal is of somebody who reads mail to the address. -/
structure Owned (n : ℕ) (principal : PrincipalId) (email : String) : Prop where
  passwords : ∀ provider subject found,
    (servedAt config events n).lookupCredential provider subject = some found →
    found.principal = principal → Established config events n principal email found.secretHash
  accounts : ∀ a ∈ (servedAt config events n).accounts, a.principal = principal →
    a.subject = email ∧ Claimed config events n a
  sessions : ∀ r ∈ (servedAt config events n).sessions, r.principal = principal →
    ∃ k < n, ∃ c, OpensAt config events k c r ∧ Entered config events k c principal email
  tokens : ∀ t ∈ (servedAt config events n).emailTokens, t.principal = some principal → t.email = email

/-- A magic link leaves nobody else a way in, and no session is opened with a password that
nobody has proven. -/
structure NoTakeover : Prop where
  owned : ∀ m c email principal, ResolvesAt config events m c email principal →
    ∀ n, m < n → n ≤ events.length → Owned config events n principal email
  entered : ∀ k c r, OpensAt config events k c r →
    ∃ email, Entered config events k c r.principal email

/-- A login that found the address of its principal unproven still finds the credential it
verified when it opens a session. -/
def UnprovenStands : Prop :=
  ∀ i k c declared email found session, i < k → declared ∈ config.password →
    LooksUpAt config events i c declared email found → OpensAt config events k c session →
    (servedAt config events i).isVerified found.principal email = true ∨
      (servedAt config events k).lookupCredential declared.name email = some found

/-! ### One address for each principal -/

def AuthStore.AddressOf (s : AuthStore) (principal : PrincipalId) (email : String) : Prop :=
  ∃ u ∈ s.users, u.principal = principal ∧ u.profile.email = some email

/-- Everything that names a principal and an address names the principal's address. -/
structure AuthStore.Addressed (config : Config) (s : AuthStore) : Prop where
  accounts : ∀ a ∈ s.accounts, s.AddressOf a.principal a.subject
  credentials : ∀ c ∈ s.credentials, (∃ email, s.AddressOf c.principal email) ∧
    (∃ secretHash, c.secretHash = some secretHash) ∧ ∃ declared ∈ config.password, c.provider = declared.name
  verified : ∀ v ∈ s.emailVerified, s.AddressOf v.principal v.email
  tokens : ∀ t ∈ s.emailTokens, ∀ principal, t.principal = some principal → s.AddressOf principal t.email

structure AuthStore.Grows (config : Config) (s s' : AuthStore) : Prop where
  addresses : ∀ principal email, s.AddressOf principal email → s'.AddressOf principal email
  verified : ∀ v ∈ s.emailVerified, v ∈ s'.emailVerified
  magic : ∀ a ∈ s.accounts, a.provider ∈ config.magic → a ∈ s'.accounts

/-- So far every table named one address for each principal, and none was lost. -/
structure Past (k : ℕ) : Prop where
  addressed : ∀ i ≤ k, (servedAt config events i).Addressed config
  grows : ∀ i ≤ k, (servedAt config events i).Grows config (servedAt config events k)

variable {config events}

section
variable {i j k c : ℕ} {s s' : AuthStore} {principal : PrincipalId} {email email' secretHash : String}
variable {purpose : Purpose}

theorem AuthStore.AddressOf.unique (h : s.AddressOf principal email)
    (h' : s.AddressOf principal email') : email = email' := by
  obtain ⟨u, hu, hprincipal, hemail⟩ := h
  obtain ⟨u', hu', hprincipal', hemail'⟩ := h'
  obtain rfl := UniqueTable.eq_of_key hu hu' (hprincipal.trans hprincipal'.symm)
  exact Option.some.inj (hemail.symm.trans hemail')

theorem AuthStore.Grows.refl (s : AuthStore) : s.Grows config s :=
  ⟨fun _ _ h => h, fun _ h => h, fun _ h _ => h⟩

theorem AuthStore.Reaches.addressOf (h : s.Reaches principal email) (hs : s.Addressed config) :
    s.AddressOf principal email := by
  rcases h with ⟨provider, hlookup⟩ | ⟨v, hv, rfl, rfl⟩
  · obtain ⟨a, ha, hidentity, rfl⟩ := AuthStore.lookupAccount_eq_some.mp hlookup
    obtain ⟨-, rfl⟩ := Prod.mk.inj hidentity
    exact hs.accounts a ha
  · exact hs.verified v hv

theorem LooksUpAt.found {declared : PasswordProvider} {found : PasswordCredential}
    (h : LooksUpAt config events i c declared email found) :
    (servedAt config events i).lookupCredential declared.name email = some found := by
  obtain ⟨v, password, admitted, ⟨-, -, hfound, -⟩, -⟩ := h
  exact hfound

theorem Past.reaches (h : Past config events k) (hi : i ≤ k)
    (hreaches : (servedAt config events i).Reaches principal email) :
    (servedAt config events k).AddressOf principal email :=
  (h.grows i hi).addresses _ _ (hreaches.addressOf (h.addressed i hi))

theorem RedeemsAt.spent {redeemed : Redeemed} (h : RedeemsAt config events i c purpose redeemed) :
    ∃ t ∈ (servedAt config events i).emailTokens, t.redeemed = redeemed ∧
      t ∉ (servedAt config events (i + 1)).emailTokens ∧
      (servedAt config events (i + 1)).credentials = (servedAt config events i).credentials := by
  obtain ⟨req, token, now, hcommits⟩ := h
  rcases consumeTx_run hcommits.run with ⟨hnone, -⟩ | ⟨t, hlive, hredeemed, hstore⟩
  · cases hnone
  · obtain ⟨ht, rfl, -, -⟩ := AuthStore.liveToken_some.mp hlive
    refine ⟨t, ht, (Option.some.inj hredeemed).symm, ?_, ?_⟩
    · rw [servedAt, hstore]
      exact fun hkept => of_decide_eq_false (UniqueTable.mem_delete.mp hkept).2 rfl
    · rw [servedAt, hstore]
      rfl

theorem RedeemsAt.mine {redeemed : Redeemed} (h : RedeemsAt config events i c purpose redeemed) :
    Mine events c i := by
  obtain ⟨req, token, now, next, hstep, -⟩ := h
  exact hstep.mine

theorem Past.named (h : Past config events k) (hi : i ≤ k)
    (hnamed : NamedAt config events i c purpose principal email) :
    (servedAt config events k).AddressOf principal email := by
  obtain ⟨redeemed, hredeems, hprincipal, rfl⟩ := hnamed
  obtain ⟨t, ht, rfl, -⟩ := hredeems.spent
  exact (h.grows i hi).addresses _ _ ((h.addressed i hi).tokens t ht principal hprincipal)

theorem SetsAt.named (h : SetsAt config events j principal email secretHash) :
    ∃ c, ∃ i < j, NamedAt config events i c .passwordReset principal email := by
  obtain ⟨c, hnamed, -⟩ := h
  exact ⟨c, hnamed⟩

theorem Past.sets (h : Past config events k) (hj : j ≤ k)
    (hsets : SetsAt config events j principal email secretHash) :
    (servedAt config events k).AddressOf principal email := by
  obtain ⟨c, i, hi, hnamed⟩ := hsets.named
  exact h.named (by omega) hnamed

end

/-! ### What one step does to the tables -/

section
variable {k : ℕ} {s' : AuthStore} {principal : PrincipalId} {email secretHash : String}

theorem AuthStore.AddressOf.not_free {s : AuthStore} {user : User}
    (h : s.AddressOf user.principal email) : ¬ s.users.Free user := by
  obtain ⟨u, hu, hprincipal, -⟩ := h
  exact fun hfree => UniqueTable.free_iff.mp hfree u hu hprincipal

theorem Deed.addressOf (h : Deed config events k (servedAt config events k) s')
    (hpast : Past config events k) (hs : (servedAt config events k).AddressOf principal email) :
    s'.AddressOf principal email := by
  have hput : ∀ user hu, ∃ u ∈ (servedAt config events k).users.put user hu,
      u.principal = principal ∧ u.profile.email = some email := by
    intro user hu
    obtain ⟨u, hmem, hu⟩ := hs
    exact ⟨u, (UniqueTable.mem_put _).mpr (Or.inl hmem), hu⟩
  cases h with
  | registered declared minted email' secretHash now hu ha => exact hput _ hu
  | signedUp c i magic minted email' now hu ha => exact hput _ hu
  | refreshed i magic existing email' now hmagic hi hlookup =>
      obtain ⟨u, hu, rfl, hemail⟩ := hs
      refine ⟨_, UniqueTable.mem_rows.mpr (List.mem_map_of_mem hu), ?_⟩
      split_ifs with hexisting
      · -- the row is rewritten with the address it has
        have hknown := hpast.reaches hi (Or.inl ⟨magic, hlookup⟩)
        rw [← of_decide_eq_true hexisting] at hknown
        obtain rfl := hknown.unique ⟨u, hu, rfl, hemail⟩
        exact ⟨rfl, rfl⟩
      · exact ⟨rfl, hemail⟩
  | reset declared p e h now s₁ hdeclared hset hsets =>
      cases hsets <;> exact hs
  | _ => exact hs

theorem Deed.accounts (h : Deed config events k (servedAt config events k) s')
    (hconfig : config.VerifiesSignUps) (hpast : Past config events k) {a : Account}
    (ha : a ∈ s'.accounts) : a ∈ (servedAt config events k).accounts ∨
      s'.AddressOf a.principal a.subject ∧ (Claimed config events (k + 1) a ∨
        a.provider ∉ config.magic ∧
          ∀ email, ¬ (servedAt config events k).AddressOf a.principal email) := by
  have haddress := fun p e => @Deed.addressOf _ _ _ _ p e h hpast
  cases h with
  | registered declared minted email secretHash now hu hfree hdeclared =>
      rcases (UniqueTable.mem_put hfree).mp ha with hold | rfl
      · exact Or.inl hold
      · exact Or.inr ⟨⟨_, (UniqueTable.mem_put hu).mpr (Or.inr rfl), rfl, rfl⟩,
          Or.inr ⟨(hconfig declared hdeclared).2, fun e he => he.not_free hu⟩⟩
  | signedUp c i magic minted email now hu hfree hmagic hi hlinked =>
      rcases (UniqueTable.mem_put hfree).mp ha with hold | rfl
      · exact Or.inl hold
      · exact Or.inr ⟨⟨_, (UniqueTable.mem_put hu).mpr (Or.inr rfl), rfl, rfl⟩,
          Or.inl ⟨i, Nat.lt_succ_of_lt hi, c, Or.inl ⟨hmagic, hlinked⟩⟩⟩
  | reset declared p e secretHash now s₁ hdeclared hset hsets =>
      change a ∈ s₁.accounts at ha
      have hknown := hpast.sets (Nat.le_refl k) hset
      obtain ⟨c, i, hi, hnamed⟩ := hset.named
      cases hsets with
      | replaced _ => exact Or.inl ha
      | first _ _ _ =>
          rcases UniqueTable.mem_insertOrIgnore.mp ha with hold | ⟨rfl, -⟩
          · exact Or.inl hold
          · exact Or.inr ⟨haddress _ _ hknown,
              Or.inl ⟨i, Nat.lt_succ_of_lt hi, c, Or.inr ⟨_, hnamed⟩⟩⟩
  | linked c i j magic target email now hmagic hi hlinked hj hverified =>
      rcases UniqueTable.mem_insertOrIgnore.mp ha with hold | ⟨rfl, -⟩
      · exact Or.inl hold
      · exact Or.inr ⟨haddress _ _ (hpast.reaches hj (.of_verified hverified)),
          Or.inl ⟨i, Nat.lt_succ_of_lt hi, c, Or.inl ⟨hmagic, hlinked⟩⟩⟩
  | tookOver c i j magic provider target email now hmagic hi hlinked hj hlookup =>
      rcases UniqueTable.mem_insertOrIgnore.mp (UniqueTable.mem_delete.mp ha).1 with hold | ⟨rfl, -⟩
      · exact Or.inl hold
      · exact Or.inr ⟨haddress _ _ (hpast.reaches hj (Or.inl ⟨provider, hlookup⟩)),
          Or.inl ⟨i, Nat.lt_succ_of_lt hi, c, Or.inl ⟨hmagic, hlinked⟩⟩⟩
  | _ => exact Or.inl ha

theorem Deed.credentials (h : Deed config events k (servedAt config events k) s')
    (hpast : Past config events k) {c : Credential} (hc : c ∈ s'.credentials) :
    c ∈ (servedAt config events k).credentials ∨
      ∃ email secretHash, c.secretHash = some secretHash ∧ s'.AddressOf c.principal email ∧
        (∃ declared ∈ config.password, c.provider = declared.name) ∧
        (SetsAt config events k c.principal email secretHash ∨
          RegistersAt config events k c.principal email secretHash ∧
            ∀ e, ¬ (servedAt config events k).AddressOf c.principal e) := by
  have haddress := fun p e => @Deed.addressOf _ _ _ _ p e h hpast
  cases h with
  | registered declared minted email secretHash now hu ha hdeclared hregisters =>
      rcases List.mem_append.mp hc with hold | hnew
      · exact Or.inl hold
      · obtain rfl := List.mem_singleton.mp hnew
        exact Or.inr ⟨email, secretHash, rfl, ⟨_, (UniqueTable.mem_put hu).mpr (Or.inr rfl), rfl, rfl⟩,
          ⟨declared, hdeclared, rfl⟩, Or.inr ⟨hregisters, fun e he => he.not_free hu⟩⟩
  | reset declared p e secretHash now s₁ hdeclared hset hsets =>
      change c ∈ s₁.credentials at hc
      have hknown := haddress _ _ (hpast.sets (Nat.le_refl k) hset)
      cases hsets with
      | replaced _ =>
          obtain ⟨c₀, hc₀, rfl⟩ := List.mem_map.mp hc
          split_ifs with hholds
          · obtain ⟨⟨rfl, hprovider⟩, -⟩ : (c₀.principal = p ∧ c₀.provider = declared.name) ∧ _ := by
              simpa [AuthStore.holdsSecret] using hholds
            exact Or.inr ⟨e, secretHash, rfl, hknown, ⟨declared, hdeclared, hprovider⟩, Or.inl hset⟩
          · exact Or.inl hc₀
      | first _ _ _ =>
          rcases List.mem_append.mp hc with hold | hnew
          · exact Or.inl hold
          · obtain rfl := List.mem_singleton.mp hnew
            exact Or.inr ⟨e, secretHash, rfl, hknown, ⟨declared, hdeclared, rfl⟩, Or.inl hset⟩
  | tookOver => exact Or.inl (List.mem_filter.mp hc).1
  | _ => exact Or.inl hc

theorem Deed.emailVerified (h : Deed config events k (servedAt config events k) s') {v : Verified}
    (hv : v ∈ s'.emailVerified) : v ∈ (servedAt config events k).emailVerified ∨
      ∃ c, Proves config events k c v.principal v.email := by
  cases h with
  | verified c principal email now hproves =>
      rcases UniqueTable.mem_insertOrIgnore.mp hv with hold | ⟨rfl, -⟩
      · exact Or.inl hold
      · exact Or.inr ⟨c, hproves⟩
  | reset declared p e secretHash now s₁ hdeclared hset hsets =>
      cases hsets <;> exact Or.inl hv
  | _ => exact Or.inl hv

theorem Proves.addressOf {c : ℕ} (h : Proves config events k c principal email)
    (hpast : Past config events k) : (servedAt config events k).AddressOf principal email := by
  cases h with
  | verified hi hnamed => exact hpast.named (Nat.le_of_lt hi) hnamed
  | reset hj hsets => exact hpast.sets (Nat.le_of_lt hj) hsets
  | linked hj _ hlookup => exact hpast.reaches hj (Or.inl ⟨_, hlookup⟩)

theorem Deed.emailTokens (h : Deed config events k (servedAt config events k) s')
    (hpast : Past config events k) {t : EmailToken} (ht : t ∈ s'.emailTokens) :
    t ∈ (servedAt config events k).emailTokens ∨
      ∀ principal, t.principal = some principal → s'.AddressOf principal t.email := by
  have haddress := fun p e => @Deed.addressOf _ _ _ _ p e h hpast
  cases h with
  | issued r now token hfree hreaches =>
      rcases (UniqueTable.mem_put hfree).mp ht with hold | rfl
      · exact Or.inl (UniqueTable.mem_delete.mp hold).1
      · refine Or.inr fun principal hprincipal => ?_
        obtain ⟨i, hi, hreached⟩ := hreaches principal hprincipal
        exact haddress _ _ (hpast.reaches hi hreached)
  | spent => exact Or.inl (UniqueTable.mem_delete.mp ht).1
  | tookOver => exact Or.inl (UniqueTable.mem_delete.mp ht).1
  | reset declared p e secretHash now s₁ hdeclared hset hsets =>
      have hkept := (UniqueTable.mem_delete.mp ht).1
      cases hsets <;> exact Or.inl hkept
  | _ => exact Or.inl ht

theorem Deed.sessions (h : Deed config events k (servedAt config events k) s') {r : Session}
    (hr : r ∈ s'.sessions) : r ∈ (servedAt config events k).sessions ∨
      ∃ c, Mine events c k ∧ Entitled config events k c r.principal := by
  cases h with
  | opened c p session hfree hmine hentitled =>
      rcases (UniqueTable.mem_put hfree).mp hr with hold | rfl
      · exact Or.inl (UniqueTable.mem_delete.mp hold).1
      · exact Or.inr ⟨c, hmine, hentitled⟩
  | ended => exact Or.inl (UniqueTable.mem_delete.mp hr).1
  | tookOver => exact Or.inl (UniqueTable.mem_delete.mp hr).1
  | reset declared p e secretHash now s₁ hdeclared hset hsets =>
      have hkept := (UniqueTable.mem_delete.mp hr).1
      cases hsets <;> exact Or.inl hkept
  | _ => exact Or.inl hr

theorem Deed.grows (h : Deed config events k (servedAt config events k) s')
    (hpast : Past config events k) : (servedAt config events k).Grows config s' where
  addresses := fun principal email => h.addressOf hpast
  verified := fun v hv => by
    cases h with
    | verified => exact UniqueTable.mem_insertOrIgnore.mpr (Or.inl hv)
    | reset declared p e secretHash now s₁ hdeclared hset hsets => cases hsets <;> exact hv
    | _ => exact hv
  magic := fun a ha hmagic => by
    cases h with
    | registered _ _ _ _ _ _ hfree => exact (UniqueTable.mem_put hfree).mpr (Or.inl ha)
    | signedUp _ _ _ _ _ _ _ hfree => exact (UniqueTable.mem_put hfree).mpr (Or.inl ha)
    | reset declared p e secretHash now s₁ hdeclared hset hsets =>
        cases hsets with
        | replaced => exact ha
        | first => exact UniqueTable.mem_insertOrIgnore.mpr (Or.inl ha)
    | linked => exact UniqueTable.mem_insertOrIgnore.mpr (Or.inl ha)
    | tookOver c i j magic provider target email now hmagic' =>
        refine UniqueTable.mem_delete.mpr ⟨UniqueTable.mem_insertOrIgnore.mpr (Or.inl ha), ?_⟩
        rw [Option.some.inj (hmagic.symm.trans hmagic')]
        simp
    | _ => exact ha

theorem Deed.addressed (h : Deed config events k (servedAt config events k) s')
    (hconfig : config.VerifiesSignUps) (hpast : Past config events k) : s'.Addressed config where
  accounts := fun a ha => by
    rcases h.accounts hconfig hpast ha with hold | ⟨haddress, -⟩
    · exact h.addressOf hpast ((hpast.addressed k (Nat.le_refl k)).accounts a hold)
    · exact haddress
  credentials := fun c hc => by
    rcases h.credentials hpast hc with hold | ⟨email, secretHash, hsecret, haddress, hprovider, -⟩
    · obtain ⟨⟨email, haddress⟩, hrest⟩ := (hpast.addressed k (Nat.le_refl k)).credentials c hold
      exact ⟨⟨email, h.addressOf hpast haddress⟩, hrest⟩
    · exact ⟨⟨email, haddress⟩, ⟨secretHash, hsecret⟩, hprovider⟩
  verified := fun v hv => by
    rcases h.emailVerified hv with hold | ⟨c, hproves⟩
    · exact h.addressOf hpast ((hpast.addressed k (Nat.le_refl k)).verified v hold)
    · exact h.addressOf hpast (hproves.addressOf hpast)
  tokens := fun t ht principal hprincipal => by
    rcases h.emailTokens hpast ht with hold | hnew
    · exact h.addressOf hpast ((hpast.addressed k (Nat.le_refl k)).tokens t hold principal hprincipal)
    · exact hnew principal hprincipal

end

/-! ### What holds throughout a run -/

def AuthStore.Proven (config : Config) (s : AuthStore) (principal : PrincipalId) (email : String) :
    Prop :=
  (∃ v ∈ s.emailVerified, v.principal = principal ∧ v.email = email) ∨
    ∃ a ∈ s.accounts, a.provider ∈ config.magic ∧ a.principal = principal ∧ a.subject = email

structure Secured (config : Config) (events : List (Event Request)) (n : ℕ) (principal : PrincipalId)
    (email : String) : Prop where
  hashes : ∀ c ∈ (servedAt config events n).credentials, c.principal = principal →
    ∀ secretHash, c.secretHash = some secretHash →
      Established config events n principal email secretHash
  accounts : ∀ a ∈ (servedAt config events n).accounts, a.principal = principal →
    Claimed config events n a

section
variable {m n k c : ℕ} {s s' : AuthStore} {principal : PrincipalId} {email secretHash : String}

theorem AuthStore.Grows.trans {s₂ : AuthStore} (h : s.Grows config s') (h' : s'.Grows config s₂) :
    s.Grows config s₂ where
  addresses := fun p e hp => h'.addresses p e (h.addresses p e hp)
  verified := fun v hv => h'.verified v (h.verified v hv)
  magic := fun a ha hmagic => h'.magic a (h.magic a ha hmagic) hmagic

theorem AuthStore.Grows.proven (h : s.Grows config s') (hs : s.Proven config principal email) :
    s'.Proven config principal email := by
  rcases hs with ⟨v, hv, heq⟩ | ⟨a, ha, hmagic, heq⟩
  · exact Or.inl ⟨v, h.verified v hv, heq⟩
  · exact Or.inr ⟨a, h.magic a ha hmagic, hmagic, heq⟩

theorem AuthStore.Proven.of_lookup {magic : String} (hmagic : magic ∈ config.magic)
    (h : s.lookupAccount magic email = some principal) : s.Proven config principal email := by
  obtain ⟨a, ha, hidentity, hprincipal⟩ := AuthStore.lookupAccount_eq_some.mp h
  obtain ⟨rfl, rfl⟩ := Prod.mk.inj hidentity
  exact Or.inr ⟨a, ha, hmagic, hprincipal, rfl⟩

theorem AuthStore.Proven.addressOf (h : s.Proven config principal email) (hs : s.Addressed config) :
    s.AddressOf principal email := by
  rcases h with ⟨v, hv, rfl, rfl⟩ | ⟨a, ha, -, rfl, rfl⟩
  · exact hs.verified v hv
  · exact hs.accounts a ha

theorem Established.later (h : Established config events m principal email secretHash) (hmn : m ≤ n) :
    Established config events n principal email secretHash := by
  cases h with
  | set hk hsets => exact .set (Nat.lt_of_lt_of_le hk hmn) hsets
  | verified hk hregisters hi hnamed =>
      exact .verified (Nat.lt_of_lt_of_le hk hmn) hregisters (Nat.lt_of_lt_of_le hi hmn) hnamed

theorem Claimed.later {a : Account} (h : Claimed config events m a) (hmn : m ≤ n) :
    Claimed config events n a := by
  obtain ⟨i, hi, hclaim⟩ := h
  exact ⟨i, Nat.lt_of_lt_of_le hi hmn, hclaim⟩

theorem past (hconfig : config.VerifiesSignUps) (hn : n ≤ events.length) : Past config events n := by
  induction n with
  | zero =>
      refine ⟨fun i hi => ?_, fun i hi => ?_⟩
      · obtain rfl := Nat.le_zero.mp hi
        exact ⟨fun a ha => absurd ha UniqueTable.not_mem_empty, fun c hc => absurd hc List.not_mem_nil,
          fun v hv => absurd hv UniqueTable.not_mem_empty,
          fun t ht => absurd ht UniqueTable.not_mem_empty⟩
      · obtain rfl := Nat.le_zero.mp hi
        exact .refl _
  | succ n ih =>
      have hpast := ih (Nat.le_of_succ_le hn)
      have hdeed := done hconfig hn n (Nat.lt_succ_self n)
      refine ⟨fun i hi => ?_, fun i hi => ?_⟩
      · rcases Nat.le_succ_iff.mp hi with hle | rfl
        · exact hpast.addressed i hle
        · exact hdeed.addressed hconfig hpast
      · rcases Nat.le_succ_iff.mp hi with hle | rfl
        · exact (hpast.grows i hle).trans (hdeed.grows hpast)
        · exact .refl _

theorem origin (hconfig : config.VerifiesSignUps) (hn : n ≤ events.length) {cred : Credential}
    (hcred : cred ∈ (servedAt config events n).credentials) (hsecret : cred.secretHash = some secretHash) :
    ∃ email, (servedAt config events n).AddressOf cred.principal email ∧
      ∃ k < n, SetsAt config events k cred.principal email secretHash ∨
        RegistersAt config events k cred.principal email secretHash := by
  induction n with
  | zero => exact absurd hcred List.not_mem_nil
  | succ n ih =>
      have hpast := past hconfig (Nat.le_of_succ_le hn)
      have hdeed := done hconfig hn n (Nat.lt_succ_self n)
      rcases hdeed.credentials hpast hcred with hold | ⟨email, hash, hnew, haddress, -, horigin⟩
      · obtain ⟨email, haddress, k, hk, horigin⟩ := ih (Nat.le_of_succ_le hn) hold
        exact ⟨email, hdeed.addressOf hpast haddress, k, Nat.lt_succ_of_lt hk, horigin⟩
      · obtain rfl := Option.some.inj (hnew.symm.trans hsecret)
        exact ⟨email, haddress, n, Nat.lt_succ_self n, horigin.imp_right And.left⟩

theorem SetsAt.replaces (h : SetsAt config events k principal email secretHash)
    (hpast : Past config events k) {cred : Credential}
    (hcred : cred ∈ (servedAt config events (k + 1)).credentials) (hprincipal : cred.principal = principal) :
    cred.secretHash = some secretHash := by
  obtain ⟨c, -, req, now, declared, hdeclared, hcommits⟩ := h
  rcases resetTx_run hcommits.run with ⟨hfalse, -⟩ | ⟨-, s₁, hsets, hstore⟩
  · cases hfalse
  rw [servedAt, hstore] at hcred
  change cred ∈ s₁.credentials at hcred
  have hholds : ∀ cred₀ ∈ (servedAt config events k).credentials, cred₀.principal = principal →
      AuthStore.holdsSecret principal declared.name cred₀ = true := by
    intro cred₀ hcred₀ hprincipal₀
    obtain ⟨-, ⟨hash, hhash⟩, declared', hdeclared', hprovider⟩ :=
      (hpast.addressed k (Nat.le_refl k)).credentials cred₀ hcred₀
    obtain rfl : declared' = declared := Option.some.inj (hdeclared'.symm.trans hdeclared)
    simp [AuthStore.holdsSecret, hprincipal₀, hprovider, hhash]
  cases hsets with
  | replaced _ =>
      obtain ⟨cred₀, hcred₀, rfl⟩ := List.mem_map.mp hcred
      split_ifs at hprincipal ⊢ with hupdated
      · rfl
      · exact absurd (hholds cred₀ hcred₀ hprincipal) hupdated
  | first hnone _ _ =>
      rcases List.mem_append.mp hcred with hold | hnew
      · have hfalse := hnone cred hold
        rw [hholds cred hold hprincipal] at hfalse
        cases hfalse
      · rw [List.mem_singleton.mp hnew]

theorem SetsAt.only (h : SetsAt config events k principal email secretHash)
    (hconfig : config.VerifiesSignUps) (hkn : k + 1 ≤ n) (hn : n ≤ events.length) {cred : Credential}
    (hcred : cred ∈ (servedAt config events n).credentials) (hprincipal : cred.principal = principal)
    {hash : String} (hsecret : cred.secretHash = some hash) :
    ∃ j < n, SetsAt config events j principal email hash := by
  induction n, hkn using Nat.le_induction with
  | base =>
      have hsame := h.replaces (past hconfig (Nat.le_of_succ_le hn)) hcred hprincipal
      obtain rfl := Option.some.inj (hsame.symm.trans hsecret)
      exact ⟨k, Nat.lt_succ_self k, h⟩
  | succ n hkn ih =>
      have hpast := past hconfig (Nat.le_of_succ_le hn)
      have hdeed := done hconfig hn n (Nat.lt_succ_self n)
      have haddress := hpast.sets (Nat.le_of_succ_le hkn) h
      rcases hdeed.credentials hpast hcred with hold | ⟨e, hash', hnew, haddress', -, horigin⟩
      · obtain ⟨j, hj, hsets⟩ := ih (Nat.le_of_succ_le hn) hold
        exact ⟨j, Nat.lt_succ_of_lt hj, hsets⟩
      · subst hprincipal
        obtain rfl := Option.some.inj (hnew.symm.trans hsecret)
        rcases horigin with hsets | ⟨-, hfresh⟩
        · obtain rfl := (hdeed.addressOf hpast haddress).unique haddress'
          exact ⟨n, Nat.lt_succ_self n, hsets⟩
        · exact absurd haddress (hfresh email)

theorem magic_claimed (hconfig : config.VerifiesSignUps) (hn : n ≤ events.length) {a : Account}
    (ha : a ∈ (servedAt config events n).accounts) (hmagic : a.provider ∈ config.magic) :
    Claimed config events n a := by
  induction n with
  | zero => exact absurd ha UniqueTable.not_mem_empty
  | succ n ih =>
      have hdeed := done hconfig hn n (Nat.lt_succ_self n)
      rcases hdeed.accounts hconfig (past hconfig (Nat.le_of_succ_le hn)) ha with
        hold | ⟨-, hclaimed | ⟨hother, -⟩⟩
      · exact (ih (Nat.le_of_succ_le hn) hold).later (Nat.le_succ n)
      · exact hclaimed
      · exact absurd hmagic hother

theorem Secured.step (h : Secured config events n principal email) (hconfig : config.VerifiesSignUps)
    (hn : n < events.length) (haddress : (servedAt config events n).AddressOf principal email) :
    Secured config events (n + 1) principal email := by
  have hpast := past hconfig (Nat.le_of_lt hn)
  have hdeed := done hconfig hn n (Nat.lt_succ_self n)
  constructor
  · rintro cred hcred rfl secretHash hsecret
    rcases hdeed.credentials hpast hcred with hold | ⟨e, hash, hnew, haddress', -, horigin⟩
    · exact (h.hashes cred hold rfl secretHash hsecret).later (Nat.le_succ n)
    · obtain rfl := Option.some.inj (hnew.symm.trans hsecret)
      rcases horigin with hsets | ⟨-, hfresh⟩
      · obtain rfl := (hdeed.addressOf hpast haddress).unique haddress'
        exact .set (Nat.lt_succ_self n) hsets
      · exact absurd haddress (hfresh email)
  · rintro a ha rfl
    rcases hdeed.accounts hconfig hpast ha with hold | ⟨-, hclaimed | ⟨-, hfresh⟩⟩
    · exact (h.accounts a hold rfl).later (Nat.le_succ n)
    · exact hclaimed
    · exact absurd haddress (hfresh email)

/-- How an address comes to be proven: a call proves it, or the principal is left with its magic
identities alone. -/
theorem Deed.newly_proven (h : Deed config events n (servedAt config events n) s')
    (hconfig : config.VerifiesSignUps) (hpast : Past config events n)
    (hproven : s'.Proven config principal email)
    (hnot : ¬ (servedAt config events n).Proven config principal email) :
    (∃ c, Proves config events n c principal email) ∨
      (∀ cred ∈ s'.credentials, cred.principal ≠ principal) ∧
        ∀ a ∈ s'.accounts, a.principal = principal → a.provider ∈ config.magic := by
  rcases hproven with ⟨v, hv, rfl, rfl⟩ | ⟨a, ha, hmagic, rfl, rfl⟩
  · rcases h.emailVerified hv with hold | hproves
    · exact absurd (Or.inl ⟨v, hold, rfl, rfl⟩) hnot
    · exact Or.inl hproves
  · have hnew : a ∉ (servedAt config events n).accounts :=
      fun hold => hnot (Or.inr ⟨a, hold, hmagic, rfl, rfl⟩)
    cases h with
    | registered declared minted email secretHash now hu hfree hdeclared =>
        rcases (UniqueTable.mem_put hfree).mp ha with hold | rfl
        · exact absurd hold hnew
        · exact absurd hmagic (hconfig declared hdeclared).2
    | signedUp c i magic minted email now hu hfree hmagic' hi hlinked =>
        rcases (UniqueTable.mem_put hfree).mp ha with hold | rfl
        · exact absurd hold hnew
        · have hpresent := hpast.addressed n (Nat.le_refl n)
          refine Or.inr ⟨fun cred hcred hprincipal => ?_, fun a' ha' hprincipal => ?_⟩
          · obtain ⟨⟨e, haddress⟩, -⟩ := hpresent.credentials cred hcred
            rw [hprincipal] at haddress
            exact haddress.not_free hu
          · rcases (UniqueTable.mem_put hfree).mp ha' with hold | rfl
            · have haddress := hpresent.accounts a' hold
              rw [hprincipal] at haddress
              exact absurd hu haddress.not_free
            · exact hmagic'
    | reset declared p e secretHash now s₁ hdeclared hset hsets =>
        cases hsets with
        | replaced => exact absurd ha hnew
        | first =>
            rcases UniqueTable.mem_insertOrIgnore.mp ha with hold | ⟨rfl, -⟩
            · exact absurd hold hnew
            · exact absurd hmagic (hconfig declared hdeclared).2
    | linked c i j magic target email now hmagic' hi hlinked hj hverified =>
        rcases UniqueTable.mem_insertOrIgnore.mp ha with hold | ⟨rfl, -⟩
        · exact absurd hold hnew
        · exact absurd ((hpast.grows j hj).proven (Or.inl (AuthStore.verifiedPrincipal_some hverified)))
            hnot
    | tookOver c i j magic provider target email now hmagic' hi hlinked hj hlookup =>
        rcases UniqueTable.mem_insertOrIgnore.mp (UniqueTable.mem_delete.mp ha).1 with hold | ⟨rfl, -⟩
        · exact absurd hold hnew
        · refine Or.inr ⟨fun cred hcred => by simpa using (List.mem_filter.mp hcred).2,
            fun a' ha' hprincipal => ?_⟩
          have hkept := (UniqueTable.mem_delete.mp ha').2
          dsimp only at hprincipal
          have hprovider : a'.provider = magic := by simpa [hprincipal] using hkept
          exact hprovider ▸ hmagic'
    | _ => exact absurd ha hnew

theorem secured (hconfig : config.VerifiesSignUps) (hn : n ≤ events.length)
    (hproven : (servedAt config events n).Proven config principal email) :
    Secured config events n principal email := by
  induction n with
  | zero =>
      rcases hproven with ⟨v, hv, -⟩ | ⟨a, ha, -⟩
      · exact absurd hv UniqueTable.not_mem_empty
      · exact absurd ha UniqueTable.not_mem_empty
  | succ n ih =>
      have hpast := past hconfig (Nat.le_of_succ_le hn)
      have hpast' := past hconfig hn
      have haddress := hproven.addressOf (hpast'.addressed _ (Nat.le_refl _))
      by_cases hold : (servedAt config events n).Proven config principal email
      · exact (ih (Nat.le_of_succ_le hn) hold).step hconfig hn
          (hold.addressOf (hpast.addressed n (Nat.le_refl n)))
      · have hdeed := done hconfig hn n (Nat.lt_succ_self n)
        -- every account of the principal has its address
        have hsubject : ∀ a ∈ (servedAt config events (n + 1)).accounts, a.principal = principal →
            a.subject = email := by
          rintro a ha rfl
          exact ((hpast'.addressed _ (Nat.le_refl _)).accounts a ha).unique haddress
        have hnamed : ∀ i < n + 1, ∀ c purpose, NamedAt config events i c purpose principal email →
            ∀ a ∈ (servedAt config events (n + 1)).accounts, a.principal = principal →
              Claimed config events (n + 1) a := by
          intro i hi c purpose hnamed a ha hprincipal
          refine ⟨i, hi, c, Or.inr ⟨purpose, ?_⟩⟩
          rw [hprincipal, hsubject a ha hprincipal]
          exact hnamed
        rcases hdeed.newly_proven hconfig hpast hproven hold with ⟨c, hproves⟩ | ⟨hnone, honly⟩
        · cases hproves with
          | @verified i hi hlink =>
              refine ⟨?_, hnamed i (Nat.lt_succ_of_lt hi) c _ hlink⟩
              rintro cred hcred rfl secretHash hsecret
              obtain ⟨e, haddress', k, hk, horigin⟩ := origin hconfig hn hcred hsecret
              obtain rfl := haddress.unique haddress'
              rcases horigin with hsets | hregisters
              · exact .set hk hsets
              · exact .verified hk hregisters (Nat.lt_succ_of_lt hi) hlink
          | @reset j hash hj hset =>
              obtain ⟨d, i, hi, hlink⟩ := hset.named
              refine ⟨fun cred hcred hprincipal secretHash hsecret => ?_,
                hnamed i (by omega) d _ hlink⟩
              obtain ⟨k, hk, hsets⟩ := hset.only hconfig (by omega) hn hcred hprincipal hsecret
              exact .set hk hsets
          | linked hj hmagic hlookup =>
              exact absurd ((hpast.grows _ hj).proven (.of_lookup hmagic hlookup)) hold
        · exact ⟨fun cred hcred hprincipal => absurd hprincipal (hnone cred hcred),
            fun a ha hprincipal => magic_claimed hconfig hn ha (honly a ha hprincipal)⟩

theorem Secured.found {provider subject : String} {found : PasswordCredential}
    (h : Secured config events n found.principal email)
    (hfound : (servedAt config events n).lookupCredential provider subject = some found) :
    Established config events n found.principal email found.secretHash := by
  obtain ⟨cred, hcred, hprincipal, -, hsecret⟩ :=
    AuthStore.secretOf_some (AuthStore.lookupCredential_some hfound).2
  exact h.hashes cred hcred hprincipal _ hsecret

/-- Every session is opened with a link mailed to its principal's address, or with an
established password. -/
theorem OpensAt.entered {r : Session} (h : OpensAt config events k c r)
    (hconfig : config.VerifiesSignUps) (hstands : UnprovenStands config events) :
    ∃ email, (servedAt config events k).AddressOf r.principal email ∧
      Entered config events k c r.principal email := by
  have hk : k < events.length := (List.getElem?_eq_some_iff.mp h.mine).1
  have hpast := past hconfig (Nat.le_of_lt hk)
  obtain ⟨c', hmine, hentitled⟩ :=
    ((done hconfig hk k (Nat.lt_succ_self k)).sessions h.opened).resolve_left h.fresh
  obtain rfl : c = c' := Event.advance.inj (Option.some.inj (h.mine.symm.trans hmine))
  cases hentitled with
  | @named i purpose email hi hnamed =>
      exact ⟨email, hpast.named (Nat.le_of_lt hi) hnamed, .named hi hnamed⟩
  | @linked i j email provider hi hlinked hj hmagic hlookup =>
      exact ⟨email, hpast.reaches hj (Or.inl ⟨provider, hlookup⟩), .linked hi hlinked⟩
  | @password i j declared email found hij hjk hdeclared hlooks hprincipal hverified =>
      have hfound := hlooks.found
      have hik : i < k := Nat.lt_trans hij hjk
      rw [← hprincipal] at hverified ⊢
      have hprovenAt : ∀ m, (servedAt config events m).isVerified found.principal email = true →
          (servedAt config events m).Proven config found.principal email :=
        fun m hm => Or.inl (AuthStore.isVerified_iff.mp hm)
      refine ⟨email, hpast.reaches (Nat.le_of_lt hik) (.of_credential hfound),
        .password hik hdeclared hlooks ?_⟩
      rcases hstands i k c declared email found r hik hdeclared hlooks h with hproven | hstill
      · have hsecured := secured hconfig (by omega) (hprovenAt i hproven)
        exact (hsecured.found hfound).later (Nat.le_of_lt hik)
      · have hproven := (hpast.grows j (Nat.le_of_lt hjk)).proven (hprovenAt j hverified)
        exact (secured hconfig (Nat.le_of_lt hk) hproven).found hstill

theorem ResolvesAt.proven {m : ℕ} (h : ResolvesAt config events m c email principal)
    (hconfig : config.VerifiesSignUps) (hmn : m < n) (hn : n ≤ events.length) :
    (servedAt config events n).Proven config principal email := by
  have hpast := past hconfig hn
  cases h with
  | found hmagic hreads =>
      obtain ⟨-, -, hlookup, -⟩ := hreads
      exact (hpast.grows m (Nat.le_of_lt hmn)).proven (.of_lookup hmagic hlookup)
  | created hmagic hcommits =>
      rcases signUpTx_run hcommits.run with ⟨hfalse, -⟩ | ⟨hu, ha, hfinish⟩
      · cases hfalse
      · obtain ⟨-, hstore⟩ := Prod.mk.inj (Option.some.inj hfinish)
        refine (hpast.grows (m + 1) hmn).proven ?_
        rw [servedAt, ← hstore]
        exact Or.inr ⟨_, (UniqueTable.mem_put ha).mpr (Or.inr rfl), hmagic, rfl, rfl⟩

/-- Where every login that found an address unproven still finds its credential as it opens a
session, nobody else is left with a way into the principal a magic link resolved to. -/
theorem no_takeover (config : Config) (events : List (Event Request))
    (hconfig : config.VerifiesSignUps) (hstands : UnprovenStands config events) :
    NoTakeover config events where
  owned := fun m c email principal hresolves n hmn hn => by
    have hproven := hresolves.proven hconfig hmn hn
    have hpast := past hconfig hn
    have hpresent := hpast.addressed n (Nat.le_refl n)
    have hsecured := secured hconfig hn hproven
    have haddress := hproven.addressOf hpresent
    refine ⟨fun provider subject found hfound hprincipal => ?_, fun a ha hprincipal => ?_,
      fun r hr hprincipal => ?_, fun t ht hprincipal => ?_⟩
    · subst hprincipal
      exact hsecured.found hfound
    · refine ⟨?_, hsecured.accounts a ha hprincipal⟩
      subst hprincipal
      exact (hpresent.accounts a ha).unique haddress
    · obtain ⟨k, d, -, hkn, hopens⟩ :=
        opened_between (Nat.zero_le n) hn UniqueTable.not_mem_empty hr
      obtain ⟨email', haddress', hentered⟩ := hopens.entered hconfig hstands
      subst hprincipal
      obtain rfl := ((hpast.grows k (Nat.le_of_lt hkn)).addresses _ _ haddress').unique haddress
      exact ⟨k, hkn, d, hopens, hentered⟩
    · exact (hpresent.tokens t ht principal hprincipal).unique haddress
  entered := fun k c r hopens => by
    obtain ⟨email, -, hentered⟩ := hopens.entered hconfig hstands
    exact ⟨email, hentered⟩

end

/-! ### A squatter whose login is late -/

def both : Config where
  password := some ⟨"password", true, true⟩
  magic := some "magic"
  mails := true
  ttlMs := 86400000
  verifies := fun secretHash password => secretHash = "hash of " ++ password

theorem both_verifiesSignUps : both.VerifiesSignUps := by
  intro declared hdeclared
  obtain rfl := Option.some.inj hdeclared
  exact ⟨rfl, by decide⟩

def eveRegisters : Request :=
  .register (visit "u_eve" "" "m0") (some "ada@x.dev") (some "hash of squat")

def adaAsks : Request := .magicStart (visit "" "" "m2") (some "ada@x.dev")

def adaFollows : Request := .magicSignIn (visit "u_ada" "s3" "") (some "m2")

/-- The squatter's login looks its credential up, and goes on once the owner has signed in. -/
def lateSquatter : List (Event Request) :=
  calls 0 eveRegisters 12 ++ calls 1 (signIn "squat") 1 ++ calls 2 adaAsks 5 ++
    calls 3 adaFollows 17 ++ [.advance 1, .advance 1]

theorem lateSquatter_spends : ∀ i < 41, ∀ t ∈ (servedAt both lateSquatter i).emailTokens.rows,
    t ∉ (servedAt both lateSquatter (i + 1)).emailTokens.rows →
    (servedAt both lateSquatter (i + 1)).credentials = (servedAt both lateSquatter i).credentials →
    t.principal = none ∧ i = 25 := by
  decide +kernel

theorem lateSquatter_redeems {i c : ℕ} {purpose : Purpose} {redeemed : Redeemed}
    (h : RedeemsAt both lateSquatter i c purpose redeemed) : redeemed.principal = none ∧ c = 3 := by
  have hi : i < 41 := (List.getElem?_eq_some_iff.mp h.mine).1
  obtain ⟨t, ht, rfl, hgone, hsame⟩ := h.spent
  obtain ⟨hprincipal, rfl⟩ := lateSquatter_spends i hi t ht hgone hsame
  exact ⟨hprincipal, Option.some.inj (h.mine.mover.symm.trans rfl)⟩

/-- The squatter gets a session for the owner's account, with a password nobody proved. -/
theorem takeover_succeeds : ¬ NoTakeover both lateSquatter := by
  intro h
  have hnamed : ∀ {i c purpose principal email},
      ¬ NamedAt both lateSquatter i c purpose principal email := by
    rintro i c purpose principal email ⟨redeemed, hredeems, hprincipal, -⟩
    rw [(lateSquatter_redeems hredeems).1] at hprincipal
    cases hprincipal
  have hopens : OpensAt both lateSquatter 40 1 ⟨"u_eve", "s1", "password", 0, 86400000, none⟩ :=
    ⟨rfl, by decide +kernel, by decide +kernel⟩
  obtain ⟨email, hentered⟩ := h.entered 40 1 _ hopens
  cases hentered with
  | linked hi hlinked =>
      obtain ⟨redeemed, hredeems, -⟩ := hlinked
      exact absurd (lateSquatter_redeems hredeems).2 (by decide)
  | named hi hlink => exact hnamed hlink
  | password hi hdeclared hlooks hestablished =>
      cases hestablished with
      | set hk hsets =>
          obtain ⟨c, i, -, hlink⟩ := hsets.named
          exact hnamed hlink
      | verified hk hregisters hi hlink => exact hnamed hlink

/-- The same with a login that comes after the owner's. -/
def promptSquatter : List (Event Request) :=
  calls 0 eveRegisters 12 ++ calls 2 adaAsks 5 ++ calls 3 adaFollows 17 ++ calls 1 (signIn "squat") 1

theorem promptSquatter_stands : UnprovenStands both promptSquatter := by
  intro i k c declared email found session hik hdeclared hlooks hopens
  obtain ⟨v, password, admitted, ⟨next, hstep, hfound, -⟩, -⟩ := hlooks
  obtain rfl : c = 1 := by
    have hmade := call_mem (Nat.le_of_lt hstep.time) hstep.before
    simp only [promptSquatter, calls, List.mem_append, List.mem_cons, List.mem_replicate,
      Event.call.injEq, reduceCtorEq, and_false, or_false] at hmade
    rcases hmade with ((⟨-, h⟩ | ⟨-, h⟩) | ⟨-, h⟩) | ⟨rfl, -⟩
    · cases h
    · cases h
    · cases h
    · rfl
  -- the login makes one step, so it opens nothing after its lookup
  have honly : ∀ n < 39, promptSquatter[n]?.bind Event.mover = some 1 → n = 38 := by
    decide +kernel
  have hi := honly i hstep.time hstep.mine.mover
  have hk := honly k (List.getElem?_eq_some_iff.mp hopens.mine).1 hopens.mine.mover
  omega

theorem no_takeover_promptly : NoTakeover both promptSquatter :=
  no_takeover both promptSquatter both_verifiesSignUps promptSquatter_stands

end Albedo.Auth
