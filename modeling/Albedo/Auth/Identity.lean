import Albedo.Library.Ensures
import Albedo.Auth.Tokens

/-!
# The identity map

Every identity and every proven address belongs to a principal there is, and an identity
leaves its principal by unlinking, deletion or takeover alone, exactly as long as nothing is
linked to or proven by a principal that is gone, no principal is deleted with a proven
address, and no identity is linked beside another of the same provider. The code checks none
of these where it writes.
-/
namespace Albedo.Auth
open Interleave

def AuthStore.HasUser (s : AuthStore) (principal : PrincipalId) : Prop :=
  ∃ u ∈ s.users, u.principal = principal

structure AuthStore.Named (s : AuthStore) : Prop where
  accounts : ∀ a ∈ s.accounts, s.HasUser a.principal
  verified : ∀ v ∈ s.emailVerified, s.HasUser v.principal

variable (events : List (Event Op))

inductive LosesAt (k : ℕ) (principal : PrincipalId) (provider : String) : Prop
  | unlinked {c : ℕ} {op : Op} {keep : TokenHash} {n : ℕ} :
      Commits program AuthStore.empty events k c op (unlinkTx principal provider keep) (.unlinked n) →
      LosesAt k principal provider
  | deleted {c : ℕ} {op : Op} :
      Commits program AuthStore.empty events k c op (deletePrincipalTx principal) () →
      LosesAt k principal provider
  | tookOver {c : ℕ} {op : Op} {magicProvider email : String} {now : ℤ} : provider ≠ magicProvider →
      Commits program AuthStore.empty events k c op (linkTx principal magicProvider email true now) () →
      LosesAt k principal provider

def LinksAt (k : ℕ) (principal : PrincipalId) (provider subject : String) : Prop :=
  ∃ c op now, Executes program AuthStore.empty events k c op
    (fun s => some (s.tryInsertAccount ⟨principal, provider, subject, now⟩)) true

/-- What is asked of a run: no state has an identity or a proven address of nobody, identities
move in the open only, and a link leaves one identity of its provider. -/
structure IdentityMap : Prop where
  named : ∀ n ≤ events.length, (tablesAt events n).Named
  kept : ∀ m n, m ≤ n → n ≤ events.length → ∀ provider subject p q,
    (tablesAt events m).lookupAccount provider subject = some p →
    (tablesAt events n).lookupAccount provider subject = some q → p ≠ q →
    ∃ k, m ≤ k ∧ k < n ∧ LosesAt events k p provider
  single : ∀ k principal provider subject, LinksAt events k principal provider subject →
    ∀ a ∈ (tablesAt events (k + 1)).accounts, a.principal = principal → a.provider = provider →
      a.subject = subject

/-- The steps that are never checked happen to be right. -/
structure Careful : Prop where
  link : ∀ k principal provider subject, LinksAt events k principal provider subject →
    (tablesAt events k).HasUser principal ∧ (tablesAt events k).connected principal provider = false
  verify : ∀ k c op principal email now, Executes program AuthStore.empty events k c op
    (update fun s => s.insertVerified ⟨principal, email, now⟩) () →
    (tablesAt events k).HasUser principal
  magic : ∀ k c op target magicProvider email tookOver now, Commits program AuthStore.empty events k c
    op (linkTx target magicProvider email tookOver now) () →
    (tablesAt events k).accounts.Free ⟨target, magicProvider, email, now⟩ →
    (tablesAt events k).HasUser target
  delete : ∀ k c op principal, Commits program AuthStore.empty events k c op
    (deletePrincipalTx principal) () → ∀ v ∈ (tablesAt events k).emailVerified, v.principal ≠ principal

variable {events}

/-! ### What the changes do to the map -/

section
variable {s s' : AuthStore} {kind : Kind} {kinds : List Kind} {principal : PrincipalId}

theorem AuthStore.HasUser.put {user : User} (h : s.users.Free user) (hs : s.HasUser principal) :
    ∃ u ∈ s.users.put user h, u.principal = principal := by
  obtain ⟨u, hmem, hprincipal⟩ := hs
  exact ⟨u, (UniqueTable.mem_put h).mpr (Or.inl hmem), hprincipal⟩

theorem hasUser_refreshUser {other : PrincipalId} {profile : ProviderProfile} {now : ℤ}
    (h : s.HasUser principal) : (s.refreshUser other profile now).HasUser principal := by
  obtain ⟨u, hmem, hprincipal⟩ := h
  refine ⟨_, UniqueTable.mem_rows.mpr (List.mem_map_of_mem hmem), ?_⟩
  split_ifs
  · exact hprincipal
  · exact hprincipal

theorem AuthStore.Named.of_subset (h : s.Named) (haccounts : ∀ a ∈ s'.accounts, a ∈ s.accounts)
    (hverified : ∀ v ∈ s'.emailVerified, v ∈ s.emailVerified)
    (husers : ∀ p, s.HasUser p → s'.HasUser p) : s'.Named where
  accounts := fun a ha => husers _ (h.accounts a (haccounts a ha))
  verified := fun v hv => husers _ (h.verified v (hverified v hv))

theorem Sets.named {provider email secretHash : String} {now : ℤ}
    (h : Sets s principal provider email secretHash now s') (hs : s.Named) : s'.Named := by
  cases h with
  | replaced _ => exact hs.of_subset (fun _ h => h) (fun _ h => h) fun _ h => h
  | first _ huser _ =>
      refine ⟨fun a ha => ?_, hs.verified⟩
      rcases UniqueTable.mem_insertOrIgnore.mp ha with hold | ⟨rfl, -⟩
      · exact hs.accounts a hold
      · exact huser

theorem named_signUp {user : User} {account : Account} (hs : s.Named) (hu : s.users.Free user)
    (ha : s.accounts.Free account) (haccount : account.principal = user.principal)
    (credentials : List Credential) : AuthStore.Named { s with
      users := s.users.put user hu
      accounts := s.accounts.put account ha
      credentials } := by
  refine ⟨fun a hmem => ?_, fun v hv => (hs.verified v hv).put hu⟩
  rcases (UniqueTable.mem_put ha).mp hmem with hold | rfl
  · exact (hs.accounts a hold).put hu
  · exact ⟨user, (UniqueTable.mem_put hu).mpr (Or.inr rfl), haccount.symm⟩

theorem Changes.named (h : Changes kinds s s')
    (hkinds : ∀ kind ∈ kinds, kind ∉ [Kind.link, .verify, .magic, .delete]) (hs : s.Named) :
    s'.Named := by
  rcases h with rfl | ⟨kind, hkind, hchange⟩
  · exact hs
  have hkind' := hkinds kind hkind
  cases hchange with
  | refresh other profile now =>
      exact hs.of_subset (fun _ h => h) (fun _ h => h) fun _ h => hasUser_refreshUser h
  | signUp user account hu ha haccount => exact named_signUp hs hu ha haccount s.credentials
  | register user account credential hu ha haccount _ =>
      exact named_signUp hs hu ha haccount (s.credentials ++ [credential])
  | unlink => exact hs.of_subset (fun _ h => (UniqueTable.mem_delete.mp h).1) (fun _ h => h) fun _ h => h
  | reset _ _ _ _ _ s₁ hsets =>
      exact (hsets.named hs).of_subset (fun _ h => h) (fun _ h => h) fun _ h => h
  | link => simp at hkind'
  | verify => simp at hkind'
  | magic => simp at hkind'
  | takeover => simp at hkind'
  | delete => simp at hkind'
  | _ => exact hs.of_subset (fun _ h => h) (fun _ h => h) fun _ h => h

theorem Changes.accounts {a : Account} (h : Changes kinds s s')
    (hkinds : ∀ kind ∈ kinds, kind ∉ [Kind.unlink, .magic, .delete]) (ha : a ∈ s.accounts) :
    a ∈ s'.accounts := by
  rcases h with rfl | ⟨kind, hkind, hchange⟩
  · exact ha
  have hkind' := hkinds kind hkind
  cases hchange with
  | signUp user account hu hfree _ => exact (UniqueTable.mem_put hfree).mpr (Or.inl ha)
  | register user account credential hu hfree _ _ => exact (UniqueTable.mem_put hfree).mpr (Or.inl ha)
  | link account hfree => exact (UniqueTable.mem_put hfree).mpr (Or.inl ha)
  | reset _ _ _ _ _ s₁ hsets =>
      cases hsets with
      | replaced _ => exact ha
      | first _ _ _ => exact UniqueTable.mem_insertOrIgnore.mpr (Or.inl ha)
  | unlink => simp at hkind'
  | magic => simp at hkind'
  | takeover => simp at hkind'
  | delete => simp at hkind'
  | _ => exact ha

end

/-! ### Runs whose unchecked steps are right -/

section
variable {k n c : ℕ} {op : Op} {α : Type} {f : α → Prog AuthStore Answer}

theorem answer_ensures {J : ℕ → Prop} {p : Prog AuthStore α} {tell : α → Answer}
    (h : p.Ensures program AuthStore.empty events J c op (fun a => .done (tell a) >>= .done)
      (fun _ _ => True) n) :
    (answer p tell).Ensures program AuthStore.empty events J c op .done (fun _ _ => True) n :=
  Prog.ensures_bind (h.imp fun _ _ _ _ => trivial)

theorem corrupt_ensures {J : ℕ → Prop} {Q : ℕ → α → Prop} :
    (corrupt : Prog AuthStore α).Ensures program AuthStore.empty events J c op f Q n :=
  fun _ g _ _ _ _ => g.elim

variable {principal : PrincipalId} {provider subject email : String} {now : ℤ}

section
variable {f : LinkOutcome → Prog AuthStore Answer} {J : ℕ → Prop}

theorem linkAccount_ensures
    (hlink : ∀ k, J k → LinksAt events k principal provider subject → J (k + 1))
    (hidle : ∀ k < events.length, J k → tablesAt events (k + 1) = tablesAt events k → J (k + 1)) :
    (linkAccount principal provider subject now).Ensures program AuthStore.empty events J c op f
      (fun _ _ => True) n := by
  refine Prog.ensures_query fun k _ _ _ _ => ?_
  cases (tablesAt events k).lookupAccount provider subject with
  | some owner => trivial
  | none =>
      refine Prog.ensures_query fun k _ _ _ _ => ?_
      split_ifs
      · trivial
      · refine Prog.ensures_statement fun k b _ hk hstep => ?_
        cases b with
        | true => exact ⟨hlink k hk ⟨c, op, now, hstep⟩, trivial⟩
        | false =>
            constructor
            · rcases AuthStore.tryInsertAccount_eq (Option.some.inj hstep.run) with
                ⟨-, hsame⟩ | ⟨htrue, -⟩
              · exact hidle k hstep.lt hk hsame
              · cases htrue
            · refine Prog.ensures_query fun k _ _ _ _ => ?_
              cases (tablesAt events k).lookupAccount provider subject with
              | some owner => trivial
              | none => exact corrupt_ensures

end

theorem resolveMagicLink_ensures {f : MagicLinked → Prog AuthStore Answer} {J : ℕ → Prop}
    {magicProvider : String} {passwordProvider : Option String} {minted : PrincipalId}
    (hlink : ∀ k target tookOver, J k → Commits program AuthStore.empty events k c op
      (linkTx target magicProvider email tookOver now) () → J (k + 1))
    (hupsert : ∀ k < events.length, J k →
      Changes [.refresh, .signUp] (tablesAt events k) (tablesAt events (k + 1)) → J (k + 1)) :
    (resolveMagicLink magicProvider passwordProvider email now minted).Ensures program
      AuthStore.empty events J c op f (fun _ _ => True) n := by
  refine Prog.ensures_query fun k _ _ _ _ => ?_
  cases (tablesAt events k).lookupAccount magicProvider email with
  | some principal => trivial
  | none =>
      refine Prog.ensures_bind ((magicTarget_guarantees.ensures (R := fun s s' => s' = s)
        (fun k hk hJ hsame => hupsert k hk hJ (Or.inl hsame)) _).imp fun m found _ _ => ?_)
      obtain ⟨target, tookOver⟩ := found
      cases target with
      | none => exact Prog.ensures_bind ((upsertPrincipal_guarantees.ensures hupsert _).imp
          fun _ _ _ _ => trivial)
      | some target =>
          refine Prog.ensures_atomically fun k u _ hk hcommits => ⟨hlink k target tookOver hk hcommits, ?_⟩
          refine Prog.ensures_query fun k _ _ _ _ => ?_
          cases (tablesAt events k).lookupAccount magicProvider email with
          | some principal => trivial
          | none => exact corrupt_ensures

end

section
variable {s s' : AuthStore} {k n : ℕ}

theorem named_insertAccountOrIgnore {a : Account} (hs : s.Named)
    (ha : s.accounts.Free a → s.HasUser a.principal) : (s.insertAccountOrIgnore a).Named := by
  refine ⟨fun b hb => ?_, hs.verified⟩
  rcases UniqueTable.mem_insertOrIgnore.mp hb with hold | ⟨rfl, hfree⟩
  · exact hs.accounts b hold
  · exact ha hfree

theorem named_link {target : PrincipalId} {magicProvider email : String} {tookOver : Bool} {now : ℤ}
    {u : Unit} (hrun : (linkTx target magicProvider email tookOver now).run s = some (u, s'))
    (hs : s.Named)
    (htarget : s.accounts.Free ⟨target, magicProvider, email, now⟩ → s.HasUser target) :
    s'.Named := by
  have hlinked := named_insertAccountOrIgnore hs htarget
  rw [linkTx_run hrun]
  split_ifs
  · exact hlinked.of_subset (fun _ h => (UniqueTable.mem_delete.mp h).1) (fun _ h => h) fun _ h => h
  · exact hlinked

theorem named_delete {principal : PrincipalId} {u : Unit}
    (hrun : (deletePrincipalTx principal).run s = some (u, s')) (hs : s.Named)
    (hverified : ∀ v ∈ s.emailVerified, v.principal ≠ principal) : s'.Named := by
  have hothers : ∀ p, p ≠ principal → s.HasUser p →
      ∃ u ∈ s.users.delete fun u => u.principal = principal, u.principal = p := by
    rintro p hp ⟨u, hu, rfl⟩
    exact ⟨u, UniqueTable.mem_delete.mpr ⟨hu, decide_eq_false hp⟩, rfl⟩
  rw [deletePrincipalTx_run hrun]
  refine ⟨fun a ha => ?_, fun v hv => hothers _ (hverified v hv) (hs.verified v hv)⟩
  obtain ⟨ha, hother⟩ := UniqueTable.mem_delete.mp ha
  exact hothers _ (of_decide_eq_false hother) (hs.accounts a ha)

theorem named_program (h : Careful events) (c : ℕ) (op : Op) (n : ℕ) :
    (program op).Ensures program AuthStore.empty events (fun n => (tablesAt events n).Named) c op .done
      (fun _ _ => True) n := by
  cases op with
  | linkAccount principal provider subject now =>
      refine answer_ensures (linkAccount_ensures (fun k hk hlinks => ?_)
        fun k _ hk hsame => hsame ▸ hk)
      obtain ⟨c', op', now', hexecutes⟩ := id hlinks
      rcases AuthStore.tryInsertAccount_eq (Option.some.inj hexecutes.run) with
        ⟨hfalse, -⟩ | ⟨-, hfree, hstore⟩
      · cases hfalse
      · change (storeAt program AuthStore.empty events (k + 1)).Named
        rw [hstore]
        refine ⟨fun a ha => ?_, hk.verified⟩
        rcases (UniqueTable.mem_put hfree).mp ha with hold | rfl
        · exact hk.accounts a hold
        · exact (h.link k principal provider subject hlinks).1
  | markVerified principal email now =>
      refine Prog.ensures_statement fun k u _ hk hexecutes => ⟨?_, trivial⟩
      obtain ⟨-, hstore⟩ := Prod.mk.inj (Option.some.inj hexecutes.run)
      change (storeAt program AuthStore.empty events (k + 1)).Named
      rw [← hstore]
      refine ⟨hk.accounts, fun v hv => ?_⟩
      rcases UniqueTable.mem_insertOrIgnore.mp hv with hold | ⟨rfl, -⟩
      · exact hk.verified v hold
      · exact h.verify k c _ principal email now hexecutes
  | resolveMagicLink magicProvider passwordProvider email now minted =>
      refine answer_ensures (resolveMagicLink_ensures (fun k target tookOver hk hcommits => ?_)
        fun k _ hk hchanges => hchanges.named (by decide) hk)
      exact named_link hcommits.run hk (h.magic k c _ target magicProvider email tookOver now hcommits)
  | deletePrincipal principal =>
      refine Prog.ensures_atomically fun k u _ hk hcommits => ⟨?_, trivial⟩
      exact named_delete hcommits.run hk (h.delete k c _ principal hcommits)
  | _ => exact (program_guarantees _).ensures (fun k _ hk hchanges =>
      hchanges.named (by simp [Op.kinds]) hk) n

theorem Careful.named (h : Careful events) (hn : n ≤ events.length) : (tablesAt events n).Named := by
  refine run_ensures ?_ (fun k _ hsame hk => ?_) (named_program h) hn
  · exact ⟨fun _ ha => absurd ha UniqueTable.not_mem_empty,
      fun _ hv => absurd hv UniqueTable.not_mem_empty⟩
  · change (storeAt program AuthStore.empty events (k + 1)).Named
    rw [hsame]
    exact hk

/-! ### Whom an identity belongs to -/

/-- Every identity stays whose it is, or is taken from its principal. -/
def KeptAt (events : List (Event Op)) (k : ℕ) : Prop :=
  ∀ a ∈ (tablesAt events k).accounts, a ∈ (tablesAt events (k + 1)).accounts ∨
    LosesAt events k a.principal a.provider

def KeptUntil (events : List (Event Op)) (n : ℕ) : Prop := ∀ j < n, KeptAt events j

theorem KeptUntil.succ (hk : KeptUntil events k) (h : KeptAt events k) : KeptUntil events (k + 1) := by
  intro j hj
  rcases Nat.lt_succ_iff_lt_or_eq.mp hj with hlt | rfl
  · exact hk j hlt
  · exact h

theorem kept_of_changes {kinds : List Kind}
    (hchanges : Changes kinds (tablesAt events k) (tablesAt events (k + 1)))
    (hkinds : ∀ kind ∈ kinds, kind ∉ [Kind.unlink, .magic, .delete]) : KeptAt events k :=
  fun _ ha => Or.inl (hchanges.accounts hkinds ha)

theorem kept_unlink {c : ℕ} {op : Op} {principal : PrincipalId} {provider : String}
    {keep : TokenHash} {outcome : UnlinkOutcome} (h : Commits program AuthStore.empty events k c op
      (unlinkTx principal provider keep) outcome) : KeptAt events k := by
  intro a ha
  rcases unlinkTx_run h.run with hsame | ⟨⟨count, rfl⟩, hstore⟩
  · rw [tablesAt, hsame]
    exact Or.inl ha
  · by_cases hmine : a.principal = principal ∧ a.provider = provider
    · rw [hmine.1, hmine.2]
      exact Or.inr (.unlinked h)
    · rw [tablesAt, hstore]
      exact Or.inl (UniqueTable.mem_delete.mpr ⟨ha, by simpa using hmine⟩)

theorem kept_delete {c : ℕ} {op : Op} {principal : PrincipalId} {u : Unit}
    (h : Commits program AuthStore.empty events k c op (deletePrincipalTx principal) u) :
    KeptAt events k := by
  intro a ha
  by_cases hmine : a.principal = principal
  · rw [hmine]
    exact Or.inr (.deleted h)
  · rw [tablesAt, deletePrincipalTx_run h.run]
    exact Or.inl (UniqueTable.mem_delete.mpr ⟨ha, decide_eq_false hmine⟩)

theorem kept_link {c : ℕ} {op : Op} {target : PrincipalId} {magicProvider email : String}
    {tookOver : Bool} {now : ℤ} (h : Commits program AuthStore.empty events k c op
      (linkTx target magicProvider email tookOver now) ()) : KeptAt events k := by
  intro a ha
  have hlinked : a ∈ (AuthStore.insertAccountOrIgnore (tablesAt events k)
      ⟨target, magicProvider, email, now⟩).accounts := UniqueTable.mem_insertOrIgnore.mpr (Or.inl ha)
  cases tookOver with
  | false =>
      rw [tablesAt, linkTx_run h.run]
      exact Or.inl hlinked
  | true =>
      by_cases hmine : a.principal = target ∧ a.provider ≠ magicProvider
      · rw [hmine.1]
        exact Or.inr (.tookOver hmine.2 h)
      · rw [tablesAt, linkTx_run h.run]
        exact Or.inl (UniqueTable.mem_delete.mpr ⟨hlinked, by simpa using hmine⟩)

theorem kept_program (c : ℕ) (op : Op) (n : ℕ) : (program op).Ensures program AuthStore.empty events
    (KeptUntil events) c op .done (fun _ _ => True) n := by
  cases op with
  | unlinkAccount principal provider keep =>
      exact Prog.ensures_atomically fun k outcome _ hk hcommits =>
        ⟨hk.succ (kept_unlink hcommits), trivial⟩
  | deletePrincipal principal =>
      exact Prog.ensures_atomically fun k u _ hk hcommits =>
        ⟨hk.succ (kept_delete hcommits), trivial⟩
  | resolveMagicLink magicProvider passwordProvider email now minted =>
      exact answer_ensures (resolveMagicLink_ensures
        (fun k target tookOver hk hcommits => hk.succ (kept_link hcommits))
        fun k _ hk hchanges => hk.succ (kept_of_changes hchanges (by decide)))
  | _ =>
      refine (program_guarantees _).ensures (fun k _ hk hchanges => hk.succ ?_) n
      exact kept_of_changes hchanges (by simp [Op.kinds])

theorem kept_at (hk : k < events.length) : KeptAt events k :=
  run_ensures (J := KeptUntil events) (fun j hj => absurd hj (Nat.not_lt_zero j))
    (fun k _ hsame h => h.succ fun a ha => Or.inl (by rw [tablesAt, hsame]; exact ha))
    kept_program hk k (Nat.lt_succ_self k)

theorem identity_lost {m : ℕ} (hmn : m ≤ n) (hn : n ≤ events.length) {provider subject : String}
    {p q : PrincipalId} (hp : (tablesAt events m).lookupAccount provider subject = some p)
    (hq : (tablesAt events n).lookupAccount provider subject = some q) (hpq : p ≠ q) :
    ∃ k, m ≤ k ∧ k < n ∧ LosesAt events k p provider := by
  obtain ⟨a, ha, hidentity, rfl⟩ := AuthStore.lookupAccount_eq_some.mp hp
  obtain ⟨hprovider, hsubject⟩ := Prod.mk.inj hidentity
  have hstays : a ∈ (tablesAt events n).accounts ∨
      ∃ k, m ≤ k ∧ k < n ∧ LosesAt events k a.principal provider := by
    clear hq
    induction n, hmn using Nat.le_induction with
    | base => exact Or.inl ha
    | succ n hmn ih =>
        rcases ih (Nat.le_of_succ_le hn) with hstill | ⟨k, hmk, hkn, hloses⟩
        · rcases kept_at hn a hstill with hkept | hloses
          · exact Or.inl hkept
          · exact Or.inr ⟨n, hmn, Nat.lt_succ_self n, hprovider ▸ hloses⟩
        · exact Or.inr ⟨k, hmk, Nat.lt_succ_of_lt hkn, hloses⟩
  refine hstays.resolve_left fun hstill => hpq ?_
  obtain ⟨b, hb, hidentity', rfl⟩ := AuthStore.lookupAccount_eq_some.mp hq
  rw [UniqueTable.eq_of_key hstill hb (hidentity.trans hidentity'.symm)]

/-! ### The unchecked steps -/

theorem link_stored {principal : PrincipalId} {provider subject : String}
    (h : LinksAt events k principal provider subject) : k < events.length ∧ ∃ now,
      ∃ hfree : (tablesAt events k).accounts.Free ⟨principal, provider, subject, now⟩,
        tablesAt events (k + 1) = { tablesAt events k with
          accounts := (tablesAt events k).accounts.put ⟨principal, provider, subject, now⟩ hfree } := by
  obtain ⟨c, op, now, hexecutes⟩ := h
  rcases AuthStore.tryInsertAccount_eq (Option.some.inj hexecutes.run) with ⟨hfalse, -⟩ | ⟨-, hstore⟩
  · cases hfalse
  · exact ⟨hexecutes.lt, now, hstore⟩

theorem connected_eq_false {s : AuthStore} {principal : PrincipalId} {provider : String} :
    s.connected principal provider = false ↔
      ∀ a ∈ s.accounts, a.principal = principal → a.provider ≠ provider := by
  unfold AuthStore.connected
  rw [List.any_eq_false]
  simp [UniqueTable.mem_rows]

theorem Careful.identityMap (h : Careful events) : IdentityMap events where
  named := fun n hn => h.named hn
  kept := fun m n hmn hn provider subject p q hp hq hpq => identity_lost hmn hn hp hq hpq
  single := fun k principal provider subject hlinks a ha hprincipal hprovider => by
    obtain ⟨-, now, hfree, hstore⟩ := link_stored hlinks
    rw [hstore] at ha
    rcases (UniqueTable.mem_put hfree).mp ha with hold | rfl
    · exact absurd hprovider (connected_eq_false.mp (h.link k principal provider subject hlinks).2
        a hold hprincipal)
    · rfl

theorem IdentityMap.careful (h : IdentityMap events) : Careful events where
  link := fun k principal provider subject hlinks => by
    obtain ⟨hk, now, hfree, hstore⟩ := link_stored hlinks
    have hnew : (⟨principal, provider, subject, now⟩ : Account) ∈ (tablesAt events (k + 1)).accounts := by
      rw [hstore]
      exact (UniqueTable.mem_put hfree).mpr (Or.inr rfl)
    constructor
    · have huser := (h.named (k + 1) hk).accounts _ hnew
      rw [hstore] at huser
      exact huser
    · refine connected_eq_false.mpr fun a ha hprincipal hprovider => ?_
      have hsubject := h.single k principal provider subject hlinks a
        (by rw [hstore]; exact (UniqueTable.mem_put hfree).mpr (Or.inl ha)) hprincipal hprovider
      refine UniqueTable.free_iff.mp hfree a ha ?_
      rw [Account.identity, hprovider, hsubject]
      rfl
  verify := fun k c op principal email now hexecutes => by
    obtain ⟨-, hstore⟩ := Prod.mk.inj (Option.some.inj hexecutes.run)
    have hproven : ∃ v ∈ (tablesAt events (k + 1)).emailVerified, v.principal = principal := by
      rw [tablesAt, ← hstore]
      by_cases hfree : (tablesAt events k).emailVerified.Free ⟨principal, email, now⟩
      · exact ⟨_, UniqueTable.mem_insertOrIgnore.mpr (Or.inr ⟨rfl, hfree⟩), rfl⟩
      · rw [UniqueTable.free_iff] at hfree
        push Not at hfree
        obtain ⟨v, hv, haddress⟩ := hfree
        exact ⟨v, UniqueTable.mem_insertOrIgnore.mpr (Or.inl hv), (Prod.mk.inj haddress).1⟩
    obtain ⟨v, hv, rfl⟩ := hproven
    have huser := (h.named (k + 1) hexecutes.lt).verified v hv
    rw [tablesAt, ← hstore] at huser
    exact huser
  magic := fun k c op target magicProvider email tookOver now hcommits hfree => by
    have hlinked : (⟨target, magicProvider, email, now⟩ : Account) ∈ (AuthStore.insertAccountOrIgnore
        (tablesAt events k) ⟨target, magicProvider, email, now⟩).accounts :=
      UniqueTable.mem_insertOrIgnore.mpr (Or.inr ⟨rfl, hfree⟩)
    have hnamed := h.named (k + 1) hcommits.lt
    rw [tablesAt, linkTx_run hcommits.run] at hnamed
    cases tookOver with
    | false => exact hnamed.accounts _ hlinked
    | true => exact hnamed.accounts _ (UniqueTable.mem_delete.mpr ⟨hlinked, by simp⟩)
  delete := fun k c op principal hcommits v hv hprincipal => by
    have hnamed := h.named (k + 1) hcommits.lt
    rw [tablesAt, deletePrincipalTx_run hcommits.run] at hnamed
    obtain ⟨u, hu, huser⟩ := hnamed.verified v hv
    exact absurd (huser.trans hprincipal) (of_decide_eq_false (UniqueTable.mem_delete.mp hu).2)

/-- The identity map holds in exactly the runs whose unchecked steps happen to be right. -/
theorem identityMap_iff (events : List (Event Op)) : IdentityMap events ↔ Careful events :=
  ⟨IdentityMap.careful, Careful.identityMap⟩

/-! ### Two runs whose steps are not -/

def ada : Op :=
  .createCredentialAccount "password" "ada@x.dev" ⟨some "ada@x.dev", none, none⟩ "hash" 0 "u_ada"

def deletion : List (Event Op) :=
  calls 0 ada 6 ++ calls 1 (.markVerified "u_ada" "ada@x.dev" 1) 1 ++
    calls 2 (.deletePrincipal "u_ada") 6

/-- Two identities of one provider are linked at once. -/
def links : List (Event Op) :=
  calls 0 ada 6 ++ calls 1 (.linkAccount "u_ada" "github" "g1" 1) 2 ++
    calls 2 (.linkAccount "u_ada" "github" "g2" 1) 3 ++ [.advance 1]

/-- A deleted principal keeps its proven address, and two links that both looked first leave two
identities of one provider. -/
theorem identityMap_fails : ¬ IdentityMap deletion ∧ ¬ IdentityMap links := by
  constructor
  · intro h
    obtain ⟨u, hu, -⟩ := (h.named deletion.length (Nat.le_refl _)).verified ⟨"u_ada", "ada@x.dev", 1⟩
      (List.mem_singleton_self _)
    exact absurd hu List.not_mem_nil
  · intro h
    have hlinks : LinksAt links 14 "u_ada" "github" "g1" :=
      ⟨1, _, 1, _, ⟨by decide, rfl, rfl, rfl⟩, rfl⟩
    have hsubject := h.single 14 _ _ _ hlinks ⟨"u_ada", "github", "g2", 1⟩
      (List.mem_cons_of_mem _ List.mem_cons_self) rfl rfl
    exact absurd hsubject (by decide)

end

end Albedo.Auth
