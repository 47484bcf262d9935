import Albedo.Hooks.Receive
import Albedo.Jobs.Fires

/-!
# Each event once

A provider signs deliveries of its events. Anyone may send any request, but carries no signature of
a message that the provider did not sign. The queue is worked and swept in between.
-/
namespace Albedo.Hooks
open Jobs Trim

/-! ### What a verified delivery was signed as -/

theorem parseI64_chars {text : List Char} {i : ℤ} (h : parseI64 text = some i) :
    ∀ c ∈ text, c.isDigit ∨ c = '-' ∨ c = '+' := by
  have hdigits : ∀ digits : List Char, ¬ (digits = [] ∨ ¬ digits.all Char.isDigit) →
      ∀ c ∈ digits, c.isDigit := by
    intro digits hall c hc
    rw [not_or, not_not] at hall
    exact List.all_eq_true.mp hall.2 c hc
  unfold parseI64 at h
  split at h
  rename_i negative digits hsplit
  by_cases hall : digits = [] ∨ ¬ digits.all Char.isDigit
  · rw [if_pos hall] at h
    cases h
  intro c hc
  split at hsplit
  · cases hsplit
    rcases List.mem_cons.mp hc with rfl | hrest
    · exact Or.inr (Or.inl rfl)
    · exact Or.inl (hdigits _ hall c hrest)
  · cases hsplit
    rcases List.mem_cons.mp hc with rfl | hrest
    · exact Or.inr (Or.inr rfl)
    · exact Or.inl (hdigits _ hall c hrest)
  · cases hsplit
    exact Or.inl (hdigits _ hall c hc)

theorem separator_not_mem {b : UInt8} (hb : b = 46 ∨ b = 58) {timestamp : List Char} {i : ℤ}
    (h : parseI64 (trim timestamp) = some i) : b ∉ Utf8.encode timestamp := by
  intro hmem
  have hrange : b.toNat = 46 ∨ b.toNat = 58 := by
    rcases hb with rfl | rfl
    · exact Or.inl rfl
    · exact Or.inr rfl
  obtain ⟨c, hc, hcode⟩ := Utf8.mem_encode (by omega) hmem
  have hchar : c = '.' ∨ c = ':' := by
    rw [← hcode] at hrange
    rcases hrange with h | h
    · exact Or.inl (Char.ext (UInt32.toNat_inj.mp h))
    · exact Or.inr (Char.ext (UInt32.toNat_inj.mp h))
  have hblank : isWhitespace c = false := by
    rcases hchar with rfl | rfl <;> decide
  have hdigit := parseI64_chars h c (mem_trim hc hblank)
  rcases hchar with rfl | rfl <;> revert hdigit <;> decide

theorem separator_not_mem_toString {b : UInt8} (hb : b = 46 ∨ b = 58) (timestamp : ℤ) :
    b ∉ Utf8.encode (toString timestamp).toList := by
  intro hmem
  have hrange : b.toNat = 46 ∨ b.toNat = 58 := by
    rcases hb with rfl | rfl
    · exact Or.inl rfl
    · exact Or.inr rfl
  obtain ⟨c, hc, hcode⟩ := Utf8.mem_encode (by omega) hmem
  rw [← hcode] at hrange
  have hnumber := Json.isNumberChar_toString timestamp c hc
  rcases hrange with h | h
  · exact (Json.toString_not_float timestamp c hc).1 (Char.ext (UInt32.toNat_inj.mp h))
  · have hcolon : c = ':' := Char.ext (UInt32.toNat_inj.mp h)
    subst hcolon
    revert hnumber
    decide

def signedMessage (scheme : SignatureScheme) (timestamp : ℤ) (body : Bytes) : Bytes :=
  match scheme with
  | .stripe => Utf8.encode (toString timestamp).toList ++ 46 :: body
  | .paddle => Utf8.encode (toString timestamp).toList ++ 58 :: body
  | .github | .hmacSha256 | .razorpay => body

namespace Webhook

variable (env : Env) (hook : Webhook)

/-- The signatures a header carries, and the message they are checked against. -/
def checked (presented : List Char) (body : Bytes) : List (List Char) × Bytes :=
  match hook.scheme with
  | .stripe =>
      let fields := keyValues presented ','
      (all fields ['v', '1'], Utf8.encode ((single fields ['t']).getD []) ++ 46 :: body)
  | .paddle =>
      let fields := keyValues presented ';'
      (all fields ['h', '1'], Utf8.encode ((single fields ['t', 's']).getD []) ++ 58 :: body)
  | .github | .hmacSha256 =>
      let digest := trim presented
      ([if "sha256=".toList <+: digest then digest.drop 7 else digest], body)
  | .razorpay => ([trim presented], body)

/-- Some signature a request carries is that of the message it is checked against. -/
def Carries (header : Headers) (body : Bytes) (message : Bytes) : Prop :=
  ∃ presented, header hook.header = some presented ∧ message = (hook.checked presented body).2 ∧
    ∃ candidate ∈ (hook.checked presented body).1,
      decodeHex candidate = some (env.mac hook.secret message)

variable {env hook}

theorem checkAny_ok {candidates : List (List Char)} {message : Bytes}
    (h : hook.checkAny env candidates message = .ok ()) :
    ∃ candidate ∈ candidates, decodeHex candidate = some (env.mac hook.secret message) := by
  unfold checkAny at h
  split_ifs at h with hempty hany
  obtain ⟨candidate, hmem, hmatch⟩ := List.any_eq_true.mp hany
  exact ⟨candidate, hmem, of_decide_eq_true hmatch⟩

theorem checkFresh_ok {timestamp : List Char} {nowS : ℤ}
    (h : hook.checkFresh timestamp nowS = .ok ()) :
    ∃ signed, parseI64 (trim timestamp) = some signed ∧
      (toI64 (nowS - signed)).natAbs ≤ hook.tolerance := by
  unfold checkFresh at h
  cases hparse : parseI64 (trim timestamp) with
  | none =>
      rw [hparse] at h
      cases h
  | some signed =>
      rw [hparse] at h
      dsimp only at h
      split_ifs at h with hstale
      exact ⟨signed, rfl, Nat.le_of_not_lt hstale⟩

theorem checkTimed_ok {fields : List (List Char × List Char)} {timeKey key : List Char} {b : UInt8}
    (hb : b = 46 ∨ b = 58) {body : Bytes} {nowS : ℤ}
    (h : hook.checkTimed env fields timeKey key b body nowS = .ok ()) : ∃ timestamp,
      single fields timeKey = some timestamp ∧
      hook.checkAny env (all fields key) (Utf8.encode timestamp ++ b :: body) = .ok () ∧
      ∀ (signedAt : ℤ) signedBody, Utf8.encode timestamp ++ b :: body =
        Utf8.encode (toString signedAt).toList ++ b :: signedBody → body = signedBody := by
  unfold checkTimed at h
  cases htimestamp : single fields timeKey with
  | none =>
      rw [htimestamp] at h
      cases h
  | some timestamp =>
      rw [htimestamp] at h
      dsimp only at h
      cases hfresh : hook.checkFresh timestamp nowS with
      | error rejection =>
          rw [hfresh] at h
          cases h
      | ok =>
          rw [hfresh] at h
          obtain ⟨signed, hparse, -⟩ := checkFresh_ok hfresh
          refine ⟨timestamp, rfl, h, ?_⟩
          intro signedAt signedBody hmessage
          exact (Separator.append_separator_inj (separator_not_mem hb hparse)
            (separator_not_mem_toString hb signedAt) hmessage).2

theorem carries_of_checkAny {header : Headers} {presented : List Char} {body : Bytes}
    (hpresented : header hook.header = some presented) {candidates : List (List Char)}
    {message : Bytes} (hchecked : hook.checked presented body = (candidates, message))
    (hany : hook.checkAny env candidates message = .ok ()) :
    hook.Carries env header body message := by
  obtain ⟨candidate, hmem, hmatch⟩ := checkAny_ok hany
  refine ⟨presented, hpresented, ?_, candidate, ?_, hmatch⟩
  · rw [hchecked]
  · rw [hchecked]
    exact hmem

theorem verify_ok {header : Headers} {body : Bytes} {nowS : ℤ}
    (h : hook.verify env header body nowS = .ok ()) : ∃ message,
      hook.Carries env header body message ∧
      ∀ timestamp signedBody, message = signedMessage hook.scheme timestamp signedBody →
        body = signedBody := by
  unfold verify at h
  cases hpresented : header hook.header with
  | none =>
      rw [hpresented] at h
      cases h
  | some presented =>
      rw [hpresented] at h
      dsimp only at h
      have hchecked : hook.checked presented body = hook.checked presented body := rfl
      conv_rhs at hchecked => rw [checked]
      cases hscheme : hook.scheme with
      | stripe =>
          rw [hscheme] at h hchecked
          obtain ⟨timestamp, htimestamp, hany, hbody⟩ := checkTimed_ok (Or.inl rfl) h
          dsimp only at hchecked
          rw [htimestamp, Option.getD_some] at hchecked
          exact ⟨_, carries_of_checkAny hpresented hchecked hany, hbody⟩
      | paddle =>
          rw [hscheme] at h hchecked
          obtain ⟨timestamp, htimestamp, hany, hbody⟩ := checkTimed_ok (Or.inr rfl) h
          dsimp only at hchecked
          rw [htimestamp, Option.getD_some] at hchecked
          exact ⟨_, carries_of_checkAny hpresented hchecked hany, hbody⟩
      | github =>
          rw [hscheme] at h hchecked
          exact ⟨body, carries_of_checkAny hpresented hchecked h, fun _ _ hmessage => hmessage⟩
      | razorpay =>
          rw [hscheme] at h hchecked
          exact ⟨body, carries_of_checkAny hpresented hchecked h, fun _ _ hmessage => hmessage⟩
      | hmacSha256 =>
          rw [hscheme] at h hchecked
          exact ⟨body, carries_of_checkAny hpresented hchecked h, fun _ _ hmessage => hmessage⟩

theorem enqueueOf_ok {backend : Backend} {event : Json.Value} {id : List Char} {nowS : ℤ}
    {enqueue : Enqueue} (h : hook.enqueueOf env backend event id nowS = .ok enqueue) :
    enqueue.id = hook.queueId id := by
  unfold enqueueOf at h
  split_ifs at h
  split at h
  · cases h
  · cases h
  · cases h
    rfl

theorem enqueueOf_error {backend : Backend} {event : Json.Value} {id : List Char} {nowS : ℤ}
    {status : ℕ} (h : hook.enqueueOf env backend event id nowS = .error status) : status ≠ 200 := by
  unfold enqueueOf at h
  split_ifs at h
  · split at h <;> cases h <;> decide
  · cases h
    decide

theorem accept_ok {backend : Backend} {request : Request} {nowS : ℤ} {enqueue : Enqueue}
    (h : hook.accept env backend request nowS = .ok enqueue) :
    hook.verify env request.header request.body nowS = .ok () ∧
      ∃ fields id, env.fromSlice request.body = some (.object fields) ∧
        hook.eventId request.header (.object fields) = .ok id ∧ enqueue.id = hook.queueId id := by
  unfold accept at h
  split_ifs at h
  split at h
  · cases h
  · rename_i hverify
    refine ⟨hverify, ?_⟩
    split at h
    · rename_i fields hfields
      split at h
      · cases h
      · rename_i id hid
        exact ⟨fields, id, hfields, hid, enqueueOf_ok h⟩
    · cases h

theorem accept_error {backend : Backend} {request : Request} {nowS : ℤ} {status : ℕ}
    (h : hook.accept env backend request nowS = .error status) : status ≠ 200 := by
  unfold accept at h
  split_ifs at h
  · cases h
    decide
  · cases h
    decide
  · split at h
    · cases h
      decide
    · split at h
      · split at h
        · cases h
          decide
        · exact enqueueOf_error h
      · cases h
        decide

theorem receive_cases (backend : Backend) (request : Request) (nowS : ℤ) (jobs : Table) :
    ((hook.receive env backend request nowS jobs).inserted = false ∧
      (hook.receive env backend request nowS jobs).jobs = jobs ∧
      ((hook.receive env backend request nowS jobs).status = 200 → ∃ enqueue row,
        hook.accept env backend request nowS = .ok enqueue ∧
          jobs.lookup enqueue.id = some row)) ∨
    ∃ enqueue, hook.accept env backend request nowS = .ok enqueue ∧ backend.write ≠ .refused ∧
      jobs.lookup enqueue.id = none ∧
      (hook.receive env backend request nowS jobs).inserted = true ∧
      (hook.receive env backend request nowS jobs).jobs = jobs.insert enqueue.id enqueue.row := by
  unfold receive
  cases haccept : hook.accept env backend request nowS with
  | error status => exact Or.inl ⟨rfl, rfl, fun hstatus => absurd hstatus (accept_error haccept)⟩
  | ok enqueue =>
      dsimp only
      by_cases hwrite : backend.write = .refused
      · rw [hwrite]
        refine Or.inl ⟨rfl, rfl, ?_⟩
        intro hstatus
        cases hstatus
      · cases hlookup : jobs.lookup enqueue.id with
        | some row =>
            have hsame : jobs.enqueue enqueue = (false, jobs) := by
              rw [Table.enqueue, hlookup]
            left
            rw [hsame]
            cases hcase : backend.write with
            | refused => exact absurd hcase hwrite
            | done => exact ⟨rfl, rfl, fun _ => ⟨enqueue, row, rfl, hlookup⟩⟩
            | unanswered => exact ⟨rfl, rfl, fun _ => ⟨enqueue, row, rfl, hlookup⟩⟩
        | none =>
            have hnew : jobs.enqueue enqueue = (true, jobs.insert enqueue.id enqueue.row) := by
              rw [Table.enqueue, hlookup]
            refine Or.inr ⟨enqueue, rfl, hwrite, hlookup, ?_⟩
            rw [hnew]
            cases hcase : backend.write with
            | refused => exact absurd hcase hwrite
            | done => exact ⟨rfl, rfl⟩
            | unanswered => exact ⟨rfl, rfl⟩

end Webhook

/-! ### The provider, the queue and everyone else -/

structure Provider (E : Type*) where
  body : E → Bytes
  headers : E → Headers

/-- A request that was answered: its body, its status, the id it had on the queue if it came so
far, and whether it put a row there. -/
structure Entry where
  body : Bytes
  status : ℕ
  queueId : Option String
  inserted : Bool

/-- The queue and what it was asked, with the signed deliveries and the ids of the rows that sweeps
have taken. -/
structure State (E : Type*) where
  jobs : Table
  signed : List (E × ℤ)
  log : List Entry
  swept : List String

inductive Action (E : Type*)
  | sign (event : E) (timestamp : ℤ)
  | deliver (backend : Backend) (request : Request) (nowS : ℤ)
  | claim (now lease : ℤ) (tie : String → ℕ)
  | complete (id : String) (now : ℤ)
  | fail (job : ClaimedJob) (now : ℤ) (error : String) (jitter : ℤ → ℤ)
  | sweep (before : ℤ)

variable {E : Type*} (env : Env) (hook : Webhook) (provider : Provider E)

def queueIdOf (event : E) : Option String :=
  match env.fromSlice (provider.body event) with
  | some (.object fields) =>
      ((hook.eventId (provider.headers event) (.object fields)).toOption).map hook.queueId
  | _ => none

def Entry.IsFor (entry : Entry) (event : E) : Prop :=
  entry.body = provider.body event ∧ entry.queueId = queueIdOf env hook provider event

instance (entry : Entry) (event : E) : Decidable (entry.IsFor env hook provider event) :=
  inferInstanceAs (Decidable (_ ∧ _))

namespace State

def start : State E := ⟨∅, [], [], []⟩

def apply (s : State E) : Action E → State E
  | .sign event timestamp => { s with signed := (event, timestamp) :: s.signed }
  | .deliver backend request nowS =>
      let reply := hook.receive env backend request nowS s.jobs
      let queueId := (hook.accept env backend request nowS).toOption.map Enqueue.id
      { s with
        jobs := reply.jobs
        log := ⟨request.body, reply.status, queueId, reply.inserted⟩ :: s.log }
  | .claim now lease tie => { s with jobs := (s.jobs.claimDue now lease tie).2 }
  | .complete id now => { s with jobs := s.jobs.complete id now }
  | .fail job now error jitter => { s with jobs := (s.jobs.fail job now error jitter).2 }
  | .sweep before =>
      let taken := s.jobs.keys.filter fun id => ((s.jobs.sweepDone before).lookup id).isNone
      { s with jobs := s.jobs.sweepDone before, swept := taken ++ s.swept }

def Signed (s : State E) (event : E) : Prop := ∃ timestamp, (event, timestamp) ∈ s.signed

/-- HMAC-SHA256 is not forged: a signature that a request carries is of a message that the provider
has signed. -/
def Unforged (s : State E) : Action E → Prop
  | .deliver _ request _ => ∀ message, hook.Carries env request.header request.body message →
      ∃ event timestamp, (event, timestamp) ∈ s.signed ∧
        message = signedMessage hook.scheme timestamp (provider.body event)
  | _ => True

/-- No two events have one id on the queue; and what a delivery puts there has the id of an event
with its body, whose row no sweep has taken. -/
def Identified (s : State E) : Action E → Prop
  | .sign event _ => ∀ other id, s.Signed other → queueIdOf env hook provider event = some id →
      queueIdOf env hook provider other = some id → other = event
  | .deliver backend request nowS => ∀ enqueue,
      hook.accept env backend request nowS = .ok enqueue → s.jobs.lookup enqueue.id = none →
      backend.write ≠ .refused → (∃ event, s.Signed event ∧ request.body = provider.body event) →
      enqueue.id ∉ s.swept ∧ ∃ event, s.Signed event ∧ request.body = provider.body event ∧
        queueIdOf env hook provider event = some enqueue.id
  | _ => True

def queued (s : State E) (event : E) : ℕ :=
  s.log.countP fun entry => entry.inserted ∧ entry.IsFor env hook provider event

/-- Only what the provider signed was queued, each event at most once and, if a delivery of it was
answered with 200, exactly once; and no two events have one id on the queue. -/
structure Once (s : State E) : Prop where
  signed : ∀ entry ∈ s.log, entry.inserted →
    ∃ event, s.Signed event ∧ entry.IsFor env hook provider event
  atMost : ∀ event, s.queued env hook provider event ≤ 1
  exactly : ∀ event, s.Signed event →
    (∃ entry ∈ s.log, entry.status = 200 ∧ entry.IsFor env hook provider event) →
    s.queued env hook provider event = 1
  apart : ∀ event other id, s.Signed event → s.Signed other →
    queueIdOf env hook provider event = some id → queueIdOf env hook provider other = some id →
    event = other

inductive Run (P : State E → Action E → Prop) : State E → Prop
  | start : Run P start
  | step {s : State E} (a : Action E) : Run P s → P s a → Run P (s.apply env hook a)

/-- What holds of the queue beside: each row was put there by a request, and stays until it is
swept, and so was the row that a request answered with 200 found. -/
structure Kept (s : State E) : Prop where
  signed : ∀ entry ∈ s.log, entry.inserted →
    ∃ event, s.Signed event ∧ entry.IsFor env hook provider event
  atMost : ∀ event, s.queued env hook provider event ≤ 1
  apart : ∀ event other id, s.Signed event → s.Signed other →
    queueIdOf env hook provider event = some id → queueIdOf env hook provider other = some id →
    event = other
  rows : ∀ id row, s.jobs.lookup id = some row →
    ∃ entry ∈ s.log, entry.inserted ∧ entry.queueId = some id
  stays : ∀ entry ∈ s.log, entry.inserted → ∀ id, entry.queueId = some id →
    (∃ row, s.jobs.lookup id = some row) ∨ id ∈ s.swept
  answered : ∀ entry ∈ s.log, entry.status = 200 → ∃ id, entry.queueId = some id ∧
    ∃ before ∈ s.log, before.inserted ∧ before.queueId = some id

variable {env hook provider} {s : State E}

theorem Kept.once (h : s.Kept env hook provider) : s.Once env hook provider := by
  refine ⟨h.signed, h.atMost, ?_, h.apart⟩
  intro event hevent hanswered
  obtain ⟨entry, hentry, hstatus, hfor⟩ := hanswered
  obtain ⟨id, hid, before, hbefore, hinserted, hsame⟩ := h.answered entry hentry hstatus
  obtain ⟨other, hother, hotherFor⟩ := h.signed before hbefore hinserted
  have heq : event = other :=
    h.apart event other id hevent hother (hfor.2.symm.trans hid) (hotherFor.2.symm.trans hsame)
  subst heq
  have hpos : 0 < s.queued env hook provider event :=
    List.countP_pos_iff.mpr ⟨before, hbefore, decide_eq_true ⟨hinserted, hotherFor⟩⟩
  exact Nat.le_antisymm (h.atMost event) hpos

theorem Kept.work (h : s.Kept env hook provider) {jobs : Table} {swept : List String}
    (hjobs : ∀ id row, jobs.lookup id = some row → ∃ before, s.jobs.lookup id = some before)
    (hstays : ∀ id row, s.jobs.lookup id = some row →
      (∃ after, jobs.lookup id = some after) ∨ id ∈ swept) (hswept : s.swept ⊆ swept) :
    ({ s with jobs := jobs, swept := swept } : State E).Kept env hook provider := by
  refine ⟨h.signed, h.atMost, h.apart, ?_, ?_, h.answered⟩
  · intro id row hrow
    obtain ⟨before, hbefore⟩ := hjobs id row hrow
    exact h.rows id before hbefore
  · intro entry hentry hinserted id hid
    rcases h.stays entry hentry hinserted id hid with ⟨row, hrow⟩ | hgone
    · exact hstays id row hrow
    · exact Or.inr (hswept hgone)

theorem Kept.update (h : s.Kept env hook provider) (key : String) (f : JobRow → JobRow) :
    ({ s with jobs := s.jobs.update key f } : State E).Kept env hook provider := by
  refine h.work ?_ ?_ (List.Subset.refl _)
  · intro id row hrow
    rcases Table.lookup_update_cases hrow with hsame | ⟨rfl, before, hbefore, -⟩
    · exact ⟨row, hsame⟩
    · exact ⟨before, hbefore⟩
  · intro id row hrow
    left
    rw [Table.lookup_update]
    split_ifs with hid
    · rw [← hid, hrow]
      exact ⟨f row, rfl⟩
    · exact ⟨row, hrow⟩

theorem Kept.claim (h : s.Kept env hook provider) (now lease : ℤ) (tie : String → ℕ) :
    ({ s with jobs := (s.jobs.claimDue now lease tie).2 } : State E).Kept env hook provider := by
  cases hclaim : s.jobs.claimDue now lease tie with
  | mk job jobs =>
      cases job with
      | none =>
          have hsame : jobs = s.jobs := by
            unfold Table.claimDue at hclaim
            split at hclaim
            · exact (Prod.mk.inj hclaim).2.symm
            · split at hclaim
              · split_ifs at hclaim
                · cases (Prod.mk.inj hclaim).1
                · exact (Prod.mk.inj hclaim).2.symm
              · exact (Prod.mk.inj hclaim).2.symm
          rw [hsame]
          exact h
      | some job =>
          obtain ⟨due, -, hdue, -, -, hjobs⟩ := Table.claimDue_some hclaim
          rw [hjobs]
          refine h.work ?_ ?_ (List.Subset.refl _)
          · intro id row hrow
            rw [Table.lookup_insert_eq] at hrow
            split_ifs at hrow with hid
            · exact ⟨due, hid ▸ hdue⟩
            · exact ⟨row, hrow⟩
          · intro id row hrow
            left
            rw [Table.lookup_insert_eq]
            split_ifs
            · exact ⟨_, rfl⟩
            · exact ⟨row, hrow⟩

theorem Kept.sweep (h : s.Kept env hook provider) (before : ℤ) :
    (s.apply env hook (.sweep before)).Kept env hook provider := by
  refine h.work ?_ ?_ (List.subset_append_right _ _)
  · exact fun id row hrow => ⟨row, Table.lookup_of_sweepDone hrow⟩
  · intro id row hrow
    cases hafter : (s.jobs.sweepDone before).lookup id with
    | some after => exact Or.inl ⟨after, rfl⟩
    | none =>
        right
        refine List.mem_append_left _ (List.mem_filter.mpr ⟨?_, ?_⟩)
        · rw [← AList.mem_keys, ← AList.lookup_isSome, hrow]
          rfl
        · rw [hafter]
          rfl

theorem Kept.sign (h : s.Kept env hook provider) {event : E} {timestamp : ℤ}
    (hid : s.Identified env hook provider (.sign event timestamp)) :
    (s.apply env hook (.sign event timestamp)).Kept env hook provider := by
  have hmore : ∀ other, s.Signed other → (s.apply env hook (.sign event timestamp)).Signed other := by
    intro other hother
    obtain ⟨t, ht⟩ := hother
    exact ⟨t, List.mem_cons_of_mem _ ht⟩
  have hfewer : ∀ other, (s.apply env hook (.sign event timestamp)).Signed other →
      other = event ∨ s.Signed other := by
    intro other hother
    obtain ⟨t, ht⟩ := hother
    rcases List.mem_cons.mp ht with hnew | hold
    · exact Or.inl (Prod.mk.inj hnew).1
    · exact Or.inr ⟨t, hold⟩
  refine ⟨?_, h.atMost, ?_, h.rows, h.stays, h.answered⟩
  · intro entry hentry hinserted
    obtain ⟨other, hother, hfor⟩ := h.signed entry hentry hinserted
    exact ⟨other, hmore other hother, hfor⟩
  · intro first second id hfirst hsecond hfirstId hsecondId
    rcases hfewer first hfirst with rfl | hfirst'
    · rcases hfewer second hsecond with rfl | hsecond'
      · rfl
      · exact (hid second id hsecond' hfirstId hsecondId).symm
    · rcases hfewer second hsecond with rfl | hsecond'
      · exact hid first id hfirst' hsecondId hfirstId
      · exact h.apart first second id hfirst' hsecond' hfirstId hsecondId

theorem Kept.deliver (h : s.Kept env hook provider) {backend : Backend} {request : Request}
    {nowS : ℤ} (hunforged : s.Unforged env hook provider (.deliver backend request nowS))
    (hid : s.Identified env hook provider (.deliver backend request nowS)) :
    (s.apply env hook (.deliver backend request nowS)).Kept env hook provider := by
  unfold apply
  dsimp only
  rcases hook.receive_cases backend request nowS s.jobs with
    ⟨hinserted, hjobs, hstatus⟩ | ⟨enqueue, haccept, hwrite, hfree, hinserted, hjobs⟩
  · rw [hinserted, hjobs]
    refine ⟨?_, ?_, h.apart, ?_, ?_, ?_⟩
    · intro entry hentry hin
      rcases List.mem_cons.mp hentry with rfl | hold
      · cases hin
      · exact h.signed entry hold hin
    · intro event
      unfold queued
      rw [List.countP_cons_of_neg (by simp)]
      exact h.atMost event
    · intro id row hrow
      obtain ⟨entry, hentry, hin⟩ := h.rows id row hrow
      exact ⟨entry, List.mem_cons_of_mem _ hentry, hin⟩
    · intro entry hentry hin
      rcases List.mem_cons.mp hentry with rfl | hold
      · cases hin
      · exact h.stays entry hold hin
    · intro entry hentry hok
      rcases List.mem_cons.mp hentry with rfl | hold
      · obtain ⟨enqueue, row, haccept, hrow⟩ := hstatus hok
        obtain ⟨before, hbefore, hin, hsame⟩ := h.rows enqueue.id row hrow
        refine ⟨enqueue.id, ?_, before, List.mem_cons_of_mem _ hbefore, hin, hsame⟩
        dsimp only
        rw [haccept]
        rfl
      · obtain ⟨id, hsame, before, hbefore, hin⟩ := h.answered entry hold hok
        exact ⟨id, hsame, before, List.mem_cons_of_mem _ hbefore, hin⟩
  · obtain ⟨hverify, -⟩ := Webhook.accept_ok haccept
    obtain ⟨message, hcarries, hbody⟩ := Webhook.verify_ok hverify
    obtain ⟨signer, signedAt, hsigned, hmessage⟩ := hunforged message hcarries
    obtain ⟨hunswept, event, hevent, hsameBody, hqueue⟩ := hid enqueue haccept hfree hwrite
      ⟨signer, ⟨signedAt, hsigned⟩, hbody signedAt _ hmessage⟩
    rw [hinserted, hjobs, haccept]
    refine ⟨?_, ?_, h.apart, ?_, ?_, ?_⟩
    · intro entry hentry hin
      rcases List.mem_cons.mp hentry with rfl | hold
      · exact ⟨event, hevent, hsameBody, hqueue.symm⟩
      · exact h.signed entry hold hin
    · intro other
      unfold queued
      by_cases hfor : Entry.IsFor env hook provider
          ⟨request.body, (hook.receive env backend request nowS s.jobs).status, some enqueue.id, true⟩ other
      · -- what was queued before under this id is there still, or was swept
        have hnone : s.log.countP (fun entry =>
            entry.inserted ∧ entry.IsFor env hook provider other) = 0 := by
          rw [List.countP_eq_zero]
          intro entry hentry hboth
          obtain ⟨hin, hentryFor⟩ := of_decide_eq_true hboth
          have hid := hentryFor.2.trans hfor.2.symm
          rcases h.stays entry hentry hin enqueue.id hid with ⟨row, hrow⟩ | hgone
          · rw [hfree] at hrow
            cases hrow
          · exact hunswept hgone
        have hcons := List.countP_cons_of_pos (l := s.log) (p := fun entry : Entry =>
          decide (entry.inserted = true ∧ entry.IsFor env hook provider other))
          (decide_eq_true ⟨rfl, hfor⟩)
        rw [hnone] at hcons
        exact le_of_eq hcons
      · have hcons := List.countP_cons_of_neg (l := s.log) (p := fun entry : Entry =>
          decide (entry.inserted = true ∧ entry.IsFor env hook provider other))
          (fun hboth => hfor (of_decide_eq_true hboth).2)
        exact hcons.trans_le (h.atMost other)
    · intro id row hrow
      rw [Table.lookup_insert_eq] at hrow
      split_ifs at hrow with heq
      · exact ⟨_, List.mem_cons_self, rfl, congrArg some heq.symm⟩
      · obtain ⟨entry, hentry, hin⟩ := h.rows id row hrow
        exact ⟨entry, List.mem_cons_of_mem _ hentry, hin⟩
    · intro entry hentry hin id hsame
      rw [Table.lookup_insert_eq]
      split_ifs with heq
      · exact Or.inl ⟨_, rfl⟩
      · rcases List.mem_cons.mp hentry with rfl | hold
        · exact absurd (Option.some.inj hsame).symm heq
        · exact h.stays entry hold hin id hsame
    · intro entry hentry hok
      rcases List.mem_cons.mp hentry with rfl | hold
      · exact ⟨enqueue.id, rfl, _, List.mem_cons_self, rfl, rfl⟩
      · obtain ⟨id, hsame, before, hbefore, hin⟩ := h.answered entry hold hok
        exact ⟨id, hsame, before, List.mem_cons_of_mem _ hbefore, hin⟩

theorem kept_start : (start : State E).Kept env hook provider := by
  refine ⟨?_, fun _ => Nat.zero_le 1, ?_, ?_, ?_, ?_⟩
  · intro entry hentry
    cases hentry
  · intro event other id hevent
    obtain ⟨t, ht⟩ := hevent
    cases ht
  · intro id row hrow
    cases hrow
  · intro entry hentry
    cases hentry
  · intro entry hentry
    cases hentry

/-- In a run whose steps forge no signature and leave events their ids, every event is queued
once. -/
theorem once_of_identified (h : Run env hook
    (fun s a => s.Unforged env hook provider a ∧ s.Identified env hook provider a) s) :
    s.Once env hook provider := by
  refine Kept.once ?_
  induction h with
  | start => exact kept_start
  | step a _ hstep ih =>
      obtain ⟨hunforged, hid⟩ := hstep
      cases a with
      | sign event timestamp => exact ih.sign hid
      | deliver backend request nowS => exact ih.deliver hunforged hid
      | claim now lease tie => exact ih.claim now lease tie
      | complete id now => exact ih.update id _
      | fail job now error jitter => exact ih.update job.id _
      | sweep before => exact ih.sweep before

/-! ### A header that nobody signs -/

def ping : Bytes := Utf8.encode "\x7b\"zen\":\"x\"\x7d".toList

def pingSecret : Bytes := Utf8.encode "whsec_test".toList

def pingDigest : List Char :=
  "d570102c4bbd559b4c4fda5a1f764be638988e094e0f124e87713108b1479270".toList

/-- What HMAC-SHA256 and the JSON reader give for one body. -/
def pingEnv : Env where
  mac key message := if key = pingSecret ∧ message = ping then (decodeHex pingDigest).getD [] else []
  fromSlice bytes := if bytes = ping then some (.object [("zen", .string "x")]) else none
  maxAttemptsFor _ := some 5

def pingHook : Webhook := (⟨.github, "push", none, none, none⟩ : WebhookDecl).lower "gh" pingSecret

def pingHeaders (delivery : List Char) : Headers := fun name =>
  if name = "x-hub-signature-256" then some ("sha256=".toList ++ pingDigest)
  else if name = "x-github-delivery" then some delivery else none

def pingProvider : Provider Unit := ⟨fun _ => ping, fun _ => pingHeaders "d-1".toList⟩

def openBackend : Backend := ⟨true, fun _ => some none, .done⟩

def pingRequest (delivery : List Char) : Request := ⟨"POST", pingHeaders delivery, ping⟩

def sent (delivery : List Char) : Action Unit := .deliver openBackend (pingRequest delivery) 0

def signedOnce : State Unit := start.apply pingEnv pingHook (.sign () 0)

def receivedOnce : State Unit := signedOnce.apply pingEnv pingHook (sent "d-1".toList)

theorem unforged_ping {s : State Unit} (hsigned : ((), 0) ∈ s.signed) (delivery : List Char) :
    s.Unforged pingEnv pingHook pingProvider (sent delivery) := by
  intro message hcarries
  obtain ⟨presented, -, hmessage, -⟩ := hcarries
  exact ⟨(), 0, hsigned, hmessage⟩

theorem identified_ping :
    signedOnce.Identified pingEnv pingHook pingProvider (sent "d-1".toList) := by
  intro enqueue haccept _ _ _
  have hid : ((pingHook.accept pingEnv openBackend (pingRequest "d-1".toList) 0).toOption).map
      Enqueue.id = queueIdOf pingEnv pingHook pingProvider () := by decide +kernel
  refine ⟨List.not_mem_nil, (), ⟨0, List.mem_cons_self⟩, rfl, ?_⟩
  rw [← hid, haccept]
  rfl

theorem once_of_identified_ping : receivedOnce.Once pingEnv pingHook pingProvider :=
  once_of_identified
    (.step (sent "d-1".toList)
      (.step (.sign () 0) .start ⟨trivial, fun _ _ hother => by obtain ⟨_, h⟩ := hother; cases h⟩)
      ⟨unforged_ping List.mem_cons_self _, identified_ping⟩)

/-- A captured delivery that is sent again under another id is queued again. -/
theorem resent_not_once : ¬ ∀ s : State Unit,
    Run pingEnv pingHook (fun s a => s.Unforged pingEnv pingHook pingProvider a) s →
      s.Once pingEnv pingHook pingProvider := by
  intro h
  have hrun : Run pingEnv pingHook (fun s a => s.Unforged pingEnv pingHook pingProvider a)
      (receivedOnce.apply pingEnv pingHook (sent "d-2".toList)) :=
    .step _ (.step _ (.step (.sign () 0) .start trivial) (unforged_ping List.mem_cons_self _))
      (unforged_ping List.mem_cons_self _)
  obtain ⟨⟨⟩, -, hfor⟩ := (h _ hrun).signed _ List.mem_cons_self (by decide)
  have hid := hfor.2
  revert hid
  decide

end State

end Albedo.Hooks
