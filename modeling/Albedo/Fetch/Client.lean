import Albedo.Fetch.Cache
import Mathlib.Logic.Function.Basic

/-!
# The outbound client

Calls for one resource that come while it is fetched wait for what is fetched. A call looks into
the cache, joins or leads, and goes to the upstream and back, and between any two of these steps
other calls make theirs. Calls are dropped where they wait.
-/
namespace Albedo.Fetch

/-! ### Requests and answers -/

inductive ApertureError
  | invalidUrl (url : List Char)
  | egress (reason : String)
  | transport (message : String)
  | timeout (after : ℕ)
  | danglingRevalidation
  | throttled (host : List Char) (retryAfter : ℕ)

structure WireRequest where
  method : List Char
  url : List Char
  headers : List (String × List Char)
  body : Option Bytes

structure WireResponse where
  status : ℕ
  body : Bytes
  headers : List (String × List Char)
  etag : Option (List Char)
  lastModified : Option (List Char)
  contentType : Option (List Char)

def WireResponse.cached (r : WireResponse) : CachedResponse :=
  ⟨r.status, r.body, r.contentType, ⟨r.etag, r.lastModified⟩⟩

inductive Disposition
  | freshHit
  | notModified
  | fetched
  | staleOnError

structure FetchOutcome where
  response : CachedResponse
  disposition : Disposition

abbrev Outcome := Except ApertureError FetchOutcome

structure ApertureRequest where
  method : List Char
  url : List Char
  scope : CacheScope
  /-- How long an answer is good for; `none` is for ever. -/
  ttl : Option ℕ
  headers : List (String × List Char)
  body : Option Bytes

namespace ApertureRequest

def key (r : ApertureRequest) : ResourceKey := ResourceKey.new r.method r.url r.scope

def isCacheable (r : ApertureRequest) : Bool :=
  r.method.map Char.toUpper = "GET".toList || r.method.map Char.toUpper = "HEAD".toList

/-- `build_wire_request`. -/
def wire (r : ApertureRequest) (validators : Validators) : WireRequest where
  method := r.method.map Char.toUpper
  url := r.url
  headers := r.headers ++
    if r.isCacheable then
      match validators.etag, validators.lastModified with
      | some etag, _ => [("if-none-match", etag)]
      | none, some lastModified => [("if-modified-since", lastModified)]
      | none, none => []
    else []
  body := r.body

end ApertureRequest

/-! ### Calls -/

/-- How far `perform` is. -/
inductive Stage
  | validators
  | charge (wire : WireRequest)
  | sent (wire : WireRequest)
  | confirmed
  | refresh (entry : Entry)
  | reread
  | compare (response : CachedResponse)
  | store (response : CachedResponse)
  | measure (response : CachedResponse)
  | collect (response : CachedResponse) (total : ℕ)
  | evict (response : CachedResponse) (total : ℕ) (candidates : List (ℕ × ResourceKey × ℕ))
  | fallBack (error : ApertureError)

/-- How far a call is. One that follows knows whom, and how often it has joined. -/
inductive Phase
  | called
  | joining (attempt : ℕ)
  | following (leader attempt : ℕ)
  | performing (leads : Bool) (stage : Stage)
  | publishing (outcome : Outcome)
  | removing (outcome : Outcome)
  | uncached (wire : WireRequest) (sent : Bool)
  | returned (outcome : Outcome)
  | dropped

def Phase.leads : Phase → Bool
  | .performing leads _ => leads
  | .publishing _ | .removing _ => true
  | _ => false

structure Caller where
  request : ApertureRequest
  phase : Phase

structure Client where
  cache : ResponseCache
  /-- Who leads, by resource. -/
  inflight : ResourceKey → Option ℕ
  /-- What a leader has sent to those that follow it. -/
  published : ℕ → Option Outcome
  callers : ℕ → Option Caller
  now : ℕ
  /-- What was sent for a resource, and what came back. -/
  sends : List ResourceKey
  answers : List (ResourceKey × WireResponse)

inductive Event
  | call (caller : ℕ) (request : ApertureRequest)
  /-- The next step of a call that waits for nothing. -/
  | run (caller : ℕ)
  /-- The budget of the host is spent. -/
  | refuse (caller : ℕ) (host : List Char) (retryAfter : ℕ)
  | answer (caller : ℕ) (answer : Except ApertureError WireResponse)
  | drop (caller : ℕ)
  | pass (ms : ℕ)

namespace Client

def start (budget : ℕ) : Client :=
  ⟨ResponseCache.new budget, fun _ => none, fun _ => none, fun _ => none, 0, [], []⟩

/-- What `perform` ends with goes to the followers first. -/
def finish (leads : Bool) (outcome : Outcome) : Phase :=
  if leads then .publishing outcome else .returned outcome

/-- A step of `perform` that waits for nothing. -/
def runStage (σ : Client) (request : ApertureRequest) (leads : Bool) :
    Stage → Option (Phase × Client)
  | .validators =>
      some (.performing leads
        (.charge (request.wire ((σ.cache.validators request.key).getD ⟨none, none⟩))), σ)
  | .charge wire =>
      some (.performing leads (.sent wire), { σ with sends := request.key :: σ.sends })
  | .sent _ => none
  | .confirmed =>
      match σ.cache.find request.key with
      | none => some (finish leads (.error .danglingRevalidation), σ)
      | some entry => some (.performing leads (.refresh entry), σ)
  | .refresh entry =>
      some (.performing leads .reread,
        { σ with cache := σ.cache.refresh request.key σ.now entry })
  | .reread =>
      match σ.cache.get request.key σ.now request.ttl with
      | (none, cache) => some (finish leads (.error .danglingRevalidation), { σ with cache })
      | (some hit, cache) => some (finish leads (.ok ⟨hit.response, .notModified⟩), { σ with cache })
  | .compare response =>
      some (.performing leads (.store response),
        { σ with cache := (σ.cache.get request.key σ.now none).2 })
  | .store response =>
      some (.performing leads (.measure response),
        { σ with cache := σ.cache.insert request.key σ.now response })
  | .measure response =>
      if σ.cache.residentBytes ≤ σ.cache.budget then
        some (finish leads (.ok ⟨response, .fetched⟩), σ)
      else some (.performing leads (.collect response σ.cache.residentBytes), σ)
  | .collect response total =>
      some (.performing leads (.evict response total σ.cache.candidates), σ)
  | .evict response _ [] => some (finish leads (.ok ⟨response, .fetched⟩), σ)
  | .evict response total ((_, key, footprint) :: rest) =>
      if total ≤ σ.cache.budget then some (finish leads (.ok ⟨response, .fetched⟩), σ)
      else if (σ.cache.find key).isSome then
        some (.performing leads (.evict response (total - footprint) rest),
          { σ with cache := σ.cache.remove key })
      else some (.performing leads (.evict response total rest), σ)
  | .fallBack error =>
      match σ.cache.get request.key σ.now none with
      | (none, cache) => some (finish leads (.error error), { σ with cache })
      | (some hit, cache) => some (finish leads (.ok ⟨hit.response, .staleOnError⟩), { σ with cache })

def alive (σ : Client) (leader : ℕ) : Bool := (σ.callers leader).any fun c => c.phase.leads

/-- A step of a call that waits for nothing. -/
def runPhase (check : ApertureRequest → Option ApertureError) (σ : Client) (i : ℕ)
    (request : ApertureRequest) : Phase → Option (Phase × Client)
  | .called =>
      match check request with
      | some error => some (.returned (.error error), σ)
      | none =>
          if ¬ request.isCacheable then some (.uncached (request.wire ⟨none, none⟩) false, σ)
          else match σ.cache.get request.key σ.now request.ttl with
          | (none, cache) => some (.joining 0, { σ with cache })
          | (some hit, cache) =>
              if hit.fresh then
                some (.returned (.ok ⟨hit.response, .freshHit⟩), { σ with cache })
              else some (.joining 0, { σ with cache })
  | .joining attempt =>
      match σ.inflight request.key with
      | some leader => some (.following leader attempt, σ)
      | none => some (.performing true .validators,
          { σ with inflight := Function.update σ.inflight request.key (some i) })
  | .following leader attempt =>
      match σ.published leader with
      | some outcome => some (.returned outcome, σ)
      | none =>
          if σ.alive leader then none
          else if attempt + 1 < 2 then some (.joining (attempt + 1), σ)
          else some (.performing false .validators, σ)
  | .performing leads stage => σ.runStage request leads stage
  | .publishing outcome =>
      some (.removing outcome, { σ with published := Function.update σ.published i (some outcome) })
  | .removing outcome =>
      some (.returned outcome,
        { σ with inflight := Function.update σ.inflight request.key none })
  | .uncached wire false => some (.uncached wire true, σ)
  | .uncached _ true | .returned _ | .dropped => none

def received (leads : Bool) : Except ApertureError WireResponse → Phase
  | .error error => .performing leads (.fallBack error)
  | .ok response =>
      .performing leads (if response.status = 304 then .confirmed else .compare response.cached)

/-- A step of one call, which is all but its own phase that the step changes. -/
def stepCaller (check : ApertureRequest → Option ApertureError) (σ : Client) (i : ℕ)
    (c : Caller) : Event → Option (Phase × Client)
  | .run _ => σ.runPhase check i c.request c.phase
  | .refuse _ host retryAfter =>
      match c.phase with
      | .performing leads (.charge _) =>
          some (.performing leads (.fallBack (.throttled host retryAfter)), σ)
      | .uncached _ false => some (.returned (.error (.throttled host retryAfter)), σ)
      | _ => none
  | .answer _ answer =>
      match c.phase with
      | .performing leads (.sent _) =>
          some (received leads answer,
            { σ with answers := match answer with
                | .ok response => (c.request.key, response) :: σ.answers
                | .error _ => σ.answers })
      | .uncached _ true =>
          some (.returned (answer.map fun response => ⟨response.cached, .fetched⟩), σ)
      | _ => none
  | .drop _ =>
      match c.phase with
      | .following _ _ | .performing _ (.sent _) | .uncached _ true => some (.dropped, σ)
      | _ => none
  | .call _ _ | .pass _ => none

def next (check : ApertureRequest → Option ApertureError) (σ : Client) : Event → Option Client
  | .call i request =>
      if (σ.callers i).isSome then none
      else some { σ with callers := Function.update σ.callers i (some ⟨request, .called⟩) }
  | .pass ms => some { σ with now := σ.now + ms }
  | .run i => step i (.run i)
  | .refuse i host retryAfter => step i (.refuse i host retryAfter)
  | .answer i answer => step i (.answer i answer)
  | .drop i => step i (.drop i)
where
  /-- A call that is there makes a step. -/
  step (i : ℕ) (event : Event) : Option Client :=
    match σ.callers i with
    | none => none
    | some c => (σ.stepCaller check i c event).map fun (phase, σ') =>
        { σ' with callers := Function.update σ'.callers i (some { c with phase }) }

inductive Run (check : ApertureRequest → Option ApertureError) (budget : ℕ)
    (P : Client → Event → Prop) : Client → Prop
  | start : Run check budget P (start budget)
  | next {σ σ' : Client} (hrun : Run check budget P σ) (event : Event) (hevent : P σ event)
      (hnext : σ.next check event = some σ') : Run check budget P σ'

end Client

end Albedo.Fetch
