import Albedo.Jobs.Queue
import Albedo.Library.Json
import Albedo.Library.Separator
import Albedo.Library.Trim
import Albedo.Library.Utf8

/-!
# Inbound webhooks

A delivery's signature is checked against the raw body, its event's id is read from the body or
from a header, and the declared job is queued under an id made of both names.
-/
namespace Albedo.Hooks
open Separator Trim

/-- Header values by their lowercase names, where they are text. -/
abbrev Headers := String → Option (List Char)

abbrev Bytes := List UInt8

def maxBodyBytes : ℕ := 256 * 1024

def defaultToleranceSeconds : ℕ := 300

def maxEventIdBytes : ℕ := 200

inductive SignatureScheme
  | stripe
  | paddle
  | github
  | razorpay
  | hmacSha256

inductive IdSource
  | body (path : List String)
  | header (name : String)

structure Webhook where
  name : String
  job : String
  scheme : SignatureScheme
  secret : Bytes
  id : IdSource
  header : String
  tolerance : ℕ

inductive Rejection
  | missingSignature
  | badSignature
  | stale
  | notJson
  | noEventId

/-! ### Text -/

/-- `str::parse::<i64>`. -/
def parseI64 (text : List Char) : Option ℤ :=
  let (negative, digits) := match text with
    | '-' :: digits => (true, digits)
    | '+' :: digits => (false, digits)
    | digits => (false, digits)
  if digits = [] ∨ ¬ digits.all Char.isDigit then none
  else
    let n : ℤ := Nat.ofDigitChars 10 digits 0
    let i := if negative then -n else n
    if -2 ^ 63 ≤ i ∧ i < 2 ^ 63 then some i else none

def hexDigit (c : Char) : Option ℕ :=
  if '0' ≤ c ∧ c ≤ '9' then some (c.toNat - 48)
  else if 'a' ≤ c ∧ c ≤ 'f' then some (c.toNat - 87)
  else if 'A' ≤ c ∧ c ≤ 'F' then some (c.toNat - 55)
  else none

/-- `u8::from_str_radix(.., 16)` on two characters, the first of which may be a sign. -/
def hexByte (high low : Char) : Option UInt8 :=
  match (if high = '+' then some 0 else hexDigit high), hexDigit low with
  | some h, some l => some (UInt8.ofNat (16 * h + l))
  | _, _ => none

def decodeHex : List Char → Option Bytes
  | [] => some []
  | [_] => none
  | high :: low :: rest =>
      match hexByte high low, decodeHex rest with
      | some b, some bs => some (b :: bs)
      | _, _ => none

/-- `a=1,b=2` as pairs, the keys lowercased. -/
def keyValues (raw : List Char) (separator : Char) : List (List Char × List Char) :=
  ((raw.splitOnP (· = separator)).filterMap (splitOnce '=')).map fun pair =>
    ((trim pair.1).map Char.toLower, trim pair.2)

def single (fields : List (List Char × List Char)) (key : List Char) : Option (List Char) :=
  (fields.find? fun field => field.1 = key).map Prod.snd

def all (fields : List (List Char × List Char)) (key : List Char) : List (List Char) :=
  (fields.filter fun field => field.1 = key).map Prod.snd

/-! ### Declarations -/

/-- One entry of the `webhooks` block, its path and principal apart. -/
structure WebhookDecl where
  signature : SignatureScheme
  job : String
  id : Option String
  header : Option String
  tolerance : Option ℕ

/-- `parse_id_source` of what `validate_declarations` lets through. -/
def parseIdSource (raw : String) : IdSource :=
  if "header:".toList <+: raw.toList then
    .header (String.ofList ((raw.toList.drop 7).map Char.toLower))
  else .body ((raw.toList.splitOnP (· = '.')).map String.ofList)

def SignatureScheme.defaults : SignatureScheme → String × IdSource
  | .stripe => ("stripe-signature", .body ["id"])
  | .paddle => ("paddle-signature", .body ["event_id"])
  | .github => ("x-hub-signature-256", .header "x-github-delivery")
  | .razorpay => ("x-razorpay-signature", .header "x-razorpay-event-id")
  | .hmacSha256 => ("", .body [])

/-- `from_declarations` for one entry, with its secret read. -/
def WebhookDecl.lower (decl : WebhookDecl) (name : String) (secret : Bytes) : Webhook where
  name := name
  job := decl.job
  scheme := decl.signature
  secret := secret
  id := (decl.id.map parseIdSource).getD decl.signature.defaults.2
  header := (decl.header.map fun header => String.ofList (header.toList.map Char.toLower)).getD
    decl.signature.defaults.1
  tolerance := decl.tolerance.getD defaultToleranceSeconds

/-! ### Verification -/

/-- The code a webhook runs on: HMAC-SHA256 of a key and a message, the JSON reader, and the
attempts of each declared job. -/
structure Env where
  mac : Bytes → Bytes → Bytes
  fromSlice : Bytes → Option Json.Value
  maxAttemptsFor : String → Option UInt32

namespace Webhook

variable (env : Env) (hook : Webhook)

def checkFresh (timestamp : List Char) (nowS : ℤ) : Except Rejection Unit :=
  match parseI64 (trim timestamp) with
  | none => .error .missingSignature
  | some signed =>
      if hook.tolerance < (Jobs.toI64 (nowS - signed)).natAbs then .error .stale else .ok ()

def checkAny (candidates : List (List Char)) (message : Bytes) : Except Rejection Unit :=
  if candidates = [] then .error .missingSignature
  else if candidates.any fun candidate => decodeHex candidate = some (env.mac hook.secret message)
    then .ok ()
  else .error .badSignature

/-- A timestamp under one key, signed with a separator before the body, and signatures under
another. -/
def checkTimed (fields : List (List Char × List Char)) (timeKey key : List Char)
    (separator : UInt8) (body : Bytes) (nowS : ℤ) : Except Rejection Unit :=
  match single fields timeKey with
  | none => .error .missingSignature
  | some timestamp =>
      match hook.checkFresh timestamp nowS with
      | .error rejection => .error rejection
      | .ok () => hook.checkAny env (all fields key) (Utf8.encode timestamp ++ separator :: body)

def verify (header : Headers) (body : Bytes) (nowS : ℤ) : Except Rejection Unit :=
  match header hook.header with
  | none => .error .missingSignature
  | some presented =>
      match hook.scheme with
      | .stripe => hook.checkTimed env (keyValues presented ',') ['t'] ['v', '1'] 46 body nowS
      | .paddle => hook.checkTimed env (keyValues presented ';') ['t', 's'] ['h', '1'] 58 body nowS
      | .github | .hmacSha256 =>
          let digest := trim presented
          let digest := if "sha256=".toList <+: digest then digest.drop 7 else digest
          hook.checkAny env [digest] body
      | .razorpay => hook.checkAny env [trim presented] body

def walk : List String → Json.Value → Option Json.Value
  | [], cursor => some cursor
  | segment :: path, cursor => (cursor.get segment).bind (walk path)

def eventId (header : Headers) (event : Json.Value) : Except Rejection (List Char) :=
  let raw : Option (List Char) := match hook.id with
    | .header name => header name
    | .body path =>
        match walk path event with
        | some (.string text) => some text.toList
        | some (.number number) => some number.text
        | _ => none
  match raw.map trim with
  | none => .error .noEventId
  | some id =>
      if id = [] ∨ maxEventIdBytes < (Utf8.encode id).length then .error .noEventId else .ok id

def queueId (eventId : List Char) : String :=
  "webhook:" ++ hook.name ++ ":" ++ String.ofList eventId

end Webhook

/-! ### `receive` -/

structure Request where
  method : String
  header : Headers
  body : Bytes

inductive Write
  | done
  | refused
  | unanswered
  deriving DecidableEq

/-- What the server has while it answers: whether it can queue, whom the store knows the event to
be for, if it can be asked, and how the write goes. -/
structure Backend where
  ready : Bool
  principalFor : Json.Value → Option (Option String)
  write : Write

namespace Webhook

variable (env : Env) (hook : Webhook)

/-- What an event is to queue, once the server is asked, or the status it is refused with. -/
def enqueueOf (backend : Backend) (event : Json.Value) (eventId : List Char) (nowS : ℤ) :
    Except ℕ Jobs.Enqueue :=
  if ¬ backend.ready then .error 503
  else match backend.principalFor event, env.maxAttemptsFor hook.job with
  | none, _ => .error 503
  | some _, none => .error 500
  | some principal, some maxAttempts =>
      .ok { id := hook.queueId eventId
            name := hook.job
            args := String.ofList event.encode
            principal := principal
            runAt := Jobs.toI64 (nowS * 1000)
            maxAttempts := maxAttempts
            fanout := false }

/-- What a delivery is to queue, or the status it is refused with. -/
def accept (backend : Backend) (request : Request) (nowS : ℤ) : Except ℕ Jobs.Enqueue :=
  if request.method ≠ "POST" then .error 405
  else if maxBodyBytes < request.body.length then .error 413
  else match hook.verify env request.header request.body nowS with
  | .error _ => .error 401
  | .ok () =>
      match env.fromSlice request.body with
      | some (.object fields) =>
          match hook.eventId request.header (.object fields) with
          | .error _ => .error 400
          | .ok eventId => hook.enqueueOf env backend (.object fields) eventId nowS
      | _ => .error 400

/-- What a delivery comes to: its status, and the queue with whether a row was put there. -/
structure Reply where
  status : ℕ
  inserted : Bool
  jobs : Jobs.Table

def receive (backend : Backend) (request : Request) (nowS : ℤ) (jobs : Jobs.Table) : Reply :=
  match hook.accept env backend request nowS with
  | .error status => ⟨status, false, jobs⟩
  | .ok enqueue =>
      match backend.write with
      | .done => ⟨200, (jobs.enqueue enqueue).1, (jobs.enqueue enqueue).2⟩
      | .refused => ⟨500, false, jobs⟩
      | .unanswered => ⟨500, (jobs.enqueue enqueue).1, (jobs.enqueue enqueue).2⟩

end Webhook

end Albedo.Hooks
