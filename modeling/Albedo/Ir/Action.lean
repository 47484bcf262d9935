import Albedo.Ir.OneFormat

/-!
# Action envelopes

The one message the page writes: which action it is, what kind of event, and a payload. The
server reads it within a limit it counts against what a value may take, not what it took.
-/
namespace Albedo.Ir
open Bincode Bakabox

/-! ### The page's writer -/

namespace Bakabox

/-- `setUint32` keeps the low 32 bits of what it is given. -/
def encodeVarintU32 (value : ℕ) : List UInt8 :=
  if value < 251 then [UInt8.ofNat value]
  else if value ≤ 0xffff then 251 :: leBytes 2 value
  else 252 :: leBytes 4 value

def encodeVarintU64 (value : ℕ) : List UInt8 :=
  if value < 251 then [UInt8.ofNat value]
  else if value ≤ 0xffff then 251 :: leBytes 2 value
  else if value ≤ 0xffffffff then 252 :: leBytes 4 value
  else 253 :: leBytes 8 value

/-- What the page has to send: a number of an action, a byte, and bytes. -/
structure Envelope where
  actionId : ℕ
  eventKind : UInt8
  payload : Vec UInt8

def encodeActionEnvelope (envelope : Envelope) : List UInt8 :=
  encodeVarintU32 envelope.actionId ++
    ([envelope.eventKind] ++ (encodeVarintU64 envelope.payload.1.length ++ envelope.payload.1))

end Bakabox

/-! ### The server's reader -/

structure ActionEnvelope where
  actionId : UInt32
  eventKind : UInt8
  payload : List UInt8

inductive DecodeError
  | unexpectedEnd (additional : ℕ)
  | invalidIntegerType (marker : UInt8)
  | limitExceeded
  deriving DecidableEq

def maxWireDecodeBytes : ℕ := 8 * 1024 * 1024

def unexpectedEnd (n : ℕ) (c : Cursor) : DecodeError := .unexpectedEnd (n - c.rest.length)

/-- What has been counted against the limit, with as much more. -/
def claimBytesRead (bytesRead n : ℕ) : Reader DecodeError ℕ := do
  check (bytesRead + n ≤ maxWireDecodeBytes) fun _ => .limitExceeded
  return bytesRead + n

def varintDecodeU32 : Reader DecodeError ℕ :=
  varint 4 unexpectedEnd fun marker _ => .invalidIntegerType marker

def varintDecodeU64 : Reader DecodeError ℕ :=
  varint 8 unexpectedEnd fun marker _ => .invalidIntegerType marker

def readActionEnvelope : Reader DecodeError ActionEnvelope := do
  let bytesRead ← claimBytesRead 0 4
  let actionId ← varintDecodeU32
  let bytesRead ← claimBytesRead bytesRead 1
  let eventKind ← byte (unexpectedEnd 1)
  let bytesRead ← claimBytesRead bytesRead 8
  let length ← varintDecodeU64
  let _ ← claimBytesRead bytesRead length
  let payload ← take length (unexpectedEnd length)
  return ⟨.ofNat actionId, eventKind, payload⟩

def decodeActionEnvelope (bytes : List UInt8) : Except DecodeError (ActionEnvelope × ℕ) :=
  match readActionEnvelope ⟨bytes, 0⟩ with
  | .error e => .error e
  | .ok (envelope, c) => .ok (envelope, c.offset)

/-! ### What arrives -/

theorem reads_claim {bytesRead n : ℕ} {α : Type} {k : ℕ → Reader DecodeError α}
    {bytes : List UInt8} {o : Option α} (h : bytesRead + n ≤ maxWireDecodeBytes)
    (hk : Reads (k (bytesRead + n)) bytes o) :
    Reads (claimBytesRead bytesRead n >>= k) bytes o := by
  have hclaim : Reads (claimBytesRead bytesRead n) [] (some (bytesRead + n)) :=
    Reads.passed (by simpa using h) (Reads.pure _)
  exact hclaim.andThen hk

theorem reads_overclaim {bytesRead n : ℕ} {α : Type} {k : ℕ → Reader DecodeError α}
    (h : maxWireDecodeBytes < bytesRead + n) (bytes : List UInt8) :
    Reads (claimBytesRead bytesRead n >>= k) bytes none := by
  have hclaim : Reads (claimBytesRead bytesRead n) [] none :=
    Reads.stopped (by simpa using h) _
  exact hclaim.bind fun x hx => (nomatch hx : Reads (k x) bytes none)

theorem reads_actionId (value : ℕ) :
    Reads varintDecodeU32 (encodeVarintU32 value) (some (value % 2 ^ 32)) := by
  unfold encodeVarintU32
  split_ifs with h₁ h₂
  · rw [Nat.mod_eq_of_lt (by omega)]
    exact Reads.narrow h₁
  · have hmod : value % 2 ^ 32 = value % 256 ^ 2 := by omega
    rw [hmod]
    exact Reads.wide (by decide) (by decide) value
  · exact Reads.wide (by decide) (by decide) value

theorem encodeVarintU64_eq (value : ℕ) : encodeVarintU64 value = encodeVarint value := by
  have h₁ : value ≤ 0xffff ↔ value < 2 ^ 16 := by omega
  have h₂ : value ≤ 0xffffffff ↔ value < 2 ^ 32 := by omega
  simp only [encodeVarintU64, encodeVarint, h₁, h₂]

/-- What the server counts for an envelope of a payload this long. -/
def claimed (length : ℕ) : ℕ := 4 + 1 + 8 + length

theorem reads_envelope (e : Envelope) : Reads readActionEnvelope (encodeActionEnvelope e)
    (if claimed e.payload.1.length ≤ maxWireDecodeBytes
      then some ⟨.ofNat (e.actionId % 2 ^ 32), e.eventKind, e.payload.1⟩ else none) := by
  refine reads_claim (by decide) (Reads.andThen (reads_actionId e.actionId) ?_)
  refine reads_claim (by decide) (Reads.andThen (Reads.byte e.eventKind _) ?_)
  refine reads_claim (by decide) ?_
  rw [encodeVarintU64_eq]
  refine Reads.andThen (Reads.varint (.inr ⟨e.payload.2, le_rfl⟩) _ _) ?_
  split_ifs with hlimit
  · exact reads_claim hlimit (Reads.last (Reads.take e.payload.1 _))
  · exact reads_overclaim (Nat.lt_of_not_le hlimit) _

def ActionEnvelope.Is (received : ActionEnvelope) (e : Envelope) : Prop :=
  received.actionId.toNat = e.actionId ∧ received.eventKind = e.eventKind ∧
    received.payload = e.payload.1

theorem is_iff (e : Envelope) :
    (⟨.ofNat (e.actionId % 2 ^ 32), e.eventKind, e.payload.1⟩ : ActionEnvelope).Is e ↔
      e.actionId < 2 ^ 32 := by
  have hid : (UInt32.ofNat (e.actionId % 2 ^ 32)).toNat = e.actionId % 2 ^ 32 := by
    simp
  simp only [ActionEnvelope.Is, and_true, hid]
  omega

/-- An envelope arrives as it was built just when its number is one of 32 bits and it is within
what the server reads. -/
theorem decodeActionEnvelope_same (e : Envelope) (rest : List UInt8) :
    (∃ received, decodeActionEnvelope (encodeActionEnvelope e ++ rest) =
        .ok (received, (encodeActionEnvelope e).length) ∧ received.Is e) ↔
      e.actionId < 2 ^ 32 ∧ claimed e.payload.1.length ≤ maxWireDecodeBytes := by
  have hread := reads_envelope e
  split_ifs at hread with hlimit
  · have hanswer := hread.eq_ok rest 0
    rw [Nat.zero_add] at hanswer
    simp only [decodeActionEnvelope, hanswer, Except.ok.injEq, Prod.mk.injEq, and_true,
      exists_eq_left', is_iff, hlimit]
  · simp only [hlimit, and_false, iff_false]
    rintro ⟨received, hdecode, -⟩
    rw [decodeActionEnvelope] at hdecode
    split at hdecode
    · cases hdecode
    · rename_i envelope c hok
      exact hread.ne_ok rest 0 _ hok

/-- A frame that moves the page to an address that begins with a byte order mark. -/
def markedFrame : OpcodeFrame where
  frameId := 1
  componentId := none
  instructions := ⟨[.navigate ⟨byteOrderMark :: "/a".toList, by decide⟩], by decide⟩

end Albedo.Ir
