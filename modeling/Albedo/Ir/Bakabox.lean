import Mathlib.Data.List.Basic
import Albedo.Ir.Opcode

/-!
# The page's decoder

The page reads a frame with readers of its own, which have the encoder's format a second time:
what each byte means is said here again, and the text of the page's engine is not quite that
of the server.
-/
namespace Albedo.Ir.Bakabox
open Bincode

structure BakaboxWireError where
  message : String
  offset : ℕ
  deriving DecidableEq

/-! ### What the page holds -/

structure Entry where
  id : ℕ
  value : List Char
  deriving DecidableEq

structure Table where
  kind : InternTableKind
  entries : List Entry
  deriving DecidableEq

inductive PatchOp
  | set (id : ℕ) (value : List Char)
  | remove (id : ℕ)
  deriving DecidableEq

structure Change where
  weight : ℤ
  key : List Char
  payload : List UInt8
  deriving DecidableEq

structure Row where
  key : List Char
  html : List UInt8
  deriving DecidableEq

inductive Op
  | initInternTable (table : Table)
  | patchInternTable (kind : InternTableKind) (ops : List PatchOp)
  | create (tagId stableId : ℕ)
  | setAttr (stableId attrId : ℕ) (value : List UInt8)
  | setText (stableId : ℕ) (text : List UInt8)
  | append (parentId childId : ℕ)
  | remove (stableId : ℕ)
  | bindEvent (stableId eventId proxyId : ℕ)
  | bindSlot (stableId slotId : ℕ)
  | placeholder (stableId suspenseId : ℕ)
  | patch (suspenseId start stop : ℕ)
  | setTextRef (stableId slotId : ℕ)
  | setAttrRef (stableId attrId slotId : ℕ)
  | slotSet (slotId : ℕ) (value : List UInt8)
  | navigate (url : List Char)
  | slotDelta (slotId : ℕ) (changes : List Change)
  | reconcileList (slotId : ℕ) (rows : List Row)
  | slotInsert (slotId : ℕ) (before : Option (List Char)) (rows : List Row)
  deriving DecidableEq

structure Frame where
  frameId : ℕ
  componentId : Option ℕ
  instructions : List Op
  consumed : ℕ
  deriving DecidableEq

/-! ### Readers of one value -/

def short (numBytes : ℕ) (c : Cursor) : BakaboxWireError :=
  let remaining := c.rest.length
  ⟨s!"tried to read {numBytes} bytes, only {remaining} remain", c.offset⟩

def unknownMarker (marker : UInt8) (c : Cursor) : BakaboxWireError :=
  if marker = 254 then ⟨"u128 varints are not supported", c.offset - 1⟩
  else ⟨s!"unknown varint marker {marker}", c.offset - 1⟩

def readU8 : Reader BakaboxWireError UInt8 := byte (short 1)

def readVarintAsBigInt : Reader BakaboxWireError ℕ := varint 8 short unknownMarker

def readVarintU64 : Reader BakaboxWireError ℕ := readVarintAsBigInt

def readVarintU32 : Reader BakaboxWireError ℕ := do
  let value ← readVarintAsBigInt
  check (value ≤ 0xffffffff) fun c => ⟨s!"varint {value} exceeds u32 range", c.offset⟩
  return value

def readVarintU16 : Reader BakaboxWireError ℕ := do
  let value ← readVarintAsBigInt
  check (value ≤ 0xffff) fun c => ⟨s!"varint {value} exceeds u16 range", c.offset⟩
  return value

/-- `(u >>> 1) ^ -(u & 1)`, on 32 bits with a sign. -/
def unzigzag (u : ℕ) : ℤ :=
  ((BitVec.ofNat 32 u >>> 1) ^^^ -(BitVec.ofNat 32 u &&& 1#32)).toInt

def readVarintI32 : Reader BakaboxWireError ℤ := do
  let value ← readVarintAsBigInt
  check (value ≤ 0xffffffff) fun c => ⟨s!"zig-zag varint {value} exceeds i32 range", c.offset⟩
  return unzigzag value

def readOption {α : Type} (readInner : Reader BakaboxWireError α) :
    Reader BakaboxWireError (Option α) := do
  let tag ← readU8
  if tag = 0 then return none
  else if tag = 1 then return some (← readInner)
  else fail fun c => ⟨s!"invalid Option tag {tag}", c.offset - 1⟩

def readVec {α : Type} (readInner : Reader BakaboxWireError α) :
    Reader BakaboxWireError (List α) := do
  let length ← readVarintAsBigInt
  check (length ≤ 0xffffffff) fun c => ⟨s!"Vec length {length} exceeds JS array bound", c.offset⟩
  times readInner length

def readByteSlice : Reader BakaboxWireError (List UInt8) := do
  let length ← readVarintAsBigInt
  take length fun c =>
    let remaining := c.rest.length
    ⟨s!"byte slice length {length} exceeds remaining {remaining}", c.offset⟩

def byteOrderMark : Char := Char.ofNat 0xFEFF

def withoutMark : List Char → List Char
  | [] => []
  | c :: s => if c = byteOrderMark then s else c :: s

/-- `decode` of a `TextDecoder` that is fatal. It was not asked to ignore a byte order mark, so
one at the start of what it decodes is not part of its answer. -/
def textDecode (bytes : List UInt8) : Option (List Char) := (Utf8.decode bytes).map withoutMark

/-- The engine's own words about the bytes are left out of the message. -/
def readString : Reader BakaboxWireError (List Char) := do
  let slice ← readByteSlice
  match textDecode slice with
  | some s => return s
  | none => fail fun c => ⟨"invalid UTF-8 string", c.offset - slice.length⟩

/-! ### Readers of the opcodes -/

def internTableKind : List InternTableKind := [.tag, .attr, .event]

def readInternTableKind : Reader BakaboxWireError InternTableKind := do
  let idx ← readVarintU32
  match internTableKind[idx]? with
  | some kind => return kind
  | none => fail fun c => ⟨s!"unknown InternTableKind variant {idx}", c.offset - 1⟩

def readInternEntry : Reader BakaboxWireError Entry := do
  let id ← readVarintU16
  let value ← readString
  return ⟨id, value⟩

def readInternTable : Reader BakaboxWireError Table := do
  let kind ← readInternTableKind
  let entries ← readVec readInternEntry
  return ⟨kind, entries⟩

def readInternPatchOp : Reader BakaboxWireError PatchOp := do
  let variant ← readVarintU32
  match variant with
  | 0 => do
      let id ← readVarintU16
      let value ← readString
      return .set id value
  | 1 => do
      let id ← readVarintU16
      return .remove id
  | variant => fail fun c => ⟨s!"unknown InternPatchOp variant {variant}", c.offset - 1⟩

def readSlotChange : Reader BakaboxWireError Change := do
  let weight ← readVarintI32
  let key ← readString
  let payload ← readByteSlice
  return ⟨weight, key, payload⟩

def readReconcileRow : Reader BakaboxWireError Row := do
  let key ← readString
  let html ← readByteSlice
  return ⟨key, html⟩

def readInstructionRange : Reader BakaboxWireError (ℕ × ℕ) := do
  let start ← readVarintU32
  let stop ← readVarintU32
  check (start ≤ stop) fun c => ⟨s!"InstructionRange start {start} > end {stop}", c.offset⟩
  return (start, stop)

def instructionReaders : List (Reader BakaboxWireError Op) := [
  do
    let table ← readInternTable
    return .initInternTable table,
  do
    let kind ← readInternTableKind
    let ops ← readVec readInternPatchOp
    return .patchInternTable kind ops,
  do
    let tagId ← readVarintU16
    let stableId ← readVarintU32
    return .create tagId stableId,
  do
    let stableId ← readVarintU32
    let attrId ← readVarintU16
    let value ← readByteSlice
    return .setAttr stableId attrId value,
  do
    let stableId ← readVarintU32
    let text ← readByteSlice
    return .setText stableId text,
  do
    let parentId ← readVarintU32
    let childId ← readVarintU32
    return .append parentId childId,
  do
    let stableId ← readVarintU32
    return .remove stableId,
  do
    let stableId ← readVarintU32
    let eventId ← readVarintU16
    let proxyId ← readVarintU32
    return .bindEvent stableId eventId proxyId,
  do
    let stableId ← readVarintU32
    let slotId ← readVarintU32
    return .bindSlot stableId slotId,
  do
    let stableId ← readVarintU32
    let suspenseId ← readVarintU32
    return .placeholder stableId suspenseId,
  do
    let suspenseId ← readVarintU32
    let range ← readInstructionRange
    return .patch suspenseId range.1 range.2,
  do
    let stableId ← readVarintU32
    let slotId ← readVarintU32
    return .setTextRef stableId slotId,
  do
    let stableId ← readVarintU32
    let attrId ← readVarintU16
    let slotId ← readVarintU32
    return .setAttrRef stableId attrId slotId,
  do
    let slotId ← readVarintU32
    let value ← readByteSlice
    return .slotSet slotId value,
  do
    let url ← readString
    return .navigate url,
  do
    let slotId ← readVarintU32
    let changes ← readVec readSlotChange
    return .slotDelta slotId changes,
  do
    let slotId ← readVarintU32
    let rows ← readVec readReconcileRow
    return .reconcileList slotId rows,
  do
    let slotId ← readVarintU32
    let before ← readOption readString
    let rows ← readVec readReconcileRow
    return .slotInsert slotId before rows]

def readInstruction : Reader BakaboxWireError Op := do
  let variant ← readVarintU32
  match instructionReaders[variant]? with
  | some reader => reader
  | none => fail fun c => ⟨s!"unknown Instruction variant {variant}", c.offset - 1⟩

def readFrame : Reader BakaboxWireError (ℕ × Option ℕ × List Op) := do
  let frameId ← readVarintU64
  let componentId ← readOption readVarintU64
  let instructions ← readVec readInstruction
  return (frameId, componentId, instructions)

def decodeFrame (bytes : List UInt8) : Except BakaboxWireError Frame :=
  match readFrame ⟨bytes, 0⟩ with
  | .error e => .error e
  | .ok ((frameId, componentId, instructions), c) =>
      .ok ⟨frameId, componentId, instructions, c.offset⟩

end Albedo.Ir.Bakabox
