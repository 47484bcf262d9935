import Albedo.Library.Bincode
import Albedo.Library.Utf8

/-!
# Opcode frames and their bytes

A frame is a list of instructions for the page. The server's encoder writes an enumeration as
the position of its case, and text and lists after their length.
-/
namespace Albedo.Ir
open Bincode

abbrev Vec (α : Type) := {xs : List α // xs.length < 2 ^ 64}

abbrev Text := {s : List Char // (Utf8.encode s).length < 2 ^ 64}

abbrev RowKey := Text

structure InstructionRange where
  start : UInt32
  stop : UInt32
  /-- What `try_new` refuses to build otherwise. -/
  start_le_stop : start ≤ stop

inductive InternTableKind
  | tag | attr | event
  deriving DecidableEq

structure InternEntry where
  id : UInt16
  value : Text

structure InternTable where
  kind : InternTableKind
  entries : Vec InternEntry

inductive InternPatchOp
  | set (id : UInt16) (value : Text)
  | remove (id : UInt16)

structure SlotChange where
  weight : Int32
  key : RowKey
  payload : Vec UInt8

structure ReconcileRow where
  key : RowKey
  payload : Vec UInt8

/-- The cases in the order of their positions on the wire. -/
inductive Instruction
  | initInternTable (table : InternTable)
  | patchInternTable (kind : InternTableKind) (ops : Vec InternPatchOp)
  | create (tagId : UInt16) (stableId : UInt32)
  | setAttr (stableId : UInt32) (attrId : UInt16) (value : Vec UInt8)
  | setText (stableId : UInt32) (text : Vec UInt8)
  | append (parentId childId : UInt32)
  | remove (stableId : UInt32)
  | bindEvent (stableId : UInt32) (eventId : UInt16) (proxyId : UInt32)
  | bindSlot (stableId slotId : UInt32)
  | placeholder (stableId suspenseId : UInt32)
  | patch (suspenseId : UInt32) (range : InstructionRange)
  | setTextRef (stableId slotId : UInt32)
  | setAttrRef (stableId : UInt32) (attrId : UInt16) (slotId : UInt32)
  | slotSet (slotId : UInt32) (value : Vec UInt8)
  | navigate (url : Text)
  | slotDelta (slotId : UInt32) (changes : Vec SlotChange)
  | reconcileList (slotId : UInt32) (rows : Vec ReconcileRow)
  | slotInsert (slotId : UInt32) (before : Option RowKey) (rows : Vec ReconcileRow)

structure OpcodeFrame where
  frameId : UInt64
  componentId : Option UInt64
  instructions : Vec Instruction

/-! ### Encoding -/

def encodeU16 (n : UInt16) : List UInt8 := encodeVarint n.toNat
def encodeU32 (n : UInt32) : List UInt8 := encodeVarint n.toNat
def encodeU64 (n : UInt64) : List UInt8 := encodeVarint n.toNat
def encodeI32 (n : Int32) : List UInt8 := encodeVarint (zigzag n.toInt)

def encodeBytes (bytes : List UInt8) : List UInt8 := encodeVarint bytes.length ++ bytes

def encodeText (s : Text) : List UInt8 := encodeBytes (Utf8.encode s.1)

def encodeVec {α : Type} (encode : α → List UInt8) (xs : Vec α) : List UInt8 :=
  encodeVarint xs.1.length ++ xs.1.flatMap encode

def encodeOption {α : Type} (encode : α → List UInt8) : Option α → List UInt8
  | none => [0]
  | some x => 1 :: encode x

/-- Where a case stands in its enumeration. -/
def encodeVariant (position : ℕ) : List UInt8 := encodeVarint position

def InstructionRange.encode (range : InstructionRange) : List UInt8 :=
  encodeU32 range.start ++ encodeU32 range.stop

def InternTableKind.encode : InternTableKind → List UInt8
  | .tag => encodeVariant 0
  | .attr => encodeVariant 1
  | .event => encodeVariant 2

def InternEntry.encode (entry : InternEntry) : List UInt8 :=
  encodeU16 entry.id ++ encodeText entry.value

def InternTable.encode (table : InternTable) : List UInt8 :=
  table.kind.encode ++ encodeVec InternEntry.encode table.entries

def InternPatchOp.encode : InternPatchOp → List UInt8
  | .set id value => encodeVariant 0 ++ (encodeU16 id ++ encodeText value)
  | .remove id => encodeVariant 1 ++ encodeU16 id

def SlotChange.encode (change : SlotChange) : List UInt8 :=
  encodeI32 change.weight ++ (encodeText change.key ++ encodeBytes change.payload.1)

def ReconcileRow.encode (row : ReconcileRow) : List UInt8 :=
  encodeText row.key ++ encodeBytes row.payload.1

def Instruction.encode : Instruction → List UInt8
  | .initInternTable table => encodeVariant 0 ++ table.encode
  | .patchInternTable kind ops =>
      encodeVariant 1 ++ (kind.encode ++ encodeVec InternPatchOp.encode ops)
  | .create tagId stableId => encodeVariant 2 ++ (encodeU16 tagId ++ encodeU32 stableId)
  | .setAttr stableId attrId value =>
      encodeVariant 3 ++ (encodeU32 stableId ++ (encodeU16 attrId ++ encodeBytes value.1))
  | .setText stableId text => encodeVariant 4 ++ (encodeU32 stableId ++ encodeBytes text.1)
  | .append parentId childId => encodeVariant 5 ++ (encodeU32 parentId ++ encodeU32 childId)
  | .remove stableId => encodeVariant 6 ++ encodeU32 stableId
  | .bindEvent stableId eventId proxyId =>
      encodeVariant 7 ++ (encodeU32 stableId ++ (encodeU16 eventId ++ encodeU32 proxyId))
  | .bindSlot stableId slotId => encodeVariant 8 ++ (encodeU32 stableId ++ encodeU32 slotId)
  | .placeholder stableId suspenseId =>
      encodeVariant 9 ++ (encodeU32 stableId ++ encodeU32 suspenseId)
  | .patch suspenseId range => encodeVariant 10 ++ (encodeU32 suspenseId ++ range.encode)
  | .setTextRef stableId slotId => encodeVariant 11 ++ (encodeU32 stableId ++ encodeU32 slotId)
  | .setAttrRef stableId attrId slotId =>
      encodeVariant 12 ++ (encodeU32 stableId ++ (encodeU16 attrId ++ encodeU32 slotId))
  | .slotSet slotId value => encodeVariant 13 ++ (encodeU32 slotId ++ encodeBytes value.1)
  | .navigate url => encodeVariant 14 ++ encodeText url
  | .slotDelta slotId changes =>
      encodeVariant 15 ++ (encodeU32 slotId ++ encodeVec SlotChange.encode changes)
  | .reconcileList slotId rows =>
      encodeVariant 16 ++ (encodeU32 slotId ++ encodeVec ReconcileRow.encode rows)
  | .slotInsert slotId before rows =>
      encodeVariant 17 ++ (encodeU32 slotId ++
        (encodeOption encodeText before ++ encodeVec ReconcileRow.encode rows))

/-- The bytes of a frame; a vector takes whatever is written to it, so none fails. -/
def encodeFrame (frame : OpcodeFrame) : List UInt8 :=
  encodeU64 frame.frameId ++
    (encodeOption encodeU64 frame.componentId ++
      encodeVec Instruction.encode frame.instructions)

end Albedo.Ir
