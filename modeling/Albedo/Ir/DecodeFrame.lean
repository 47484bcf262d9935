import Albedo.Ir.Action
import Albedo.Library.Scan

/-!
# Frames the server reads

The server has a decoder of frames too, derived from the types of the opcodes: each field in
turn, and a case by its position. It asks no constructor for the ranges it builds, and what it
will not take is decided by how wide a number is written and by what it has counted; the page
decides by the numbers themselves. What stands in the bytes is said once, by a scan that both
follow, and from it where the two refuse the same bytes.
-/
namespace Albedo.Ir
open Bincode Bakabox

/-! ### A frame with its texts read again -/

namespace Bakabox
variable (read : List Char → List Char)

def Entry.reread (e : Entry) : Entry := { e with value := read e.value }

def Table.reread (t : Table) : Table := { t with entries := t.entries.map (Entry.reread read) }

def PatchOp.reread : PatchOp → PatchOp
  | .set id value => .set id (read value)
  | .remove id => .remove id

def Change.reread (c : Change) : Change := { c with key := read c.key }

def Row.reread (r : Row) : Row := { r with key := read r.key }

def Op.reread : Op → Op
  | .initInternTable table => .initInternTable (table.reread read)
  | .patchInternTable kind ops => .patchInternTable kind (ops.map (PatchOp.reread read))
  | .navigate url => .navigate (read url)
  | .slotDelta slotId changes => .slotDelta slotId (changes.map (Change.reread read))
  | .reconcileList slotId rows => .reconcileList slotId (rows.map (Row.reread read))
  | .slotInsert slotId before rows =>
      .slotInsert slotId (before.map read) (rows.map (Row.reread read))
  | op => op

def Frame.reread (f : Frame) : Frame :=
  { f with instructions := f.instructions.map (Op.reread read) }

theorem Op.reread_id : Op.reread id = id := by
  have hentry : Entry.reread id = id := rfl
  have hchange : Change.reread id = id := rfl
  have hrow : Row.reread id = id := rfl
  have hop : PatchOp.reread id = id := funext fun p => by cases p <;> rfl
  funext op
  cases op <;> simp [Op.reread, Table.reread, hentry, hchange, hrow, hop]

end Bakabox

namespace Wire

/-! ### The opcodes, whoever reads them -/

/-- The lists a frame has, by what their members are. -/
inductive Listed
  | instruction | internEntry | internPatchOp | slotChange | reconcileRow

inductive Enumeration
  | instruction | internTableKind | internPatchOp
  deriving DecidableEq

/-- Readers of the values that opcodes are made of. -/
structure Codec (m : Type → Type) where
  u16 : m ℕ
  u32 : m ℕ
  u64 : m ℕ
  i32 : m ℤ
  bytes : m (List UInt8)
  text : m (List Char)
  range : m (ℕ × ℕ)
  option : {α : Type} → m α → m (Option α)
  list : {α : Type} → Listed → m α → m (List α)
  unknown : {α : Type} → Enumeration → ℕ → m α

section
variable {m : Type → Type} [Monad m] (C : Codec m)

def readInternTableKind : m InternTableKind := do
  let variant ← C.u32
  match internTableKind[variant]? with
  | some kind => return kind
  | none => C.unknown .internTableKind variant

def readInternEntry : m Entry := do
  let id ← C.u16
  let value ← C.text
  return ⟨id, value⟩

def readInternTable : m Table := do
  let kind ← readInternTableKind C
  let entries ← C.list .internEntry (readInternEntry C)
  return ⟨kind, entries⟩

def readInternPatchOp : m PatchOp := do
  let variant ← C.u32
  match variant with
  | 0 => do
      let id ← C.u16
      let value ← C.text
      return .set id value
  | 1 => do
      let id ← C.u16
      return .remove id
  | variant => C.unknown .internPatchOp variant

def readSlotChange : m Change := do
  let weight ← C.i32
  let key ← C.text
  let payload ← C.bytes
  return ⟨weight, key, payload⟩

def readReconcileRow : m Row := do
  let key ← C.text
  let payload ← C.bytes
  return ⟨key, payload⟩

/-- One reader for each case of `Instruction`, where its case stands. -/
def instructionReaders : List (m Op) := [
  do
    let table ← readInternTable C
    return .initInternTable table,
  do
    let kind ← readInternTableKind C
    let ops ← C.list .internPatchOp (readInternPatchOp C)
    return .patchInternTable kind ops,
  do
    let tagId ← C.u16
    let stableId ← C.u32
    return .create tagId stableId,
  do
    let stableId ← C.u32
    let attrId ← C.u16
    let value ← C.bytes
    return .setAttr stableId attrId value,
  do
    let stableId ← C.u32
    let text ← C.bytes
    return .setText stableId text,
  do
    let parentId ← C.u32
    let childId ← C.u32
    return .append parentId childId,
  do
    let stableId ← C.u32
    return .remove stableId,
  do
    let stableId ← C.u32
    let eventId ← C.u16
    let proxyId ← C.u32
    return .bindEvent stableId eventId proxyId,
  do
    let stableId ← C.u32
    let slotId ← C.u32
    return .bindSlot stableId slotId,
  do
    let stableId ← C.u32
    let suspenseId ← C.u32
    return .placeholder stableId suspenseId,
  do
    let suspenseId ← C.u32
    let range ← C.range
    return .patch suspenseId range.1 range.2,
  do
    let stableId ← C.u32
    let slotId ← C.u32
    return .setTextRef stableId slotId,
  do
    let stableId ← C.u32
    let attrId ← C.u16
    let slotId ← C.u32
    return .setAttrRef stableId attrId slotId,
  do
    let slotId ← C.u32
    let value ← C.bytes
    return .slotSet slotId value,
  do
    let url ← C.text
    return .navigate url,
  do
    let slotId ← C.u32
    let changes ← C.list .slotChange (readSlotChange C)
    return .slotDelta slotId changes,
  do
    let slotId ← C.u32
    let rows ← C.list .reconcileRow (readReconcileRow C)
    return .reconcileList slotId rows,
  do
    let slotId ← C.u32
    let before ← C.option C.text
    let rows ← C.list .reconcileRow (readReconcileRow C)
    return .slotInsert slotId before rows]

def readInstruction : m Op := do
  let variant ← C.u32
  match (instructionReaders C)[variant]? with
  | some reader => reader
  | none => C.unknown .instruction variant

def readFrame : m (ℕ × Option ℕ × List Op) := do
  let frameId ← C.u64
  let componentId ← C.option C.u64
  let instructions ← C.list .instruction (readInstruction C)
  return (frameId, componentId, instructions)

end

/-! ### The server's decoder -/

inductive FrameError
  | wire (error : DecodeError)
  | unexpectedVariant (enumeration : Enumeration) (found : ℕ)
  | unexpectedOptionVariant (found : UInt8)
  | utf8
  deriving DecidableEq

structure Decoder where
  reader : Cursor
  bytesRead : ℕ

abbrev Decode (α : Type) := StateT Decoder (Except FrameError) α

def refuse {α : Type} (error : FrameError) : Decode α := fun _ => .error error

def reading {α : Type} (r : Reader DecodeError α) : Decode α := fun d =>
  match r d.reader with
  | .ok (x, c) => .ok (x, { d with reader := c })
  | .error e => .error (.wire e)

def claimBytesRead (n : ℕ) : Decode Unit := fun d =>
  if d.bytesRead + n ≤ maxWireDecodeBytes then .ok ((), { d with bytesRead := d.bytesRead + n })
  else .error (.wire .limitExceeded)

def unclaimBytesRead (n : ℕ) : Decode Unit := fun d =>
  .ok ((), { d with bytesRead := d.bytesRead - n })

def varintDecodeU16 : Reader DecodeError ℕ :=
  varint 2 unexpectedEnd fun marker _ => .invalidIntegerType marker

/-- `n / 2`, or `!(n / 2)` for an odd `n`. -/
def unzigzag (n : ℕ) : ℤ := if n % 2 = 0 then n / 2 else -(n / 2) - 1

def decodeU8 : Decode UInt8 := do
  claimBytesRead 1
  reading (byte (unexpectedEnd 1))

def decodeU16 : Decode ℕ := do
  claimBytesRead 2
  reading varintDecodeU16

def decodeU32 : Decode ℕ := do
  claimBytesRead 4
  reading varintDecodeU32

def decodeU64 : Decode ℕ := do
  claimBytesRead 8
  reading varintDecodeU64

def decodeI32 : Decode ℤ := do
  let n ← decodeU32
  return unzigzag n

def decodeSliceLen : Decode ℕ := decodeU64

def decodeBytes : Decode (List UInt8) := do
  let length ← decodeSliceLen
  claimBytesRead length
  reading (take length (unexpectedEnd length))

def decodeString : Decode (List Char) := do
  let bytes ← decodeBytes
  match Utf8.decode bytes with
  | some s => return s
  | none => refuse .utf8

def decodeOption {α : Type} (decode : Decode α) : Decode (Option α) := do
  let variant ← decodeU8
  if variant = 0 then return none
  else if variant = 1 then do
    let x ← decode
    return some x
  else refuse (.unexpectedOptionVariant variant)

/-- The derived decoder of `InstructionRange`: its two fields, in whatever order they are. -/
def decodeInstructionRange : Decode (ℕ × ℕ) := do
  let start ← decodeU32
  let stop ← decodeU32
  return (start, stop)

section
variable (sizeOf : Listed → ℕ)

/-- What was counted for a member in advance is given back before the member is read. -/
def decodeMember {α : Type} (listed : Listed) (decode : Decode α) : Decode α := do
  unclaimBytesRead (sizeOf listed)
  decode

def decodeMembers {α : Type} (listed : Listed) (decode : Decode α) : ℕ → Decode (List α)
  | 0 => pure []
  | n + 1 => do
      let x ← decodeMember sizeOf listed decode
      let xs ← decodeMembers listed decode n
      return x :: xs

def decodeVec {α : Type} (listed : Listed) (decode : Decode α) : Decode (List α) := do
  let length ← decodeSliceLen
  claimBytesRead (length * sizeOf listed)
  decodeMembers sizeOf listed decode length

/-- How the server reads the opcodes' values; a value of a member's type takes as many bytes of
memory as the compiler gives it. -/
def server : Codec Decode where
  u16 := decodeU16
  u32 := decodeU32
  u64 := decodeU64
  i32 := decodeI32
  bytes := decodeBytes
  text := decodeString
  range := decodeInstructionRange
  option := decodeOption
  list := decodeVec sizeOf
  unknown := fun enumeration found => refuse (.unexpectedVariant enumeration found)

def decodeFrame (bytes : List UInt8) : Except FrameError Frame :=
  match readFrame (server sizeOf) ⟨⟨bytes, 0⟩, 0⟩ with
  | .error e => .error e
  | .ok ((frameId, componentId, instructions), d) =>
      .ok ⟨frameId, componentId, instructions, d.reader.offset⟩

end

/-! ### The page's decoder -/

def page : Codec (Reader BakaboxWireError) where
  u16 := readVarintU16
  u32 := readVarintU32
  u64 := readVarintU64
  i32 := readVarintI32
  bytes := readByteSlice
  text := readString
  range := readInstructionRange
  option := readOption
  list := fun _ => readVec
  unknown := fun enumeration variant => fail fun c =>
    match enumeration with
    | .internTableKind => ⟨s!"unknown InternTableKind variant {variant}", c.offset - 1⟩
    | .internPatchOp => ⟨s!"unknown InternPatchOp variant {variant}", c.offset - 1⟩
    | .instruction => ⟨s!"unknown Instruction variant {variant}", c.offset - 1⟩

theorem readInstruction_page : readInstruction page = Bakabox.readInstruction := by
  have hreaders : instructionReaders page = Bakabox.instructionReaders := rfl
  unfold readInstruction Bakabox.readInstruction
  rw [hreaders]
  refine congrArg (Bind.bind readVarintU32) (funext fun variant => ?_)
  cases Bakabox.instructionReaders[variant]? with
  | none => rfl
  | some reader => rfl

theorem readFrame_page : readFrame page = Bakabox.readFrame := by
  unfold readFrame Bakabox.readFrame
  rw [readInstruction_page]
  rfl

/-! ### What stands in the bytes -/

/-- A number of a field of some width, which takes some bytes; the first byte of an option; bytes
after their length; a list, and where each member of it starts; and a range. -/
inductive Field
  | number (width taken value : ℕ)
  | tag
  | bytes (length : ℕ)
  | list (listed : Listed) (length : ℕ)
  | member (listed : Listed)
  | range (start stop : ℕ)

def anyNumber : Reader Unit ℕ := varint 8 (fun _ _ => ()) fun _ _ => ()

def scanNumber (width : ℕ) : Scan Field ℕ := fun c =>
  (anyNumber c).toOption.map fun p => ⟨p.1, [.number width (p.2.offset - c.offset) p.1], p.2⟩

def scanBytes : Scan Field (List UInt8) := do
  let length ← scanNumber 8
  Scan.note (.bytes length)
  Scan.silent (take length fun _ => ())

def scanText : Scan Field (List Char) := do
  let bytes ← scanBytes
  match Utf8.decode bytes with
  | some s => return s
  | none => Scan.nothing

def scanRange : Scan Field (ℕ × ℕ) := do
  let start ← scanNumber 4
  let stop ← scanNumber 4
  Scan.note (.range start stop)
  return (start, stop)

def scanTag : Scan Field UInt8 := do
  Scan.note .tag
  Scan.silent (byte fun _ => ())

def scanOption {α : Type} (s : Scan Field α) : Scan Field (Option α) := do
  let tag ← scanTag
  if tag = 0 then return none
  else if tag = 1 then do
    let x ← s
    return some x
  else Scan.nothing

def scanMember {α : Type} (listed : Listed) (s : Scan Field α) : Scan Field α := do
  Scan.note (.member listed)
  s

def scanList {α : Type} (listed : Listed) (s : Scan Field α) : Scan Field (List α) := do
  let length ← scanNumber 8
  Scan.note (.list listed length)
  (scanMember listed s).times length

def written : Codec (Scan Field) where
  u16 := scanNumber 2
  u32 := scanNumber 4
  u64 := scanNumber 8
  i32 := do
    let n ← scanNumber 4
    return unzigzag n
  bytes := scanBytes
  text := scanText
  range := scanRange
  option := scanOption
  list := scanList
  unknown := fun _ _ => Scan.nothing

def fields (bytes : List UInt8) : Option (List Field) :=
  (readFrame written ⟨bytes, 0⟩).map Found.fields

/-! ### Readers that follow the scan -/

section
variable {κ σ ε : Type}

/-- A codec whose readers follow the scan, and make of text what `read` does. -/
structure Codec.Follows (place : κ → Cursor → σ) (takes : κ → Field → Option κ)
    (read : List Char → List Char) (C : Codec (StateT σ (Except ε))) : Prop where
  u16 : Bincode.Follows place takes C.u16 written.u16 id
  u32 : Bincode.Follows place takes C.u32 written.u32 id
  u64 : Bincode.Follows place takes C.u64 written.u64 id
  i32 : Bincode.Follows place takes C.i32 written.i32 id
  bytes : Bincode.Follows place takes C.bytes written.bytes id
  text : Bincode.Follows place takes C.text written.text read
  range : Bincode.Follows place takes C.range written.range id
  option {α β : Type} {r : StateT σ (Except ε) α} {s : Scan Field β} {f : β → α} :
    Bincode.Follows place takes r s f →
      Bincode.Follows place takes (C.option r) (written.option s) (Option.map f)
  list {α β : Type} (listed : Listed) {r : StateT σ (Except ε) α} {s : Scan Field β} {f : β → α} :
    Bincode.Follows place takes r s f →
      Bincode.Follows place takes (C.list listed r) (written.list listed s) (List.map f)
  unknown {α β : Type} (enumeration : Enumeration) (found : ℕ) (f : β → α) :
    Bincode.Follows place takes (C.unknown enumeration found) (written.unknown enumeration found) f

namespace Codec.Follows
variable {place : κ → Cursor → σ} {takes : κ → Field → Option κ} {read : List Char → List Char}
  {C : Codec (StateT σ (Except ε))} (h : C.Follows place takes read)
include h

theorem internTableKind :
    Bincode.Follows place takes (readInternTableKind C) (readInternTableKind written) id := by
  refine h.u32.bind fun variant => ?_
  simp only [id]
  cases Bakabox.internTableKind[variant]? with
  | none => exact h.unknown .internTableKind variant id
  | some kind => exact .pure kind id

theorem internEntry : Bincode.Follows place takes (readInternEntry C) (readInternEntry written)
    (Entry.reread read) :=
  h.u16.bind fun _ => h.text.last fun _ => rfl

theorem internTable : Bincode.Follows place takes (readInternTable C) (readInternTable written)
    (Table.reread read) :=
  h.internTableKind.bind fun _ => (h.list .internEntry h.internEntry).last fun _ => rfl

theorem internPatchOp : Bincode.Follows place takes (readInternPatchOp C)
    (readInternPatchOp written) (PatchOp.reread read) := by
  refine h.u32.bind fun variant => ?_
  match variant with
  | 0 => exact h.u16.bind fun _ => h.text.last fun _ => rfl
  | 1 => exact h.u16.last fun _ => rfl
  | variant + 2 => exact h.unknown .internPatchOp (variant + 2) (PatchOp.reread read)

theorem slotChange : Bincode.Follows place takes (readSlotChange C) (readSlotChange written)
    (Change.reread read) :=
  h.i32.bind fun _ => h.text.bind fun _ => h.bytes.last fun _ => rfl

theorem reconcileRow : Bincode.Follows place takes (readReconcileRow C) (readReconcileRow written)
    (Row.reread read) :=
  h.text.bind fun _ => h.bytes.last fun _ => rfl

theorem instructionReaders :
    List.Forall₂ (fun r s => Bincode.Follows place takes r s (Op.reread read))
      (Wire.instructionReaders C) (Wire.instructionReaders written) := by
  have hrows := h.list .reconcileRow h.reconcileRow
  refine .cons (h.internTable.last fun _ => rfl) ?_
  refine .cons (h.internTableKind.bind fun _ =>
    (h.list .internPatchOp h.internPatchOp).last fun _ => rfl) ?_
  refine .cons (h.u16.bind fun _ => h.u32.last fun _ => rfl) ?_
  refine .cons (h.u32.bind fun _ => h.u16.bind fun _ => h.bytes.last fun _ => rfl) ?_
  refine .cons (h.u32.bind fun _ => h.bytes.last fun _ => rfl) ?_
  refine .cons (h.u32.bind fun _ => h.u32.last fun _ => rfl) ?_
  refine .cons (h.u32.last fun _ => rfl) ?_
  refine .cons (h.u32.bind fun _ => h.u16.bind fun _ => h.u32.last fun _ => rfl) ?_
  refine .cons (h.u32.bind fun _ => h.u32.last fun _ => rfl) ?_
  refine .cons (h.u32.bind fun _ => h.u32.last fun _ => rfl) ?_
  refine .cons (h.u32.bind fun _ => h.range.last fun _ => rfl) ?_
  refine .cons (h.u32.bind fun _ => h.u32.last fun _ => rfl) ?_
  refine .cons (h.u32.bind fun _ => h.u16.bind fun _ => h.u32.last fun _ => rfl) ?_
  refine .cons (h.u32.bind fun _ => h.bytes.last fun _ => rfl) ?_
  refine .cons (h.text.last fun _ => rfl) ?_
  refine .cons (h.u32.bind fun _ => (h.list .slotChange h.slotChange).last fun _ => rfl) ?_
  refine .cons (h.u32.bind fun _ => hrows.last fun _ => rfl) ?_
  exact .cons (h.u32.bind fun _ => (h.option h.text).bind fun _ => hrows.last fun _ => rfl) .nil

theorem instruction : Bincode.Follows place takes (readInstruction C) (readInstruction written)
    (Op.reread read) := by
  refine h.u32.bind fun variant => ?_
  simp only [id]
  rcases forall₂_at h.instructionReaders variant with ⟨hr, hs⟩ | ⟨r, s, hr, hs, hfollows⟩
  · rw [hr, hs]
    exact h.unknown .instruction variant (Op.reread read)
  · rw [hr, hs]
    exact hfollows

theorem frame : Bincode.Follows place takes (readFrame C) (readFrame written)
    fun f => (f.1, f.2.1, f.2.2.map (Op.reread read)) := by
  refine h.u64.bind fun _ => (h.option h.u64).bind fun componentId => ?_
  rw [Option.map_id]
  exact (h.list .instruction h.instruction).last fun _ => rfl

end Codec.Follows
end

/-! ### What each of the two admits -/

def Field.narrow : Field → Bool
  | .number width taken _ => taken ≤ 1 + width
  | _ => true

def claim (bytesRead n : ℕ) : Option ℕ :=
  if bytesRead + n ≤ maxWireDecodeBytes then some (bytesRead + n) else none

section
variable (sizeOf : Listed → ℕ)

def counted (bytesRead : ℕ) : Field → Option ℕ
  | .number width _ _ => claim bytesRead width
  | .tag => claim bytesRead 1
  | .bytes length => claim bytesRead length
  | .list listed length => claim bytesRead (length * sizeOf listed)
  | .member listed => some (bytesRead - sizeOf listed)
  | .range _ _ => some bytesRead

def serverAdmits (bytesRead : ℕ) (field : Field) : Option ℕ :=
  if field.narrow then counted sizeOf bytesRead field else none

end

/-- A number is one of its field, a list is one the page can make, and a range is in order. -/
def Field.sound : Field → Bool
  | .number width _ value => value < 256 ^ width
  | .list _ length => length ≤ arrayBound
  | .range start stop => start ≤ stop
  | _ => true

def pageAdmits (_ : Unit) (field : Field) : Option Unit := if field.sound then some () else none

/-! ### The server follows the scan -/

def atServer (bytesRead : ℕ) (c : Cursor) : Decoder := ⟨c, bytesRead⟩

section
variable {sizeOf : Listed → ℕ}

theorem reading_toOption {α : Type} (r : Reader DecodeError α) (d : Decoder) :
    (reading r d).toOption =
      (r d.reader).toOption.map fun p => (p.1, atServer d.bytesRead p.2) := by
  unfold reading
  cases r d.reader with
  | error e => rfl
  | ok p => rfl

theorem claimBytesRead_toOption (n : ℕ) (d : Decoder) : (claimBytesRead n d).toOption =
    (claim d.bytesRead n).map fun bytesRead => ((), atServer bytesRead d.reader) := by
  unfold claimBytesRead claim
  split_ifs <;> rfl

theorem follows_claim {n : ℕ} (field : Field)
    (h : ∀ bytesRead, serverAdmits sizeOf bytesRead field = claim bytesRead n) :
    Follows atServer (serverAdmits sizeOf) (claimBytesRead n) (Scan.note field) id := by
  refine .noted fun bytesRead c => ?_
  rw [h, claimBytesRead_toOption]
  rfl

theorem follows_reading {α : Type} {r : Reader DecodeError α} {r' : Reader Unit α}
    (h : ∀ c, (r c).toOption = (r' c).toOption) :
    Follows atServer (serverAdmits sizeOf) (reading r) (Scan.silent r') id := by
  refine .silent fun bytesRead c => ?_
  rw [reading_toOption, h]
  rfl

theorem follows_number {width : ℕ} (hwidth : width = 2 ∨ width = 4 ∨ width = 8) :
    Follows atServer (serverAdmits sizeOf) (do
      claimBytesRead width
      reading (varint width unexpectedEnd fun marker _ => .invalidIntegerType marker))
      (scanNumber width) id := by
  intro bytesRead c
  have hread := varint_toOption hwidth unexpectedEnd
    (fun marker _ => DecodeError.invalidIntegerType marker) (fun _ _ => ()) (fun _ _ => ()) c
  rw [toOption_bind, claimBytesRead_toOption]
  unfold scanNumber anyNumber
  generalize (varint 8 (fun _ _ => ()) (fun _ _ => ()) c).toOption = found at hread ⊢
  have hanswer : ∀ claimed, (reading (varint width unexpectedEnd fun marker _ =>
      .invalidIntegerType marker) (atServer claimed c)).toOption =
      (found.filter fun p => p.2.offset - c.offset ≤ 1 + width).map
        fun p => (p.1, atServer claimed p.2) := by
    intro claimed
    rw [reading_toOption, ← hread]
    rfl
  rw [Option.bind_map]
  simp only [Function.comp_def, atServer] at hanswer ⊢
  simp only [hanswer]
  cases found with
  | none => cases claim bytesRead width <;> rfl
  | some p =>
      by_cases hnarrow : p.2.offset - c.offset ≤ 1 + width
      · cases hclaim : claim bytesRead width <;>
          simp [Option.filter, hnarrow, serverAdmits, Field.narrow, counted, hclaim]
      · cases hclaim : claim bytesRead width <;>
          simp [Option.filter, hnarrow, serverAdmits, Field.narrow]

theorem follows_bytes :
    Follows atServer (serverAdmits sizeOf) decodeBytes scanBytes id := by
  refine (follows_number (.inr (.inr rfl))).bind fun length => ?_
  refine (follows_claim (.bytes length) fun _ => rfl).bind fun _ => ?_
  exact follows_reading fun c => take_any _ _ _ c

theorem follows_string :
    Follows atServer (serverAdmits sizeOf) decodeString scanText id := by
  refine follows_bytes.bind fun bytes => ?_
  simp only [id]
  cases Utf8.decode bytes with
  | none => exact .nothing fun _ => rfl
  | some s => exact .pure s id

theorem follows_option {α β : Type} {r : Decode α} {s : Scan Field β} {f : β → α}
    (h : Follows atServer (serverAdmits sizeOf) r s f) :
    Follows atServer (serverAdmits sizeOf) (decodeOption r) (scanOption s) (Option.map f) := by
  have htag : Follows atServer (serverAdmits sizeOf) decodeU8 scanTag id :=
    (follows_claim .tag fun _ => rfl).bind fun _ =>
      follows_reading fun c => byte_any _ _ c
  refine htag.bind fun tag => ?_
  simp only [id]
  split_ifs with hnone hsome
  · exact .pure none (Option.map f)
  · exact h.last fun _ => rfl
  · exact .nothing fun _ => rfl

theorem follows_range :
    Follows atServer (serverAdmits sizeOf) decodeInstructionRange scanRange id := by
  have hnumber : Follows atServer (serverAdmits sizeOf) decodeU32 (scanNumber 4) id :=
    follows_number (.inr (.inl rfl))
  exact hnumber.bind fun start => hnumber.bind fun stop =>
    (Follows.pure (start, stop) id).uncounted (Field.range start stop) fun _ => rfl

theorem follows_vec {α β : Type} (listed : Listed) {r : Decode α} {s : Scan Field β} {f : β → α}
    (h : Follows atServer (serverAdmits sizeOf) r s f) :
    Follows atServer (serverAdmits sizeOf) (decodeVec sizeOf listed r) (scanList listed s)
      (List.map f) := by
  have hmember : Follows atServer (serverAdmits sizeOf) (decodeMember sizeOf listed r)
      (scanMember listed s) f := by
    refine Follows.bind (f := id) ?_ fun _ => h
    exact .noted fun _ _ => rfl
  refine (follows_number (.inr (.inr rfl))).bind fun length => ?_
  refine (follows_claim (.list listed length) fun _ => rfl).bind fun _ => ?_
  exact hmember.times rfl (fun _ => rfl) length

theorem follows_server : (server sizeOf).Follows atServer (serverAdmits sizeOf) id where
  u16 := follows_number (.inl rfl)
  u32 := follows_number (.inr (.inl rfl))
  u64 := follows_number (.inr (.inr rfl))
  i32 := (follows_number (.inr (.inl rfl))).last fun _ => rfl
  bytes := follows_bytes
  text := follows_string
  range := follows_range
  option := follows_option
  list := follows_vec
  unknown := fun _ _ _ => .nothing fun _ => rfl

end

/-! ### The page follows the scan -/

def onPage (_ : Unit) (c : Cursor) : Cursor := c

theorem follows_checked {α : Type} {width : ℕ} {p : ℕ → Prop} [DecidablePred p] {f g : ℕ → α}
    {error : ℕ → Cursor → BakaboxWireError} (hp : ∀ n, p n ↔ n < 256 ^ width)
    (hf : ∀ n, p n → f n = g n) :
    Follows onPage pageAdmits (do
      let value ← readVarintAsBigInt
      check (p value) (error value)
      return f value) (scanNumber width) g := by
  intro _ c
  have hread : (readVarintAsBigInt (onPage () c)).toOption = (anyNumber c).toOption :=
    varint_any _ _ _ _ c
  rw [toOption_bind, hread]
  unfold scanNumber
  cases (anyNumber c).toOption with
  | none => rfl
  | some q =>
      simp only [Option.bind_some, toOption_bind, Option.map_some, List.foldlM_cons,
        List.foldlM_nil, pageAdmits, Field.sound, ← hp]
      by_cases hq : p q.1
      · simp only [check, decide_eq_true hq, if_true, hf q.1 hq]
        rfl
      · simp [check, hq, Except.toOption]

theorem follows_bigInt : Follows onPage pageAdmits readVarintAsBigInt (scanNumber 8) id := by
  intro _ c
  have hread : (readVarintAsBigInt (onPage () c)).toOption = (anyNumber c).toOption :=
    varint_any _ _ _ _ c
  rw [hread]
  unfold scanNumber
  cases hany : anyNumber c with
  | error e => rfl
  | ok q =>
      have hlt : q.1 < 256 ^ 8 := varint_lt hany
      simp only [Except.toOption, Option.map_some, Option.bind_some, List.foldlM_cons,
        List.foldlM_nil, pageAdmits, Field.sound, hlt, decide_true, if_true]
      rfl

theorem follows_byteSlice : Follows onPage pageAdmits readByteSlice scanBytes id := by
  refine follows_bigInt.bind fun length => ?_
  refine Follows.uncounted (Field.bytes length) ?_ fun _ => rfl
  refine .silent fun _ c => ?_
  rw [take_any _ _ (fun _ => ()) (onPage () c)]
  exact Option.map_id'.symm

theorem follows_textDecode : Follows onPage pageAdmits readString scanText withoutMark := by
  refine follows_byteSlice.bind fun slice => ?_
  simp only [id, textDecode]
  cases Utf8.decode slice with
  | none => exact .nothing fun _ => rfl
  | some s => exact .pure s withoutMark

theorem follows_readOption {α β : Type} {r : Reader BakaboxWireError α} {s : Scan Field β}
    {f : β → α} (h : Follows onPage pageAdmits r s f) :
    Follows onPage pageAdmits (readOption r) (scanOption s) (Option.map f) := by
  have htag : Follows onPage pageAdmits readU8 scanTag id := by
    refine Follows.uncounted Field.tag (.silent fun _ c => ?_) fun _ => rfl
    rw [readU8, byte_any _ (fun _ => ()) (onPage () c)]
    exact Option.map_id'.symm
  refine htag.bind fun tag => ?_
  simp only [id]
  split_ifs with hnone hsome
  · exact .pure none (Option.map f)
  · exact h.last fun _ => rfl
  · exact .nothing fun _ => rfl

theorem follows_check {allowed : Bool} {error : Cursor → BakaboxWireError} (field : Field)
    (h : field.sound = allowed) :
    Follows onPage pageAdmits (check allowed error) (Scan.note field) id := by
  refine .noted fun _ c => ?_
  unfold check pageAdmits
  rw [h]
  split_ifs <;> rfl

theorem follows_readInstructionRange :
    Follows onPage pageAdmits readInstructionRange scanRange id := by
  have hnumber : Follows onPage pageAdmits readVarintU32 (scanNumber 4) id :=
    follows_checked (fun n => by omega) fun _ _ => rfl
  exact hnumber.bind fun start => hnumber.bind fun stop =>
    (follows_check (Field.range start stop) rfl).bind fun _ => .pure (start, stop) id

theorem follows_readVec {α β : Type} (listed : Listed) {r : Reader BakaboxWireError α}
    {s : Scan Field β} {f : β → α} (h : Follows onPage pageAdmits r s f) :
    Follows onPage pageAdmits (readVec r) (scanList listed s) (List.map f) := by
  refine follows_bigInt.bind fun length => ?_
  refine (follows_check (Field.list listed length) rfl).bind fun _ => ?_
  exact (h.uncounted (Field.member listed) fun _ => rfl).times rfl (fun _ => rfl) length

theorem unzigzag_eq {n : ℕ} (hn : n ≤ 0xffffffff) : Bakabox.unzigzag n = unzigzag n := by
  unfold unzigzag
  obtain ⟨k, rfl | rfl⟩ : ∃ k, n = 2 * k ∨ n = 2 * k + 1 := ⟨n / 2, by omega⟩
  · rw [unzigzag_even (by omega)]
    split_ifs <;> omega
  · rw [unzigzag_odd (by omega)]
    split_ifs <;> omega

theorem follows_page : page.Follows onPage pageAdmits withoutMark where
  u16 := follows_checked (fun n => by omega) fun _ _ => rfl
  u32 := follows_checked (fun n => by omega) fun _ _ => rfl
  u64 := follows_bigInt
  i32 := (follows_checked (g := unzigzag) (fun n => by omega) fun n hn => unzigzag_eq hn).mapped
  bytes := follows_byteSlice
  text := follows_textDecode
  range := follows_readInstructionRange
  option := follows_readOption
  list := follows_readVec
  unknown := fun _ _ _ => .nothing fun _ => rfl

/-! ### Ranges -/

def patched : Op → Option (ℕ × ℕ)
  | .patch _ start stop => some (start, stop)
  | _ => none

def ranges (f : Frame) : List (ℕ × ℕ) := f.instructions.filterMap patched

def Ordered (op : Op) : Prop := ∀ range ∈ patched op, range.1 ≤ range.2

theorem yields_range : Yields readInstructionRange fun range => range.1 ≤ range.2 :=
  .bind fun _ => .bind fun _ => .passed fun h => .pure (by simpa using h)

theorem yields_reader :
    ∀ reader ∈ Bakabox.instructionReaders, Yields reader Ordered := by
  have plain {op : Op} (h : patched op = none) :
      Yields (pure op : Reader BakaboxWireError Op) Ordered :=
    .pure fun range hrange => by
      rw [h] at hrange
      cases hrange
  simp only [Bakabox.instructionReaders, List.forall_mem_cons, List.not_mem_nil, false_imp_iff,
    implies_true, and_true]
  refine ⟨?_, ?_, ?_, ?_, ?_, ?_, ?_, ?_, ?_, ?_, ?_, ?_, ?_, ?_, ?_, ?_, ?_, ?_⟩
  case refine_11 =>
    exact .bind fun _ => yields_range.andThen fun range hrange => .pure fun _ h => by
      obtain rfl := Option.some.inj h
      exact hrange
  all_goals repeat' first | exact plain rfl | refine .bind fun _ => ?_

theorem page_ordered {bytes : List UInt8} {f : Frame} (h : Bakabox.decodeFrame bytes = .ok f) :
    ∀ range ∈ ranges f, range.1 ≤ range.2 := by
  have hinstruction : Yields Bakabox.readInstruction Ordered := by
    refine .bind fun variant => ?_
    cases hreader : Bakabox.instructionReaders[variant]? with
    | none => exact .fail _
    | some reader => exact yields_reader reader (List.mem_of_getElem? hreader)
  have hframe : Yields Bakabox.readFrame fun q => ∀ op ∈ q.2.2, Ordered op :=
    .bind fun _ => .bind fun _ => Yields.andThen
      (.bind fun length => .passed fun _ => hinstruction.times length) fun ops hops => .pure hops
  unfold Bakabox.decodeFrame at h
  cases hread : Bakabox.readFrame ⟨bytes, 0⟩ with
  | error e =>
      rw [hread] at h
      cases h
  | ok q =>
      rw [hread] at h
      obtain rfl := Except.ok.inj h
      intro range hrange
      obtain ⟨op, hop, hpatched⟩ := List.mem_filterMap.mp hrange
      exact hframe _ _ hread op hop range hpatched

/-! ### Which bytes each of the two takes -/

/-- Every number of the fields is written no wider than its field. -/
def Narrow (fs : List Field) : Prop := ∀ field ∈ fs, field.narrow = true

def Within (sizeOf : Listed → ℕ) (fs : List Field) : Prop :=
  (fs.foldlM (counted sizeOf) 0).isSome = true

/-- Numbers, lists and ranges are such as the page holds. -/
def Sound (fs : List Field) : Prop := ∀ field ∈ fs, field.sound = true

instance (fs : List Field) : Decidable (Narrow fs) := inferInstanceAs (Decidable (∀ _ ∈ fs, _))
instance (sizeOf : Listed → ℕ) (fs : List Field) : Decidable (Within sizeOf fs) :=
  inferInstanceAs (Decidable (_ = _))
instance (fs : List Field) : Decidable (Sound fs) := inferInstanceAs (Decidable (∀ _ ∈ fs, _))

section
variable (sizeOf : Listed → ℕ)

theorem admitted_iff (fs : List Field) (bytesRead : ℕ) :
    (fs.foldlM (serverAdmits sizeOf) bytesRead).isSome = true ↔
      Narrow fs ∧ (fs.foldlM (counted sizeOf) bytesRead).isSome = true := by
  induction fs generalizing bytesRead with
  | nil => simp [Narrow]
  | cons field fs ih =>
      rw [List.foldlM_cons, List.foldlM_cons, Narrow, List.forall_mem_cons, serverAdmits]
      cases hnarrow : field.narrow with
      | false => simp
      | true =>
          cases counted sizeOf bytesRead field with
          | none => simp
          | some next => simpa [Narrow] using ih next

theorem allowed_iff (fs : List Field) :
    (fs.foldlM pageAdmits ()).isSome = true ↔ Sound fs := by
  induction fs with
  | nil => simp [Sound]
  | cons field fs ih =>
      rw [List.foldlM_cons, Sound, List.forall_mem_cons, pageAdmits]
      cases hsound : field.sound with
      | false => simp
      | true => simpa [Sound] using ih

def frameOf (found : Found Field (ℕ × Option ℕ × List Op)) : Frame :=
  ⟨found.value.1, found.value.2.1, found.value.2.2, found.after.offset⟩

theorem server_toOption (bytes : List UInt8) : (decodeFrame sizeOf bytes).toOption =
    (readFrame written ⟨bytes, 0⟩).bind fun found =>
      (found.fields.foldlM (serverAdmits sizeOf) 0).map fun _ => frameOf found := by
  have hfollows : (server sizeOf).Follows atServer (serverAdmits sizeOf) id := follows_server
  have hread := hfollows.frame 0 ⟨bytes, 0⟩
  have hframe : (decodeFrame sizeOf bytes).toOption =
      (readFrame (server sizeOf) ⟨⟨bytes, 0⟩, 0⟩).toOption.map fun p =>
        ⟨p.1.1, p.1.2.1, p.1.2.2, p.2.reader.offset⟩ := by
    unfold decodeFrame
    cases readFrame (server sizeOf) ⟨⟨bytes, 0⟩, 0⟩ with
    | error e => rfl
    | ok p => rfl
  rw [hframe]
  change ((readFrame (server sizeOf) (atServer 0 ⟨bytes, 0⟩)).toOption.map _) = _
  rw [hread, Option.map_bind]
  simp only [Function.comp_def, Option.map_map, Op.reread_id, List.map_id_fun, id]
  rfl

theorem page_toOption (bytes : List UInt8) : (Bakabox.decodeFrame bytes).toOption =
    (readFrame written ⟨bytes, 0⟩).bind fun found =>
      (found.fields.foldlM pageAdmits ()).map fun _ => (frameOf found).reread withoutMark := by
  have hread := follows_page.frame () ⟨bytes, 0⟩
  have hframe : (Bakabox.decodeFrame bytes).toOption =
      (Bakabox.readFrame ⟨bytes, 0⟩).toOption.map fun p =>
        ⟨p.1.1, p.1.2.1, p.1.2.2, p.2.offset⟩ := by
    unfold Bakabox.decodeFrame
    cases Bakabox.readFrame ⟨bytes, 0⟩ with
    | error e => rfl
    | ok p => rfl
  rw [readFrame_page] at hread
  rw [hframe]
  change ((Bakabox.readFrame (onPage () ⟨bytes, 0⟩)).toOption.map _) = _
  rw [hread, Option.map_bind]
  simp only [Function.comp_def, Option.map_map]
  rfl

theorem exists_ok_iff {ε α : Type} {x : Except ε α} :
    (∃ a, x = .ok a) ↔ x.toOption.isSome = true := by
  cases x with
  | error e => simp [Except.toOption]
  | ok a => simp [Except.toOption]

/-- The server takes a frame's bytes just when no number is written wider than its field and it
counts no more than it reads. -/
theorem server_takes_iff (bytes : List UInt8) : (∃ f, decodeFrame sizeOf bytes = .ok f) ↔
    ∃ fs, fields bytes = some fs ∧ Narrow fs ∧ Within sizeOf fs := by
  rw [exists_ok_iff, server_toOption, fields]
  cases readFrame written ⟨bytes, 0⟩ with
  | none => simp
  | some found =>
      simp only [Option.bind_some, Option.isSome_map, Option.map_some, Option.some.injEq,
        exists_eq_left']
      exact admitted_iff sizeOf found.fields 0

theorem page_takes_iff (bytes : List UInt8) : (∃ f, Bakabox.decodeFrame bytes = .ok f) ↔
    ∃ fs, fields bytes = some fs ∧ Sound fs := by
  rw [exists_ok_iff, page_toOption, fields]
  cases readFrame written ⟨bytes, 0⟩ with
  | none => simp
  | some found =>
      simp only [Option.bind_some, Option.isSome_map, Option.map_some, Option.some.injEq,
        exists_eq_left']
      exact allowed_iff found.fields

/-- The page takes an id in nine bytes, which the server refuses. -/
example : (decodeFrame (fun _ => 64) [0, 0, 1, 6, 253, 5, 0, 0, 0, 0, 0, 0, 0]).toOption = none ∧
    Bakabox.decodeFrame [0, 0, 1, 6, 253, 5, 0, 0, 0, 0, 0, 0, 0] =
      .ok ⟨0, none, [.remove 5], 13⟩ := by
  decide +kernel

theorem ranges_reread (read : List Char → List Char) (f : Frame) :
    ranges (f.reread read) = ranges f := by
  unfold ranges Frame.reread
  rw [List.filterMap_map]
  congr 1
  funext op
  cases op <;> rfl

theorem same_frame {bytes : List UInt8} {f f' : Frame}
    (hserver : decodeFrame sizeOf bytes = .ok f) (hpage : Bakabox.decodeFrame bytes = .ok f') :
    f' = f.reread withoutMark := by
  have hs := server_toOption sizeOf bytes
  have hp := page_toOption bytes
  rw [hserver] at hs
  rw [hpage] at hp
  cases hfound : readFrame written ⟨bytes, 0⟩ with
  | none =>
      rw [hfound] at hs
      cases hs
  | some found =>
      simp only [hfound, Option.bind_some, Except.toOption] at hs hp
      obtain ⟨_, -, rfl⟩ := Option.map_eq_some_iff.mp hs.symm
      obtain ⟨_, -, rfl⟩ := Option.map_eq_some_iff.mp hp.symm
      rfl

/-- What the server decodes has its ranges in order, and the page takes the same bytes. -/
def SameBytes (bytes : List UInt8) : Prop :=
  (∀ f, decodeFrame sizeOf bytes = .ok f → ∀ range ∈ ranges f, range.1 ≤ range.2) ∧
    ((∃ f, decodeFrame sizeOf bytes = .ok f) ↔ ∃ f, Bakabox.decodeFrame bytes = .ok f)

/-- The decoders agree on some bytes just when these are of no frame, or each of the two finds
fault with what it looks at, or neither does. -/
theorem same_bytes_iff (bytes : List UInt8) : SameBytes sizeOf bytes ↔
    ∀ fs, fields bytes = some fs →
      Narrow fs ∧ Within sizeOf fs ∧ Sound fs ∨
        (¬ Narrow fs ∨ ¬ Within sizeOf fs) ∧ ¬ Sound fs := by
  have hagree : SameBytes sizeOf bytes ↔
      ((∃ f, decodeFrame sizeOf bytes = .ok f) ↔ ∃ f, Bakabox.decodeFrame bytes = .ok f) := by
    refine ⟨And.right, fun h => ⟨fun f hf => ?_, h⟩⟩
    obtain ⟨f', hf'⟩ := h.mp ⟨f, hf⟩
    have hordered := page_ordered hf'
    rwa [same_frame sizeOf hf hf', ranges_reread] at hordered
  rw [hagree, server_takes_iff, page_takes_iff]
  cases fields bytes with
  | none => simp
  | some fs =>
      simp only [Option.some.injEq, exists_eq_left', forall_eq']
      tauto

end

/-- A frame of one patch, whose range begins after it ends. -/
def reversed : List UInt8 := [0, 0, 1, 10, 0, 1, 0]

/-- The server decodes a range it would not build, and the page refuses it. -/
theorem reversed_range_is_decoded :
    ¬ ∀ (sizeOf : Listed → ℕ) (bytes : List UInt8), bytes.length ≤ maxWireDecodeBytes →
      SameBytes sizeOf bytes := by
  intro h
  have hf : decodeFrame (fun _ => 64) reversed = .ok ⟨0, none, [.patch 0 1 0], 7⟩ := by
    decide +kernel
  have hrange := (h (fun _ => 64) reversed (by decide)).1 _ hf (1, 0) (by decide)
  exact absurd hrange (by decide)

end Wire
end Albedo.Ir
