import Albedo.Ir.Bakabox

/-!
# One format, read and written

What the page's decoder makes of the encoder's bytes: the frame that was encoded, except that
text loses a byte order mark it begins with, and that a list too long for the page is refused.
-/
namespace Albedo.Ir
open Bincode Bakabox

/-! ### A frame as the page holds it -/

section
variable (read : List Char → List Char)

def InternEntry.entry (e : InternEntry) : Entry := ⟨e.id.toNat, read e.value.1⟩

def InternTable.table (t : InternTable) : Table :=
  ⟨t.kind, t.entries.1.map (InternEntry.entry read)⟩

def InternPatchOp.patchOp : InternPatchOp → PatchOp
  | .set id value => .set id.toNat (read value.1)
  | .remove id => .remove id.toNat

def SlotChange.change (c : SlotChange) : Change :=
  ⟨c.weight.toInt, read c.key.1, c.payload.1⟩

def ReconcileRow.row (r : ReconcileRow) : Row := ⟨read r.key.1, r.payload.1⟩

def Instruction.op : Instruction → Op
  | .initInternTable table => .initInternTable (table.table read)
  | .patchInternTable kind ops => .patchInternTable kind (ops.1.map (InternPatchOp.patchOp read))
  | .create tagId stableId => .create tagId.toNat stableId.toNat
  | .setAttr stableId attrId value => .setAttr stableId.toNat attrId.toNat value.1
  | .setText stableId text => .setText stableId.toNat text.1
  | .append parentId childId => .append parentId.toNat childId.toNat
  | .remove stableId => .remove stableId.toNat
  | .bindEvent stableId eventId proxyId => .bindEvent stableId.toNat eventId.toNat proxyId.toNat
  | .bindSlot stableId slotId => .bindSlot stableId.toNat slotId.toNat
  | .placeholder stableId suspenseId => .placeholder stableId.toNat suspenseId.toNat
  | .patch suspenseId range => .patch suspenseId.toNat range.start.toNat range.stop.toNat
  | .setTextRef stableId slotId => .setTextRef stableId.toNat slotId.toNat
  | .setAttrRef stableId attrId slotId => .setAttrRef stableId.toNat attrId.toNat slotId.toNat
  | .slotSet slotId value => .slotSet slotId.toNat value.1
  | .navigate url => .navigate (read url.1)
  | .slotDelta slotId changes => .slotDelta slotId.toNat (changes.1.map (SlotChange.change read))
  | .reconcileList slotId rows => .reconcileList slotId.toNat (rows.1.map (ReconcileRow.row read))
  | .slotInsert slotId before rows =>
      .slotInsert slotId.toNat (before.map fun key => read key.1)
        (rows.1.map (ReconcileRow.row read))

def OpcodeFrame.frame (f : OpcodeFrame) : Frame where
  frameId := f.frameId.toNat
  componentId := f.componentId.map UInt64.toNat
  instructions := f.instructions.1.map (Instruction.op read)
  consumed := (encodeFrame f).length

end

def InternPatchOp.texts : InternPatchOp → List Text
  | .set _ value => [value]
  | .remove _ => []

def Instruction.texts : Instruction → List Text
  | .initInternTable table => table.entries.1.map InternEntry.value
  | .patchInternTable _ ops => ops.1.flatMap InternPatchOp.texts
  | .navigate url => [url]
  | .slotDelta _ changes => changes.1.map SlotChange.key
  | .reconcileList _ rows => rows.1.map ReconcileRow.key
  | .slotInsert _ before rows => before.toList ++ rows.1.map ReconcileRow.key
  | _ => []

def arrayBound : ℕ := 0xffffffff

def Instruction.fits : Instruction → Bool
  | .initInternTable table => table.entries.1.length ≤ arrayBound
  | .patchInternTable _ ops => ops.1.length ≤ arrayBound
  | .slotDelta _ changes => changes.1.length ≤ arrayBound
  | .reconcileList _ rows => rows.1.length ≤ arrayBound
  | .slotInsert _ _ rows => rows.1.length ≤ arrayBound
  | _ => true

def OpcodeFrame.fits (f : OpcodeFrame) : Bool :=
  f.instructions.1.length ≤ arrayBound && f.instructions.1.all Instruction.fits

def OpcodeFrame.texts (f : OpcodeFrame) : List Text := f.instructions.1.flatMap Instruction.texts

/-! ### Readers of one value -/

theorem reads_bigInt {n : ℕ} (h : n < 2 ^ 64) : Reads readVarintAsBigInt (encodeVarint n) (some n) :=
  Reads.varint (.inr ⟨h, le_rfl⟩) short unknownMarker

theorem reads_checked {n : ℕ} {p : ℕ → Prop} [DecidablePred p] {α : Type} {f : ℕ → α}
    {error : ℕ → Cursor → BakaboxWireError} (h : n < 2 ^ 64) (hp : p n) :
    Reads (do
      let value ← readVarintAsBigInt
      check (p value) (error value)
      return f value) (encodeVarint n) (some (f n)) := by
  rw [← List.append_nil (encodeVarint n)]
  refine Reads.andThen (reads_bigInt h) ?_
  exact Reads.passed (by simpa using hp) (Reads.pure (f n))

theorem reads_u64 (n : UInt64) : Reads readVarintU64 (encodeU64 n) (some n.toNat) :=
  reads_bigInt n.toNat_lt

theorem reads_variant {n : ℕ} (h : n < 2 ^ 32) : Reads readVarintU32 (encodeVarint n) (some n) :=
  reads_checked (by omega) (by omega)

theorem reads_u32 (n : UInt32) : Reads readVarintU32 (encodeU32 n) (some n.toNat) :=
  reads_variant n.toNat_lt

theorem reads_u16 (n : UInt16) : Reads readVarintU16 (encodeU16 n) (some n.toNat) := by
  have h := n.toNat_lt
  exact reads_checked (by omega) (by omega)

theorem ofNat_shift {k b : ℕ} (hk : k < 2 ^ 31) (hb : b < 2) :
    BitVec.ofNat 32 (2 * k + b) >>> 1 = BitVec.ofNat 32 k := by
  apply BitVec.eq_of_toNat_eq
  rw [BitVec.toNat_ushiftRight, BitVec.toNat_ofNat, BitVec.toNat_ofNat, Nat.shiftRight_eq_div_pow]
  omega

theorem ofNat_and_one {k b : ℕ} (hb : b < 2) :
    BitVec.ofNat 32 (2 * k + b) &&& 1#32 = BitVec.ofNat 32 b := by
  apply BitVec.eq_of_toNat_eq
  rw [BitVec.toNat_and, BitVec.toNat_ofNat, BitVec.toNat_ofNat, BitVec.toNat_ofNat, Nat.mod_eq_of_lt (by omega : 1 < 2 ^ 32),
    Nat.and_one_is_mod]
  omega

theorem toInt_ofNat {k : ℕ} (hk : k < 2 ^ 31) : (BitVec.ofNat 32 k).toInt = k := by
  rw [BitVec.toInt_eq_toNat_cond, BitVec.toNat_ofNat, Nat.mod_eq_of_lt (by omega)]
  omega

theorem unzigzag_even {k : ℕ} (hk : k < 2 ^ 31) : unzigzag (2 * k) = k := by
  have hshift := ofNat_shift (b := 0) hk (by decide)
  have hbit := ofNat_and_one (k := k) (b := 0) (by decide)
  rw [Nat.add_zero] at hshift hbit
  rw [unzigzag, hshift, hbit, BitVec.neg_zero, BitVec.xor_zero, toInt_ofNat hk]

theorem unzigzag_odd {k : ℕ} (hk : k < 2 ^ 31) : unzigzag (2 * k + 1) = -k - 1 := by
  have hones : -BitVec.ofNat 32 1 = BitVec.allOnes 32 := by decide
  rw [unzigzag, ofNat_shift hk (by decide), ofNat_and_one (by decide), hones, BitVec.xor_allOnes,
    BitVec.toInt_eq_toNat_cond, BitVec.toNat_not, BitVec.toNat_ofNat, Nat.mod_eq_of_lt (by omega)]
  omega

theorem unzigzag_zigzag (n : Int32) : unzigzag (zigzag n.toInt) = n.toInt := by
  have hlow := n.le_toInt
  have hhigh := n.toInt_lt
  unfold zigzag
  split_ifs with h
  · rw [unzigzag_odd (by omega)]
    omega
  · rw [unzigzag_even (by omega)]
    omega

theorem reads_i32 (n : Int32) : Reads readVarintI32 (encodeI32 n) (some n.toInt) := by
  have hbound := zigzag_lt n.le_toInt n.toInt_lt
  have hread : Reads readVarintI32 (encodeI32 n) (some (unzigzag (zigzag n.toInt))) :=
    reads_checked (by omega) (by omega)
  rwa [unzigzag_zigzag] at hread

theorem reads_bytes {bytes : List UInt8} (h : bytes.length < 2 ^ 64) :
    Reads readByteSlice (encodeBytes bytes) (some bytes) :=
  Reads.andThen (reads_bigInt h) (Reads.take bytes _)

theorem reads_text (s : Text) : Reads readString (encodeText s) (some (withoutMark s.1)) := by
  rw [encodeText, ← List.append_nil (encodeBytes _)]
  refine Reads.andThen (reads_bytes s.2) ?_
  rw [textDecode, Utf8.decode_encode, Option.map_some]
  exact Reads.pure _

theorem reads_option {α β : Type} {r : Reader BakaboxWireError β} {encode : α → List UInt8}
    {g : α → β} (h : ∀ x, Reads r (encode x) (some (g x))) (o : Option α) :
    Reads (readOption r) (encodeOption encode o) (some (o.map g)) := by
  cases o with
  | none =>
      change Reads (readOption r) ([0] ++ []) (some none)
      exact Reads.andThen (Reads.byte 0 _) (Reads.pure none)
  | some x => exact Reads.andThen (Reads.byte 1 _) (Reads.last (h x))

theorem reads_vec {α β : Type} {r : Reader BakaboxWireError β} {encode : α → List UInt8}
    {heard : α → Option β} (xs : Vec α) (h : ∀ x ∈ xs.1, Reads r (encode x) (heard x)) :
    Reads (readVec r) (encodeVec encode xs)
      (if xs.1.length ≤ arrayBound then xs.1.mapM heard else none) := by
  refine Reads.andThen (reads_bigInt xs.2) ?_
  split_ifs with hfits
  · exact Reads.passed (by simpa [arrayBound] using hfits) (Reads.times h)
  · exact Reads.stopped (by simpa [arrayBound] using hfits) _

/-! ### Readers of the opcodes -/

theorem reads_list {α β : Type} {r : Reader BakaboxWireError β} {encode : α → List UInt8}
    {g : α → β} (xs : Vec α) (h : ∀ x, Reads r (encode x) (some (g x))) :
    Reads (readVec r) (encodeVec encode xs)
      (if xs.1.length ≤ arrayBound then some (xs.1.map g) else none) := by
  have hall : xs.1.mapM (fun x => some (g x)) = some (xs.1.map g) := List.mapM_pure
  rw [← hall]
  exact reads_vec xs fun x _ => h x

theorem reads_list_last {α β γ : Type} {r : Reader BakaboxWireError β} {encode : α → List UInt8}
    {g : α → β} {f : List β → γ} (xs : Vec α) (h : ∀ x, Reads r (encode x) (some (g x))) :
    Reads (readVec r >>= fun ys => pure (f ys)) (encodeVec encode xs)
      (if xs.1.length ≤ arrayBound then some (f (xs.1.map g)) else none) := by
  have hread := Reads.last (f := f) (reads_list xs h)
  rwa [apply_ite (Option.map f), Option.map_some, Option.map_none] at hread

theorem reads_kind_at {position : ℕ} {kind : InternTableKind} (hposition : position < 2 ^ 32)
    (hkind : internTableKind[position]? = some kind) :
    Reads readInternTableKind (encodeVariant position) (some kind) := by
  rw [← List.append_nil (encodeVariant position)]
  refine Reads.andThen (reads_variant hposition) ?_
  rw [hkind]
  exact Reads.pure kind

theorem reads_kind (kind : InternTableKind) :
    Reads readInternTableKind kind.encode (some kind) := by
  cases kind with
  | tag => exact reads_kind_at (by decide) rfl
  | attr => exact reads_kind_at (by decide) rfl
  | event => exact reads_kind_at (by decide) rfl

theorem reads_entry (e : InternEntry) :
    Reads readInternEntry e.encode (some (e.entry withoutMark)) :=
  Reads.andThen (reads_u16 e.id) (Reads.last (reads_text e.value))

theorem reads_table (t : InternTable) : Reads readInternTable t.encode
    (if t.entries.1.length ≤ arrayBound then some (t.table withoutMark) else none) :=
  Reads.andThen (reads_kind t.kind) (reads_list_last t.entries reads_entry)

theorem reads_patchOp (p : InternPatchOp) :
    Reads readInternPatchOp p.encode (some (p.patchOp withoutMark)) := by
  cases p with
  | set id value =>
      exact Reads.andThen (reads_variant (by decide))
        (Reads.andThen (reads_u16 id) (Reads.last (reads_text value)))
  | remove id => exact Reads.andThen (reads_variant (by decide)) (Reads.last (reads_u16 id))

theorem reads_change (c : SlotChange) :
    Reads readSlotChange c.encode (some (c.change withoutMark)) :=
  Reads.andThen (reads_i32 c.weight)
    (Reads.andThen (reads_text c.key) (Reads.last (reads_bytes c.payload.2)))

theorem reads_row (r : ReconcileRow) :
    Reads readReconcileRow r.encode (some (r.row withoutMark)) :=
  Reads.andThen (reads_text r.key) (Reads.last (reads_bytes r.payload.2))

theorem reads_range (range : InstructionRange) :
    Reads readInstructionRange range.encode (some (range.start.toNat, range.stop.toNat)) := by
  have hordered : range.start.toNat ≤ range.stop.toNat := range.start_le_stop
  rw [InstructionRange.encode, ← List.append_nil (encodeU32 range.stop)]
  refine Reads.andThen (reads_u32 range.start) (Reads.andThen (reads_u32 range.stop) ?_)
  exact Reads.passed (by simpa using hordered) (Reads.pure _)

theorem reads_at {position : ℕ} {reader : Reader BakaboxWireError Op} {bytes : List UInt8}
    {o : Option Op} (hposition : position < 2 ^ 32)
    (hreader : instructionReaders[position]? = some reader) (h : Reads reader bytes o) :
    Reads readInstruction (encodeVariant position ++ bytes) o := by
  refine Reads.andThen (reads_variant hposition) ?_
  rw [hreader]
  exact h

theorem reads_instruction (i : Instruction) :
    Reads readInstruction i.encode (if i.fits then some (i.op withoutMark) else none) := by
  cases i with
  | initInternTable table =>
      refine reads_at (by decide) rfl ?_
      have hread := Reads.last (f := Op.initInternTable) (reads_table table)
      rw [apply_ite (Option.map _), Option.map_some, Option.map_none] at hread
      simp only [Instruction.fits, decide_eq_true_eq]
      exact hread
  | patchInternTable kind ops =>
      refine reads_at (by decide) rfl (Reads.andThen (reads_kind kind) ?_)
      simp only [Instruction.fits, decide_eq_true_eq]
      exact reads_list_last ops reads_patchOp
  | create tagId stableId =>
      exact reads_at (by decide) rfl
        (Reads.andThen (reads_u16 tagId) (Reads.last (reads_u32 stableId)))
  | setAttr stableId attrId value =>
      exact reads_at (by decide) rfl (Reads.andThen (reads_u32 stableId)
        (Reads.andThen (reads_u16 attrId) (Reads.last (reads_bytes value.2))))
  | setText stableId text =>
      exact reads_at (by decide) rfl
        (Reads.andThen (reads_u32 stableId) (Reads.last (reads_bytes text.2)))
  | append parentId childId =>
      exact reads_at (by decide) rfl
        (Reads.andThen (reads_u32 parentId) (Reads.last (reads_u32 childId)))
  | remove stableId => exact reads_at (by decide) rfl (Reads.last (reads_u32 stableId))
  | bindEvent stableId eventId proxyId =>
      exact reads_at (by decide) rfl (Reads.andThen (reads_u32 stableId)
        (Reads.andThen (reads_u16 eventId) (Reads.last (reads_u32 proxyId))))
  | bindSlot stableId slotId =>
      exact reads_at (by decide) rfl
        (Reads.andThen (reads_u32 stableId) (Reads.last (reads_u32 slotId)))
  | placeholder stableId suspenseId =>
      exact reads_at (by decide) rfl
        (Reads.andThen (reads_u32 stableId) (Reads.last (reads_u32 suspenseId)))
  | patch suspenseId range =>
      exact reads_at (by decide) rfl
        (Reads.andThen (reads_u32 suspenseId) (Reads.last (reads_range range)))
  | setTextRef stableId slotId =>
      exact reads_at (by decide) rfl
        (Reads.andThen (reads_u32 stableId) (Reads.last (reads_u32 slotId)))
  | setAttrRef stableId attrId slotId =>
      exact reads_at (by decide) rfl (Reads.andThen (reads_u32 stableId)
        (Reads.andThen (reads_u16 attrId) (Reads.last (reads_u32 slotId))))
  | slotSet slotId value =>
      exact reads_at (by decide) rfl
        (Reads.andThen (reads_u32 slotId) (Reads.last (reads_bytes value.2)))
  | navigate url => exact reads_at (by decide) rfl (Reads.last (reads_text url))
  | slotDelta slotId changes =>
      refine reads_at (by decide) rfl (Reads.andThen (reads_u32 slotId) ?_)
      simp only [Instruction.fits, decide_eq_true_eq]
      exact reads_list_last changes reads_change
  | reconcileList slotId rows =>
      refine reads_at (by decide) rfl (Reads.andThen (reads_u32 slotId) ?_)
      simp only [Instruction.fits, decide_eq_true_eq]
      exact reads_list_last rows reads_row
  | slotInsert slotId before rows =>
      refine reads_at (by decide) rfl (Reads.andThen (reads_u32 slotId)
        (Reads.andThen (reads_option reads_text before) ?_))
      simp only [Instruction.fits, decide_eq_true_eq]
      exact reads_list_last rows reads_row

/-! ### Frames -/

theorem mapM_allowed {α β : Type} (p : α → Bool) (g : α → β) (xs : List α) :
    xs.mapM (fun x => if p x then some (g x) else none) =
      if xs.all p then some (xs.map g) else none := by
  induction xs with
  | nil => rfl
  | cons x xs ih =>
      rw [List.mapM_cons, ih, List.all_cons]
      cases p x <;> cases xs.all p <;> rfl

theorem reads_frame (f : OpcodeFrame) : Reads readFrame (encodeFrame f)
    (if f.fits then some (f.frameId.toNat, f.componentId.map UInt64.toNat,
      f.instructions.1.map (Instruction.op withoutMark)) else none) := by
  refine Reads.andThen (reads_u64 f.frameId)
    (Reads.andThen (reads_option reads_u64 f.componentId) ?_)
  have hread := Reads.last (f := fun ops => (f.frameId.toNat, f.componentId.map UInt64.toNat, ops))
    (reads_vec f.instructions fun i _ => reads_instruction i)
  rw [mapM_allowed, ← ite_and, apply_ite (Option.map _), Option.map_some, Option.map_none] at hread
  simpa only [OpcodeFrame.fits, Bool.and_eq_true, decide_eq_true_eq] using hread

theorem decodeFrame_encodeFrame (f : OpcodeFrame) (rest : List UInt8) :
    (decodeFrame (encodeFrame f ++ rest)).toOption =
      if f.fits then some (f.frame withoutMark) else none := by
  have hread := reads_frame f rest 0
  cases hframe : readFrame ⟨encodeFrame f ++ rest, 0⟩ with
  | error e =>
      rw [hframe] at hread
      cases hfits : f.fits with
      | false => rw [decodeFrame, hframe]; rfl
      | true => simp [hfits, Except.toOption] at hread
  | ok p =>
      rw [hframe] at hread
      cases hfits : f.fits with
      | false => simp [hfits, Except.toOption] at hread
      | true =>
          simp only [hfits, if_true, Option.map_some, Except.toOption, Option.some.injEq] at hread
          rw [decodeFrame, hframe, hread]
          simp [OpcodeFrame.frame, Except.toOption]

/-! ### When it is the same frame -/

def Unmarked (s : Text) : Prop := s.1.head? ≠ some byteOrderMark

instance (s : Text) : Decidable (Unmarked s) := inferInstanceAs (Decidable (_ ≠ _))

theorem withoutMark_eq {s : Text} : withoutMark s.1 = s.1 ↔ Unmarked s := by
  obtain ⟨s, hs⟩ := s
  cases s with
  | nil => simp [withoutMark, Unmarked]
  | cons c s =>
      simp only [withoutMark, Unmarked, List.head?_cons, ne_eq, Option.some.injEq]
      split_ifs with hc
      · simp [hc]
      · simp [hc]

theorem entry_eq {e : InternEntry} : e.entry withoutMark = e.entry id ↔ Unmarked e.value := by
  simp [InternEntry.entry, withoutMark_eq]

theorem patchOp_eq {p : InternPatchOp} :
    p.patchOp withoutMark = p.patchOp id ↔ ∀ s ∈ p.texts, Unmarked s := by
  cases p <;> simp [InternPatchOp.patchOp, InternPatchOp.texts, withoutMark_eq]

theorem change_eq {c : SlotChange} : c.change withoutMark = c.change id ↔ Unmarked c.key := by
  simp [SlotChange.change, withoutMark_eq]

theorem row_eq {r : ReconcileRow} : r.row withoutMark = r.row id ↔ Unmarked r.key := by
  simp [ReconcileRow.row, withoutMark_eq]

theorem op_eq {i : Instruction} :
    i.op withoutMark = i.op id ↔ ∀ s ∈ i.texts, Unmarked s := by
  cases i with
  | initInternTable table =>
      simp [Instruction.op, Instruction.texts, InternTable.table, List.map_inj_left, entry_eq]
  | patchInternTable kind ops =>
      simp only [Instruction.op, Instruction.texts, Op.patchInternTable.injEq, true_and,
        List.map_inj_left, patchOp_eq, List.forall_mem_flatMap]
  | navigate url => simp [Instruction.op, Instruction.texts, withoutMark_eq]
  | slotDelta slotId changes =>
      simp [Instruction.op, Instruction.texts, List.map_inj_left, change_eq]
  | reconcileList slotId rows =>
      simp [Instruction.op, Instruction.texts, List.map_inj_left, row_eq]
  | slotInsert slotId before rows =>
      cases before <;>
        simp [Instruction.op, Instruction.texts, List.map_inj_left, row_eq, withoutMark_eq]
  | _ => simp [Instruction.op, Instruction.texts]

theorem frame_eq {f : OpcodeFrame} :
    f.frame withoutMark = f.frame id ↔ ∀ s ∈ f.texts, Unmarked s := by
  simp only [OpcodeFrame.frame, OpcodeFrame.texts, Frame.mk.injEq, true_and, and_true,
    List.map_inj_left, op_eq, List.forall_mem_flatMap]

/-- The page decodes the frame that was encoded, and takes all its bytes, just when it can hold
the frame's lists and no text of the frame begins with a byte order mark. -/
theorem decodeFrame_same (f : OpcodeFrame) (rest : List UInt8) :
    decodeFrame (encodeFrame f ++ rest) = .ok (f.frame id) ↔
      f.fits = true ∧ ∀ s ∈ f.texts, Unmarked s := by
  have hdecode := decodeFrame_encodeFrame f rest
  rw [← frame_eq]
  constructor
  · intro hsame
    rw [hsame] at hdecode
    cases hfits : f.fits with
    | false => simp [hfits, Except.toOption] at hdecode
    | true =>
        rw [hfits, if_pos rfl] at hdecode
        exact ⟨rfl, (Option.some.inj hdecode).symm⟩
  · rintro ⟨hfits, hsame⟩
    rw [hfits, if_pos rfl, hsame] at hdecode
    cases hframe : decodeFrame (encodeFrame f ++ rest) with
    | error e => simp [hframe, Except.toOption] at hdecode
    | ok frame =>
        rw [hframe] at hdecode
        rw [Option.some.inj hdecode]

end Albedo.Ir
