import Mathlib.Data.List.Basic
import Mathlib.Data.List.Nodup
import Mathlib.Data.Nat.Notation
import Mathlib.Data.Prod.Lex
import Mathlib.Data.String.Basic
import Mathlib.Logic.Function.Basic
import Albedo.Library.Buckets
import Albedo.Library.StableSort

/-!
# The column store

One list for each field of the components, all in one order. Edges hold positions in that order,
and text is held by its number in a table. `fromCanonical` builds the columns from a document,
`sortByLane` reorders them, and `toCanonical` reads the document back.
-/
namespace Albedo.Ir

/-- How many lanes the columns can be parted into. -/
def laneCount : ℕ := 4

/-! ### The document -/

inductive IrExportKind where
  | named
  | default

structure EffectProfile where
  hooks : Bool
  asynchronous : Bool
  io : Bool
  sideEffects : Bool

structure CanonicalIrModule where
  modulePath : String
  sourceHash : UInt64
  imports : List String

structure CanonicalIrComponent where
  id : UInt64
  symbol : String
  modulePath : String
  exportKind : IrExportKind
  lineNumber : ℕ
  estimatedSizeBytes : UInt64
  effects : EffectProfile
  sourceHash : UInt64
  legacyPriority : Option Float
  legacyPhase : Option Float

structure CanonicalIrEdge where
  source : UInt64
  target : UInt64

structure CanonicalIrDocument where
  schemaVersion : String
  generatedAt : String
  modules : List CanonicalIrModule
  components : List CanonicalIrComponent
  edges : List CanonicalIrEdge

def dedup (xs : List String) : List String := xs.destutter (· ≠ ·)

def CanonicalIrModule.normalize (m : CanonicalIrModule) : CanonicalIrModule :=
  { m with imports := dedup (StableSort.sortBy (fun name => name) m.imports) }

def CanonicalIrComponent.key (c : CanonicalIrComponent) : ℕ ×ₗ String ×ₗ String :=
  toLex (c.id.toNat, toLex (c.symbol, c.modulePath))

def CanonicalIrEdge.key (e : CanonicalIrEdge) : ℕ ×ₗ ℕ := toLex (e.source.toNat, e.target.toNat)

def CanonicalIrDocument.normalize (d : CanonicalIrDocument) : CanonicalIrDocument :=
  { d with
    modules := (StableSort.sortBy CanonicalIrModule.modulePath d.modules).map
      CanonicalIrModule.normalize
    components := StableSort.sortBy CanonicalIrComponent.key d.components
    edges := StableSort.sortBy CanonicalIrEdge.key d.edges }

def canonicalIrSchemaVersion : String := "1.1"

/-- `now` is the time the document is made at. -/
def newCanonicalDocument (now : String) (modules : List CanonicalIrModule)
    (components : List CanonicalIrComponent) (edges : List CanonicalIrEdge) :
    CanonicalIrDocument :=
  (CanonicalIrDocument.mk canonicalIrSchemaVersion now modules components edges).normalize

/-! ### Cells -/

/-- A number as one of 32 bits, or the largest one. -/
def toU32 (n : ℕ) : UInt32 := if n < 2 ^ 32 then UInt32.ofNat n else 0xFFFFFFFF

def saturatingAdd (a b : UInt32) : UInt32 := toU32 (a.toNat + b.toNat)

theorem toU32_toNat {n : ℕ} (h : n < 2 ^ 32) : (toU32 n).toNat = n := by
  rw [toU32, if_pos h, UInt32.toNat_ofNat']
  exact Nat.mod_eq_of_lt h

theorem saturatingAdd_toNat {a b : UInt32} (h : a.toNat + b.toNat < 2 ^ 32) :
    (saturatingAdd a b).toNat = a.toNat + b.toNat := toU32_toNat h

abbrev StringId := UInt32

structure StringInterner where
  storage : List String
  index : String → Option StringId

def StringInterner.empty : StringInterner := ⟨[], fun _ => none⟩

def StringInterner.intern (s : StringInterner) (value : String) : StringId × StringInterner :=
  match s.index value with
  | some existing => (existing, s)
  | none =>
      let next := toU32 s.storage.length
      (next, ⟨s.storage ++ [value], Function.update s.index value (some next)⟩)

def StringInterner.internAll (s : StringInterner) : List String → List StringId × StringInterner
  | [] => ([], s)
  | value :: values =>
      let (id, s) := s.intern value
      let (ids, s) := s.internAll values
      (id :: ids, s)

def StringInterner.resolve (s : StringInterner) (id : StringId) : String :=
  s.storage.getD id.toNat ""

namespace EffectBits

def hooks : UInt8 := 1
def async : UInt8 := 2
def io : UInt8 := 4
def sideEffects : UInt8 := 8

def pack (profile : EffectProfile) : UInt8 :=
  (if profile.hooks then hooks else 0) ||| (if profile.asynchronous then async else 0) |||
    (if profile.io then io else 0) ||| (if profile.sideEffects then sideEffects else 0)

def unpack (bits : UInt8) : EffectProfile :=
  ⟨bits &&& hooks ≠ 0, bits &&& async ≠ 0, bits &&& io ≠ 0, bits &&& sideEffects ≠ 0⟩

end EffectBits

theorem EffectBits.unpack_pack (profile : EffectProfile) :
    EffectBits.unpack (EffectBits.pack profile) = profile := by
  obtain ⟨hooks, asynchronous, io, sideEffects⟩ := profile
  cases hooks <;> cases asynchronous <;> cases io <;> cases sideEffects <;> rfl

namespace ExportKindBits

def pack : IrExportKind → UInt8
  | .named => 0
  | .default => 1

def unpack (bits : UInt8) : IrExportKind := if bits = 1 then .default else .named

end ExportKindBits

theorem ExportKindBits.unpack_pack (kind : IrExportKind) :
    ExportKindBits.unpack (ExportKindBits.pack kind) = kind := by
  cases kind <;> rfl

namespace PresenceBits

def priority : UInt8 := 1
def phase : UInt8 := 2

end PresenceBits

/-! ### The columns -/

structure IrModuleColumn where
  modulePath : StringId
  sourceHash : UInt64
  imports : List StringId

structure IrColumns where
  ids : List UInt64
  sourceHashes : List UInt64
  estimatedSizes : List UInt32
  lineNumbers : List UInt32
  effects : List UInt8
  exportKinds : List UInt8
  priorities : List Float32
  phases : List Float32
  presence : List UInt8
  symbols : List StringId
  modulePaths : List StringId
  strings : StringInterner
  edgeFrom : List UInt32
  edgeTo : List UInt32
  modules : List IrModuleColumn
  idToIndex : UInt64 → Option UInt32
  laneIds : List UInt8
  laneOffsets : List UInt32

namespace IrColumns

def empty : IrColumns :=
  ⟨[], [], [], [], [], [], [], [], [], [], [], .empty, [], [], [], fun _ => none, [],
    List.replicate (laneCount + 1) 0⟩

def len (c : IrColumns) : ℕ := c.ids.length

def pushModule (c : IrColumns) (m : CanonicalIrModule) : IrColumns :=
  let (modulePath, strings) := c.strings.intern m.modulePath
  let (imports, strings) := strings.internAll m.imports
  { c with strings, modules := c.modules ++ [⟨modulePath, m.sourceHash, imports⟩] }

def pushComponent (c : IrColumns) (component : CanonicalIrComponent) : IrColumns :=
  let colIdx := toU32 c.ids.length
  let (symbol, strings) := c.strings.intern component.symbol
  let (modulePath, strings) := strings.intern component.modulePath
  let priorityPresent := if component.legacyPriority.isSome then PresenceBits.priority else 0
  let phasePresent := if component.legacyPhase.isSome then PresenceBits.phase else 0
  { c with
    ids := c.ids ++ [component.id]
    idToIndex := Function.update c.idToIndex component.id (some colIdx)
    symbols := c.symbols ++ [symbol]
    modulePaths := c.modulePaths ++ [modulePath]
    strings
    exportKinds := c.exportKinds ++ [ExportKindBits.pack component.exportKind]
    lineNumbers := c.lineNumbers ++ [toU32 component.lineNumber]
    estimatedSizes := c.estimatedSizes ++ [toU32 component.estimatedSizeBytes.toNat]
    effects := c.effects ++ [EffectBits.pack component.effects]
    sourceHashes := c.sourceHashes ++ [component.sourceHash]
    priorities := c.priorities ++ [(component.legacyPriority.map Float.toFloat32).getD 0]
    phases := c.phases ++ [(component.legacyPhase.map Float.toFloat32).getD 0]
    presence := c.presence ++ [priorityPresent ||| phasePresent] }

/-- An endpoint that no component has is the largest position. -/
def pushEdge (c : IrColumns) (e : CanonicalIrEdge) : IrColumns :=
  { c with
    edgeFrom := c.edgeFrom ++ [(c.idToIndex e.source).getD 0xFFFFFFFF]
    edgeTo := c.edgeTo ++ [(c.idToIndex e.target).getD 0xFFFFFFFF] }

def unsorted (c : IrColumns) : IrColumns :=
  { c with
    laneIds := List.replicate c.ids.length 0
    laneOffsets := 0 :: List.replicate laneCount (toU32 c.ids.length) }

def fromCanonical (d : CanonicalIrDocument) : IrColumns :=
  let modules := d.modules.foldl pushModule empty
  let components := d.components.foldl pushComponent modules
  (d.edges.foldl pushEdge components).unsorted

/-! ### Reading the document back -/

def componentAt (c : IrColumns) (idx : UInt32) : Option CanonicalIrComponent := do
  let slot := idx.toNat
  let id ← c.ids[slot]?
  let presence ← c.presence[slot]?
  let legacyPriority :=
    if presence &&& PresenceBits.priority ≠ 0 then (c.priorities[slot]?).map Float32.toFloat
    else none
  let legacyPhase :=
    if presence &&& PresenceBits.phase ≠ 0 then (c.phases[slot]?).map Float32.toFloat else none
  return {
    id
    symbol := c.strings.resolve (← c.symbols[slot]?)
    modulePath := c.strings.resolve (← c.modulePaths[slot]?)
    exportKind := ExportKindBits.unpack (← c.exportKinds[slot]?)
    lineNumber := (← c.lineNumbers[slot]?).toNat
    estimatedSizeBytes := (← c.estimatedSizes[slot]?).toUInt64
    effects := EffectBits.unpack (← c.effects[slot]?)
    sourceHash := ← c.sourceHashes[slot]?
    legacyPriority
    legacyPhase }

def components (c : IrColumns) : List CanonicalIrComponent :=
  (List.range c.ids.length).filterMap fun slot => c.componentAt (toU32 slot)

def moduleOf (c : IrColumns) (m : IrModuleColumn) : CanonicalIrModule where
  modulePath := c.strings.resolve m.modulePath
  sourceHash := m.sourceHash
  imports := m.imports.map c.strings.resolve

def endpoint (c : IrColumns) (idx : UInt32) : UInt64 := c.ids.getD idx.toNat 0

def edges (c : IrColumns) : List CanonicalIrEdge :=
  (c.edgeFrom.zip c.edgeTo).map fun e => ⟨c.endpoint e.1, c.endpoint e.2⟩

def toCanonical (c : IrColumns) (now : String) : CanonicalIrDocument :=
  newCanonicalDocument now (c.modules.map c.moduleOf) c.components c.edges

/-! ### Sorting by lane -/

def assignments (c : IrColumns) (laneFor : UInt64 → ℕ) : List ℕ :=
  c.ids.map fun id => min (laneFor id) (laneCount - 1)

def counts (assignments : List ℕ) : ℕ → UInt32 :=
  assignments.foldl (fun counts lane => Function.update counts lane (saturatingAdd (counts lane) 1))
    fun _ => 0

def running (counts : ℕ → UInt32) : ℕ → UInt32
  | 0 => 0
  | lane + 1 => saturatingAdd (running counts lane) (counts lane)

def offsets (assignments : List ℕ) : List UInt32 :=
  (List.range laneCount).map (running (counts assignments)) ++ [toU32 assignments.length]

/-- The new position of each component. The cursor of a lane is where its next one goes. -/
def newIdxOfOld : List ℕ → (ℕ → UInt32) → List UInt32
  | [], _ => []
  | lane :: lanes, cursor =>
      cursor lane ::
        newIdxOfOld lanes (Function.update cursor lane (saturatingAdd (cursor lane) 1))

def oldIdxAtNew (newIdx : List UInt32) : List UInt32 :=
  Buckets.scatter toU32 0 (newIdx.map UInt32.toNat) (List.replicate newIdx.length 0)

def permute {α : Type} [Inhabited α] (src : List α) (oldIdx : List UInt32) : List α :=
  oldIdx.map fun old => src.getD old.toNat default

/-- Where an endpoint is now. An endpoint that no component has stays as it is. -/
def remap (newIdx : List UInt32) (slot : UInt32) : UInt32 := newIdx.getD slot.toNat slot

def indexIds (ids : List UInt64) : UInt64 → Option UInt32 :=
  ids.zipIdx.foldl (fun index entry => Function.update index entry.1 (some (toU32 entry.2)))
    fun _ => none

def sortByLane (c : IrColumns) (laneFor : UInt64 → ℕ) : IrColumns :=
  if c.ids.length = 0 then
    { c with laneIds := [], laneOffsets := List.replicate (laneCount + 1) 0 }
  else
    let assignments := c.assignments laneFor
    let newIdx := newIdxOfOld assignments (running (counts assignments))
    let oldIdx := oldIdxAtNew newIdx
    { c with
      ids := permute c.ids oldIdx
      sourceHashes := permute c.sourceHashes oldIdx
      estimatedSizes := permute c.estimatedSizes oldIdx
      lineNumbers := permute c.lineNumbers oldIdx
      effects := permute c.effects oldIdx
      exportKinds := permute c.exportKinds oldIdx
      priorities := permute c.priorities oldIdx
      phases := permute c.phases oldIdx
      presence := permute c.presence oldIdx
      symbols := permute c.symbols oldIdx
      modulePaths := permute c.modulePaths oldIdx
      laneIds := permute (assignments.map UInt8.ofNat) oldIdx
      edgeFrom := c.edgeFrom.map (remap newIdx)
      edgeTo := c.edgeTo.map (remap newIdx)
      idToIndex := indexIds (permute c.ids oldIdx)
      laneOffsets := offsets assignments }

def laneRange (c : IrColumns) (lane : ℕ) : Option (ℕ × ℕ) :=
  if laneCount ≤ lane then none
  else
    let start := (c.laneOffsets.getD lane 0).toNat
    let stop := (c.laneOffsets.getD (lane + 1) 0).toNat
    if stop < start ∨ c.ids.length < stop then none else some (start, stop)

end IrColumns

end Albedo.Ir
