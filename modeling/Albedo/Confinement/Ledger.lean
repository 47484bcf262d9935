import Albedo.Library.KeyedList
import Mathlib.Data.UInt
import Mathlib.Logic.Function.Basic

/-!
# The module ledger

One engine's realm, the modules registered in it and the ledger they are
replayed from. A registration script asks the module table for what it imports
as soon as it is evaluated, and binds its own name only when it has run to its
end; a script that throws leaves the table as it was.
-/
namespace Albedo.Confinement
open KeyedList

inductive Origin where
  | project
  | thirdParty
  deriving DecidableEq

def Origin.isThirdParty : Origin → Bool
  | .project => false
  | .thirdParty => true

/-- A registration script and the name it binds in the module table. -/
structure Script where
  specifier : String
  text : String

/-- A module as it was evaluated: its script, linked with the modules that stood
under its imports at that moment. -/
inductive Instance where
  | mk (script : Script) (imports : List Instance)

def Instance.script : Instance → Script
  | .mk script _ => script

abbrev Realm := String → Option Instance

/-- The compiler and the engine the ledger works with, and what a fresh realm
holds before the first module is registered. `runs` says of a script, evaluated
as a strict module or as a source, whether it ends on the imports it is given. -/
structure World where
  stableSourceHash : String → UInt64
  compileModuleScript : String → String → Option String → Option String
  imports : Script → List String
  runs : Bool → Script → List Instance → Bool
  compiles : Script → Bool
  bytecodeSize : Script → ℕ
  boot : Realm
  bootHashes : String → Option UInt64

def World.evaluate (w : World) (strict : Bool) (realm : Realm) (script : Script) : Option Realm :=
  ((w.imports script).mapM realm).bind fun seen =>
    if w.runs strict script seen then
      some (Function.update realm script.specifier (some (.mk script seen)))
    else
      none

/-! ### The ledger -/

structure LedgerEntry where
  script : String
  hash : UInt64
  origin : Origin
  scriptHash : UInt64
  deriving DecidableEq

structure ModuleLedger where
  entries : List (String × LedgerEntry)
  thirdPartyRegistered : Bool

def ModuleLedger.new : ModuleLedger := ⟨[], false⟩

/-- Record a registration: over the entry of that specifier where it stands, or
at the end. -/
def ModuleLedger.record (w : World) (ledger : ModuleLedger) (specifier script : String)
    (hash : UInt64) (origin : Origin) : ModuleLedger where
  entries := put specifier ⟨script, hash, origin, w.stableSourceHash script⟩ ledger.entries
  thirdPartyRegistered := ledger.thirdPartyRegistered || origin.isThirdParty

def ModuleLedger.holdsThirdParty (ledger : ModuleLedger) : Bool := ledger.thirdPartyRegistered

def ModuleLedger.hashTable (ledger : ModuleLedger) (specifier : String) : Option UInt64 :=
  (ledger.entries.lookup specifier).map LedgerEntry.hash

def ModuleLedger.clear (_ : ModuleLedger) : ModuleLedger := ModuleLedger.new

/-! ### The bytecode store and the replay -/

def bytecodeStoreCapBytes : ℕ := 64 * 1024 * 1024

/-- The bytecode of the process, under the content hashes of the scripts it was
written from, and the hashes of the scripts that do not compile. -/
structure BytecodeStore (w : World) where
  compiled : UInt64 → Option Script
  refused : UInt64 → Prop
  [refusedDecidable : DecidablePred refused]
  resident : ℕ
  compiles_of_compiled : ∀ {hash script}, compiled hash = some script → w.compiles script = true

attribute [instance] BytecodeStore.refusedDecidable

variable {w : World}

def BytecodeStore.empty (w : World) : BytecodeStore w where
  compiled := fun _ => none
  refused := fun _ => False
  resident := 0
  compiles_of_compiled := by simp

def BytecodeStore.insert (store : BytecodeStore w) (hash : UInt64) (script : Script)
    (compiles : w.compiles script = true) : BytecodeStore w where
  compiled :=
    Function.update
      (if store.resident + w.bytecodeSize script > bytecodeStoreCapBytes then fun _ => none
        else store.compiled)
      hash (some script)
  refused := store.refused
  resident :=
    (if store.resident + w.bytecodeSize script > bytecodeStoreCapBytes then 0 else store.resident)
      + w.bytecodeSize script
  compiles_of_compiled := by
    intro key held hheld
    by_cases hkey : key = hash
    · subst hkey
      have hsame : script = held := by simpa using hheld
      exact hsame ▸ compiles
    · rw [Function.update_of_ne hkey] at hheld
      split_ifs at hheld with hfull
      exact store.compiles_of_compiled hheld

def BytecodeStore.refuse (store : BytecodeStore w) (hash : UInt64) : BytecodeStore w where
  compiled := store.compiled
  refused := fun key => key = hash ∨ store.refused key
  resident := store.resident
  compiles_of_compiled := store.compiles_of_compiled

def scriptOf (entry : String × LedgerEntry) : Script := ⟨entry.1, entry.2.script⟩

def eligibleForBytecode (entry : LedgerEntry) : Bool := entry.origin.isThirdParty

/-- Evaluate one registration into a realm, from bytecode where that is allowed. -/
def replayEntry (enabled : Bool) (store : BytecodeStore w) (realm : Realm)
    (entry : String × LedgerEntry) : Option (BytecodeStore w × Realm) :=
  if !enabled || !eligibleForBytecode entry.2 || decide (store.refused entry.2.scriptHash) then
    (w.evaluate false realm (scriptOf entry)).map (store, ·)
  else
    match store.compiled entry.2.scriptHash with
    | some held => (w.evaluate true realm held).map (store, ·)
    | none =>
      if compiles : w.compiles (scriptOf entry) = true then
        (w.evaluate true realm (scriptOf entry)).map
          (store.insert entry.2.scriptHash (scriptOf entry) compiles, ·)
      else
        (w.evaluate false realm (scriptOf entry)).map (store.refuse entry.2.scriptHash, ·)

def replayLedger (enabled : Bool) (store : BytecodeStore w) (realm : Realm)
    (entries : List (String × LedgerEntry)) : Option (BytecodeStore w × Realm) :=
  entries.foldlM (fun at' entry => replayEntry enabled at'.1 at'.2 entry) (store, realm)

/-! ### The engine -/

structure Engine where
  realm : Realm
  loadedModuleHashes : String → Option UInt64
  ledger : ModuleLedger

def Engine.fresh (w : World) : Engine := ⟨w.boot, w.bootHashes, ModuleLedger.new⟩

def maxModuleSize : ℕ := 10 * 1024 * 1024

def World.codeHash (w : World) (code : String) (stamp : Option String) : UInt64 :=
  match stamp with
  | none => w.stableSourceHash code
  | some spec =>
    let hash := w.stableSourceHash spec
    w.stableSourceHash code ^^^ ((hash <<< 1) ||| (hash >>> 63))

def Engine.register (w : World) (engine : Engine) (script : Script) (hash : UInt64)
    (origin : Origin) : Option Engine :=
  (w.evaluate false engine.realm script).map fun realm =>
    { realm := realm
      loadedModuleHashes :=
        Function.update engine.loadedModuleHashes script.specifier (some hash)
      ledger := engine.ledger.record w script.specifier script.text hash origin }

def Engine.loadModuleWithSpec (w : World) (engine : Engine) (specifier code : String)
    (stamp : Option String) : Option Engine :=
  if code.utf8ByteSize > maxModuleSize then
    none
  else if engine.loadedModuleHashes specifier = some (w.codeHash code stamp) then
    some engine
  else
    (w.compileModuleScript specifier code stamp).bind fun text =>
      engine.register w ⟨specifier, text⟩ (w.codeHash code stamp) .project

def Engine.loadPrecompiledModule (w : World) (engine : Engine) (specifier compiledScript : String)
    (sourceHash : UInt64) : Option Engine :=
  if engine.loadedModuleHashes specifier = some sourceHash then
    some engine
  else
    engine.register w ⟨specifier, compiledScript⟩ sourceHash .thirdParty

/-- Discard the realm and rebuild it from the ledger. The table of hashes is kept
through it, and an engine whose replay failed is rolled back. -/
def Engine.confine (enabled : Bool) (store : BytecodeStore w) (engine : Engine) : Option Engine :=
  (replayLedger enabled store w.boot engine.ledger.entries).map fun rebuilt =>
    { engine with realm := rebuilt.2 }

inductive Op where
  | load (specifier code : String) (stamp : Option String)
  | loadPrecompiled (specifier compiledScript : String) (sourceHash : UInt64)
  | clear

/-- One call on the engine; `none` is the error it returns. The ledger is cleared
when the realm is rebuilt for another project. -/
def Engine.call (w : World) (engine : Engine) : Op → Option Engine
  | .load specifier code stamp => engine.loadModuleWithSpec w specifier code stamp
  | .loadPrecompiled specifier compiledScript sourceHash =>
    engine.loadPrecompiledModule w specifier compiledScript sourceHash
  | .clear => some { Engine.fresh w with ledger := engine.ledger.clear }

def Engine.step (w : World) (engine : Engine) (op : Op) : Engine :=
  (engine.call w op).getD engine

def Engine.run (w : World) (engine : Engine) (history : List Op) : Engine :=
  history.foldl (Engine.step w) engine

end Albedo.Confinement
