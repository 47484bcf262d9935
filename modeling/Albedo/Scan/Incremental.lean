import Albedo.Scan.Graph
import Mathlib.Data.Finset.Basic

/-!
# The incremental build

A build takes the analyses of unchanged components from a cache and makes the others anew. The
cache knows a file by the hash it had and a component by its id, which is its place in the graph.
-/
namespace Albedo.Scan

/-- A path as it is compared: by its root, a leading `.`, and its parts. -/
structure PathBuf where
  rooted : Bool
  current : Bool
  parts : List (List Char)
  deriving DecidableEq

def pathBuf (text : PathText) : PathBuf :=
  ⟨text.head? = some '/', (text.splitOnP (· = '/')).head? = some ['.'], pathComponents text⟩

abbrev FileHash := ℕ

structure CachedAnalysis (A R : Type*) where
  component : Component A
  analysis : R

structure PersistentCache (A R : Type*) where
  fileHashes : PathBuf → Option FileHash
  componentCache : ComponentId → Option (CachedAnalysis A R)
  fileToComponents : PathBuf → Option (Finset ComponentId)
  dependencyGraph : ComponentId → Option (Finset ComponentId)

structure IncrementalCache (A R : Type*) extends PersistentCache A R where
  invalidated : Finset ComponentId
  loaded : Bool

structure ChangeSet where
  changedFiles : List PathBuf
  newFiles : List PathBuf
  deletedFiles : List PathBuf

namespace IncrementalCache

variable {A R : Type*}

def new : IncrementalCache A R :=
  ⟨⟨fun _ => none, fun _ => none, fun _ => none, fun _ => none⟩, ∅, false⟩

def load (cache : IncrementalCache A R) : Option (PersistentCache A R) → IncrementalCache A R
  | none => cache
  | some saved => { cache with
      fileHashes := fun path => (saved.fileHashes path).or (cache.fileHashes path)
      componentCache := fun id => (saved.componentCache id).or (cache.componentCache id)
      fileToComponents := fun path =>
        (saved.fileToComponents path).or (cache.fileToComponents path)
      dependencyGraph := fun id => (saved.dependencyGraph id).or (cache.dependencyGraph id)
      loaded := true }

def ensureLoaded (cache : IncrementalCache A R) (saved : Option (PersistentCache A R)) :
    IncrementalCache A R :=
  if cache.loaded then cache else cache.load saved

structure TableOrder (cache : IncrementalCache A R) where
  tracked : List PathBuf
  mem_tracked : ∀ path, path ∈ tracked ↔ (cache.fileHashes path).isSome
  recorded : List ComponentId
  mem_recorded : ∀ id, id ∈ recorded ↔ (cache.dependencyGraph id).isSome
  dependents : ComponentId → List ComponentId
  mem_dependents : ∀ id dependent, dependent ∈ dependents id ↔
    ∃ dependencies, cache.dependencyGraph dependent = some dependencies ∧ id ∈ dependencies
  elements : Finset ComponentId → List ComponentId
  mem_elements : ∀ ids id, id ∈ elements ids ↔ id ∈ ids

/-- `detect_changes`, once the tables are loaded. -/
def detectChanges (cache : IncrementalCache A R) (tracked : List PathBuf)
    (hashFile : PathBuf → Option FileHash) (currentFiles : List PathBuf) : ChangeSet where
  changedFiles := currentFiles.filter fun path =>
    match hashFile path, cache.fileHashes path with
    | some currentHash, some cachedHash => cachedHash ≠ currentHash
    | _, _ => false
  newFiles := currentFiles.filter fun path =>
    (hashFile path).isSome ∧ (cache.fileHashes path).isNone
  deletedFiles := tracked.filter (· ∉ currentFiles)

/-- The entry is marked and its analysis dropped. -/
def drop (cache : IncrementalCache A R) (id : ComponentId) : IncrementalCache A R :=
  { cache with
    invalidated := insert id cache.invalidated
    componentCache := Function.update cache.componentCache id none }

/-- `invalidate_component`, or `none` where the fuel runs out. -/
def invalidateComponent (dependents : ComponentId → List ComponentId) :
    ℕ → ComponentId → IncrementalCache A R → Option (IncrementalCache A R)
  | 0, _, _ => none
  | fuel + 1, id, cache =>
      (dependents id).foldlM (fun cache dependent =>
        if dependent ∈ cache.invalidated then some cache
        else invalidateComponent dependents fuel dependent cache) (cache.drop id)

/-- `file_hashes.remove` and `file_to_components.remove`. -/
def forgetFile (cache : IncrementalCache A R) (path : PathBuf) : IncrementalCache A R :=
  { cache with
    fileHashes := Function.update cache.fileHashes path none
    fileToComponents := Function.update cache.fileToComponents path none }

section Invalidate

variable (dependents : ComponentId → List ComponentId) (fuel : ℕ)
  (elements : Finset ComponentId → List ComponentId)

def invalidateAll (ids : List ComponentId) (cache : IncrementalCache A R) :
    Option (IncrementalCache A R) :=
  ids.foldlM (fun cache id => invalidateComponent dependents fuel id cache) cache

def invalidateFile (cache : IncrementalCache A R) (path : PathBuf) : Option (IncrementalCache A R) :=
  invalidateAll dependents fuel (elements ((cache.fileToComponents path).getD ∅)) cache

def invalidateChangedFiles (changes : ChangeSet) (cache : IncrementalCache A R) :
    Option (IncrementalCache A R) := do
  let cache ← changes.changedFiles.foldlM (invalidateFile dependents fuel elements) cache
  changes.deletedFiles.foldlM (fun cache path => do
    let cache ← invalidateFile dependents fuel elements cache path
    some (cache.forgetFile path)) cache

end Invalidate

def getCachedAnalysis (cache : IncrementalCache A R) (id : ComponentId) :
    Option (CachedAnalysis A R) :=
  if id ∈ cache.invalidated then none else cache.componentCache id

/-- `cache_analysis(..)` with its failure passed over. -/
def cacheAnalysis (cache : IncrementalCache A R) (hashFile : PathBuf → Option FileHash)
    (id : ComponentId) (component : Component A) (analysis : R) : IncrementalCache A R :=
  let path := pathBuf component.filePath
  match hashFile path with
  | none => cache
  | some fileHash => { cache with
      componentCache := Function.update cache.componentCache id (some ⟨component, analysis⟩)
      fileToComponents := Function.update cache.fileToComponents path
        (some (insert id ((cache.fileToComponents path).getD ∅)))
      fileHashes := Function.update cache.fileHashes path (some fileHash) }

def updateDependencies (cache : IncrementalCache A R) (id : ComponentId)
    (dependencies : Finset ComponentId) : IncrementalCache A R :=
  { cache with
    dependencyGraph := Function.update cache.dependencyGraph id (some dependencies) }

def clearInvalidated (cache : IncrementalCache A R) : IncrementalCache A R :=
  { cache with invalidated := ∅ }

end IncrementalCache

/-- What one build sees: the parsed components, the files listed, and what each hashes to. -/
structure Build (A : Type*) where
  components : List (ParsedComponent A)
  filePaths : List PathBuf
  hashFile : PathBuf → Option FileHash

namespace Build

variable {A R : Type*}

def graph (b : Build A) : ComponentGraph A := buildCompiler b.components

abbrev Analyses (R : Type*) := ComponentId → Option R

def runAnalysis (analyze : Component A → R) (b : Build A) : Analyses R :=
  fun id => (b.graph.components[id]?).map analyze

def optimize (analyze : Component A → R) (b : Build A) (order : HashOrder b.graph) :
    Option (Except CompilerError (Analyses R)) :=
  (b.graph.validate order).map fun validated => validated.map fun _ => b.runAnalysis analyze

def isIn (b : Build A) (path : PathBuf) (id : ComponentId) : Bool :=
  match b.graph.components[id]? with
  | some component => pathBuf component.filePath = path
  | none => false

def invalidateNewFiles (b : Build A) (ids : List ComponentId)
    (dependents : ComponentId → List ComponentId) (fuel : ℕ) (newFiles : List PathBuf)
    (cache : IncrementalCache A R) : Option (IncrementalCache A R) :=
  newFiles.foldlM (fun cache newFile =>
    IncrementalCache.invalidateAll dependents fuel (ids.filter (b.isIn newFile)) cache) cache

def cachedAnalyses (ids : List ComponentId) (cache : IncrementalCache A R) : Analyses R :=
  ids.foldl (fun analyses id =>
    match cache.getCachedAnalysis id with
    | some cached => Function.update analyses id (some cached.analysis)
    | none => analyses) fun _ => none

def reanalyze (analyze : Component A → R) (b : Build A)
    (state : Analyses R × IncrementalCache A R) (id : ComponentId) :
    Analyses R × IncrementalCache A R :=
  match b.graph.components[id]? with
  | none => state
  | some component =>
      (Function.update state.1 id (some (analyze component)),
        state.2.cacheAnalysis b.hashFile id component (analyze component))

def recordDependencies (b : Build A) (ids : List ComponentId) (cache : IncrementalCache A R) :
    IncrementalCache A R :=
  ids.foldl (fun cache id =>
    match b.graph.components[id]? with
    | some component => cache.updateDependencies id component.dependencies
    | none => cache) cache

def inNewFile (b : Build A) (newFiles : List PathBuf) (id : ComponentId) : Bool :=
  newFiles.any fun path => b.isIn path id

/-- `optimize_incremental`, once the tables are loaded and the graph is accepted. -/
def rebuild (analyze : Component A → R) (b : Build A) (cache : IncrementalCache A R)
    (order : cache.TableOrder) (ids : List ComponentId) :
    Option (Analyses R × IncrementalCache A R) := do
  let changes := cache.detectChanges order.tracked b.hashFile b.filePaths
  let fuel := order.recorded.length + 1
  let cache ← cache.invalidateChangedFiles order.dependents fuel order.elements changes
  let cache ← b.invalidateNewFiles ids order.dependents fuel changes.newFiles cache
  let invalidated := order.elements cache.invalidated
  let analyses := cachedAnalyses ids cache
  let (analyses, cache) :=
    if ¬ invalidated.isEmpty ∨ ¬ changes.newFiles.isEmpty then
      let state := invalidated.foldl (b.reanalyze analyze) (analyses, cache)
      (ids.filter (b.inNewFile changes.newFiles)).foldl (b.reanalyze analyze) state
    else (analyses, cache)
  some (analyses, (b.recordDependencies ids cache).clearInvalidated)

def optimizeIncremental (analyze : Component A → R) (b : Build A) (order : HashOrder b.graph)
    (cache : IncrementalCache A R) (tables : cache.TableOrder) :
    Option (Except CompilerError (Analyses R × IncrementalCache A R)) :=
  match b.graph.validate order with
  | none => none
  | some (.error error) => some (.error error)
  | some (.ok ()) => (b.rebuild analyze cache tables order.ids).map .ok

end Build

end Albedo.Scan
