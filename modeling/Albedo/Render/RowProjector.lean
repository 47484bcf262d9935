import Albedo.Render.Rows
import Albedo.Runtime.Topics

/-!
# The row projector

A write broadcasts the rows of one render to every subscriber of its channel. The
projector rebuilds the environment of that render from the collection's bytes and
the partition's key alone: no stamps, no other topics, no viewer but the key.
-/
namespace Albedo.Render
open Aperture Broadcast Forge Json KeyedList Topics

/-! ### Plans and engines -/

structure TierBEntryPlan where
  component : Component
  entry : String
  modules : List (String × String)
  sharedTopicClasses : List (String × RowProjection)
  stampSpecs : List (String × String)

abbrev TierBRenderPlan := List (String × TierBEntryPlan)

/-- A module as it is loaded: with the spec its anchors are keyed to, or with none. -/
structure LoadedModule where
  specifier : String
  code : String
  stamp : Option String

def TierBEntryPlan.unstamped (plan : TierBEntryPlan) : List LoadedModule :=
  plan.modules.map fun m => ⟨m.1, m.2, none⟩

def TierBEntryPlan.stamped (plan : TierBEntryPlan) : List LoadedModule :=
  plan.modules.map fun m => ⟨m.1, m.2, plan.stampSpecs.lookup m.1⟩

/-- The engines of the pool, and the reader of a topic's bytes. A render answers
nothing where it throws. -/
structure Pool where
  fromSlice : List Char → Option Value
  fromSlice_nil : fromSlice [] = none
  renderComponentWithHost : List LoadedModule → String → Value → Value → Option Html

def collect {α : Type} (entries : List (String × α)) : List (String × α) :=
  entries.foldl (fun held e => put e.1 e.2 held) []

/-! ### The projected render -/

structure PooledRowProjector where
  plan : TierBRenderPlan
  formErrorSpans : List (String × Value)
  projectReaders : Option (String → ℕ)

def TierBEntryPlan.readsCollection (plan : TierBEntryPlan) (collection : String) : Bool :=
  plan.component.topics.contains collection ||
    plan.component.partitions.any fun spec => spec.collection = collection

def soleIn (collection : String) :
    Option (String × TierBEntryPlan) → TierBRenderPlan → Option (String × TierBEntryPlan)
  | found, [] => found
  | found, entry :: plan =>
    if entry.2.readsCollection collection then
      if found.isSome then none else soleIn collection (some entry) plan
    else
      soleIn collection found plan

def PooledRowProjector.soleReader (projector : PooledRowProjector) (collection : String) :
    Option (String × TierBEntryPlan) :=
  if (projector.projectReaders.elim 0 fun readers => readers collection) > 1 then none
  else soleIn collection none projector.plan

def TierBEntryPlan.partitionsOf (plan : TierBEntryPlan) (collection : String) :
    List PartitionTopicSpec :=
  plan.component.partitions.filter fun spec => spec.collection = collection

def keyedParams (key : String) (specs : List PartitionTopicSpec) : List (String × Value) :=
  collect (specs.filterMap fun spec =>
    match spec.key with
    | .routeParam name => some (name, .string key)
    | .identity => none)

def keyedUser (key : String) (specs : List PartitionTopicSpec) : Value :=
  if specs.any fun spec => spec.key = .identity then .object [("id", .string key)] else .null

def PooledRowProjector.propsFor (projector : PooledRowProjector) (collection : String) :
    Option String → Value
  | none => .object []
  | some key =>
    let specs := (projector.soleReader collection).elim [] fun found =>
      found.2.partitionsOf collection
    .object [("params", .object (keyedParams key specs)), ("user", keyedUser key specs)]

def spansSeed (formErrorSpans : List (String × Value)) : List (String × Value) :=
  if formErrorSpans.isEmpty then [] else [("formErrorSpans", .object formErrorSpans)]

def PooledRowProjector.hostSeed (projector : PooledRowProjector) (pool : Pool)
    (collection : String) (value : List Char) : Option Value := do
  let parsed ← pool.fromSlice value
  let topics := collect ((projector.soleReader collection).elim [] fun found =>
    (found.2.partitionsOf collection).map fun spec => (spec.binding, Value.string collection))
  return .object ([("shared", .object [(collection, parsed)])] ++
    (if topics.isEmpty then [] else [("topics", .object topics)]) ++
    spansSeed projector.formErrorSpans)

def PooledRowProjector.projectionClass (projector : PooledRowProjector) (collection : String) :
    RowProjection :=
  match projector.soleReader collection with
  | some found => (found.2.sharedTopicClasses.lookup collection).getD .wholeView
  | none => .wholeView

def PooledRowProjector.projectRows (projector : PooledRowProjector) (pool : Pool)
    (collection : String) (partition : Option String) (value : List Char) :
    Option RenderedRows := do
  let (_, plan) ← projector.soleReader collection
  let host ← projector.hostSeed pool collection value
  let html ← pool.renderComponentWithHost plan.unstamped plan.entry
    (projector.propsFor collection partition) host
  extractKeyedRows html collection

def PooledRowProjector.toRowProjector (projector : PooledRowProjector) (pool : Pool) :
    RowProjector where
  projectRows := projector.projectRows pool
  projectionClass := projector.projectionClass

/-! ### The render of a request -/

def sharedSlotHostSeed (pool : Pool) (topics : List String)
    (broadcast : String → Option (List Char)) : List (String × Value) :=
  collect (topics.filterMap fun topic => (broadcast topic).map fun bytes =>
    (topic, if bytes.isEmpty then .null else (pool.fromSlice bytes).getD .null))

def hostSeedFor (pool : Pool) (plan : TierBEntryPlan) (partitions : List ResolvedPartition)
    (sources : List ResolvedSourceTopic) (broadcast : String → Option (List Char))
    (formErrorSpans : List (String × Value)) : Value :=
  let shared := sharedSlotHostSeed pool (plan.component.topics ++
    partitions.map ResolvedPartition.topic ++ sources.map ResolvedSourceTopic.topic) broadcast
  let topics := collect (partitions.map (fun p => (p.binding, Value.string p.topic)) ++
    sources.map (fun s => (s.binding, Value.string s.topic)))
  .object ((if shared.isEmpty then [] else [("shared", .object shared)]) ++
    (if partitions.isEmpty && sources.isEmpty then [] else [("topics", .object topics)]) ++
    spansSeed formErrorSpans)

structure PageRequest where
  ctx : RequestContext
  registry : Option SourceRegistry
  broadcast : String → Option (List Char)

def PageRequest.call (request : PageRequest) (pool : Pool) (formErrorSpans : List (String × Value))
    (plan : TierBEntryPlan) : Option Html :=
  match plan.component.props request.ctx with
  | .error _ => none
  | .ok props =>
    pool.renderComponentWithHost plan.stamped plan.entry props
      (hostSeedFor pool plan (resolvePartitionsForProps plan.component props)
        (resolveSourcesForProps request.registry plan.component props) request.broadcast
        formErrorSpans)

end Albedo.Render
