import Albedo.Runtime.HotSet

/-!
# The render scheduler

Hot components are marked dirty in the ring, results of the analyzer wait in a queue, and a frame
moves both to the queue that is ready to render. Any number of frames run at once, each one step
at a time, with everything else between the steps. That who changes the hot set has the scheduler
to itself is not needed here.

Each mark that takes effect and each result that is accepted gets a number, which travels with it.
No step looks at a number, nor at where the numbers went.
-/
namespace Albedo.Scheduler
open KeyedList

structure SchedulerConfig where
  overtakeInterval : ℕ
  overtakeInterval_lt : overtakeInterval < 2 ^ 64
  analyzerQueueCapacity : ℕ
  renderQueueCapacity : ℕ
  initialAnalyzerChunkLimit : ℕ
  maxAnalyzerChunkLimit : ℕ

def SchedulerConfig.normalized (config : SchedulerConfig) : SchedulerConfig :=
  let interval := max config.overtakeInterval 1
  let initial := max config.initialAnalyzerChunkLimit interval
  { overtakeInterval := interval
    overtakeInterval_lt := max_lt config.overtakeInterval_lt (by decide)
    analyzerQueueCapacity := max config.analyzerQueueCapacity 1
    renderQueueCapacity := max config.renderQueueCapacity 1
    initialAnalyzerChunkLimit := initial
    maxAnalyzerChunkLimit := max config.maxAnalyzerChunkLimit initial }

/-- A component that waits, and the number of the mark or the result it waits for. -/
structure Entry where
  component : ComponentId
  number : ℕ
  deriving DecidableEq

structure SchedulerFrameStats where
  hotSetRendered : ℕ
  hotSetDropped : ℕ
  analyzerProcessed : ℕ
  analyzerForwarded : ℕ
  analyzerDiscardedHotSet : ℕ
  analyzerDropped : ℕ
  overtakes : ℕ
  analyzerChunkLimit : ℕ

def SchedulerFrameStats.new (limit : ℕ) : SchedulerFrameStats := ⟨0, 0, 0, 0, 0, 0, 0, limit⟩

inductive Stage where
  | started
  | draining (hand : List Entry)
  | analyzing (sinceZone : ℕ)
  | holding (entry : Entry) (sinceZone : ℕ)
  | adjusting
  | storing (next : ℕ)
  | ended

structure Frame where
  stats : SchedulerFrameStats
  stage : Stage

inductive Fate where
  | pushed
  | dropped
  | discarded
  deriving DecidableEq

/-- What a frame did with an entry, and whether the entry came from the hot set. -/
structure Outcome where
  frame : ℕ
  hot : Bool
  fate : Fate
  entry : Entry

structure OvertakeZoneScheduler where
  config : SchedulerConfig
  registry : HotSetRegistry
  ring : SentinelRing
  analyzerQueue : List Entry
  renderQueue : List Entry
  analyzerChunkLimit : ℕ
  frames : List Frame
  /-- The number of the last mark of each component. -/
  numbers : ComponentId → ℕ
  /-- The next number. -/
  next : ℕ
  popped : List Entry
  /-- What the frames did, in the order they did it. -/
  outcomes : List Outcome
  /-- Marks of components that left the hot set. -/
  left : List Entry
  /-- Marks of components that stayed. -/
  lost : List Entry

inductive Action where
  | markHotDirty (id : ComponentId)
  | submitAnalyzerResult (id : ComponentId)
  | popRenderReady
  | startFrame
  /-- The next step of a frame. The clock is only read where an overtake can happen. -/
  | advance (frame : ℕ) (late : Bool)
  | registerHotComponent (id : ComponentId) (priority : RenderPriority)
  | deregisterHotComponent (id : ComponentId)
  | configureHotSet (entries : List (ComponentId × RenderPriority))

/-- These take the scheduler as `&mut self`. -/
def Action.changesHotSet : Action → Bool
  | .registerHotComponent .. | .deregisterHotComponent _ | .configureHotSet _ => true
  | _ => false

namespace OvertakeZoneScheduler

def new (config : SchedulerConfig) : OvertakeZoneScheduler where
  config := config.normalized
  registry := .empty
  ring := .fromRegistry .empty
  analyzerQueue := []
  renderQueue := []
  analyzerChunkLimit := config.normalized.initialAnalyzerChunkLimit
  frames := []
  numbers := fun _ => 0
  next := 0
  popped := []
  outcomes := []
  left := []
  lost := []

def withHotSet (config : SchedulerConfig) (entries : List (ComponentId × RenderPriority)) :
    Except HotSetError OvertakeZoneScheduler :=
  match HotSetRegistry.empty.registerAll entries with
  | .ok registry => .ok { new config with registry, ring := .fromRegistry registry }
  | .error e => .error e

/-- The marks that have not been drained yet. -/
def pending (s : OvertakeZoneScheduler) : List Entry :=
  s.ring.dirtyIds.map fun id => ⟨id, s.numbers id⟩

/-- The ring is built anew, and the marks in the old one are gone. -/
def rebuilt (s : OvertakeZoneScheduler) (registry : HotSetRegistry) : OvertakeZoneScheduler :=
  { s with
    registry
    ring := .fromRegistry registry
    left := s.left ++ s.pending.filter fun e => !registry.contains e.component
    lost := s.lost ++ s.pending.filter fun e => registry.contains e.component }

def registerHotComponent (s : OvertakeZoneScheduler) (id : ComponentId)
    (priority : RenderPriority) : OvertakeZoneScheduler :=
  match s.registry.register id priority with
  | .ok (_, registry) => s.rebuilt registry
  | .error _ => s

def deregisterHotComponent (s : OvertakeZoneScheduler) (id : ComponentId) :
    OvertakeZoneScheduler :=
  let removed := s.registry.deregister id
  if removed.1 then s.rebuilt removed.2 else s

def configureHotSet (s : OvertakeZoneScheduler) (entries : List (ComponentId × RenderPriority)) :
    OvertakeZoneScheduler :=
  match HotSetRegistry.empty.registerAll entries with
  | .ok registry => s.rebuilt registry
  | .error _ => s

def markHotDirty (s : OvertakeZoneScheduler) (id : ComponentId) : Bool × OvertakeZoneScheduler :=
  if s.registry.contains id then
    let marked := s.ring.markDirty id
    if marked.1 then
      (true, { s with
        ring := marked.2, numbers := Function.update s.numbers id s.next, next := s.next + 1 })
    else (false, { s with ring := marked.2 })
  else (false, s)

def submitAnalyzerResult (s : OvertakeZoneScheduler) (id : ComponentId) :
    Bool × OvertakeZoneScheduler :=
  if s.analyzerQueue.length < s.config.analyzerQueueCapacity then
    (true, { s with analyzerQueue := s.analyzerQueue ++ [⟨id, s.next⟩], next := s.next + 1 })
  else (false, s)

def popRenderReady (s : OvertakeZoneScheduler) : Option ComponentId × OvertakeZoneScheduler :=
  match s.renderQueue with
  | [] => (none, s)
  | entry :: rest =>
      (some entry.component, { s with renderQueue := rest, popped := s.popped ++ [entry] })

def startFrame (s : OvertakeZoneScheduler) : OvertakeZoneScheduler :=
  { s with frames := s.frames ++ [⟨.new s.analyzerChunkLimit, .started⟩] }

def setFrame (s : OvertakeZoneScheduler) (frame : ℕ) (f : Frame) : OvertakeZoneScheduler :=
  { s with frames := s.frames.set frame f }

def record (s : OvertakeZoneScheduler) (outcome : Outcome) : OvertakeZoneScheduler :=
  { s with outcomes := s.outcomes ++ [outcome] }

def push (s : OvertakeZoneScheduler) (frame : ℕ) (hot : Bool) (entry : Entry) :
    Bool × OvertakeZoneScheduler :=
  if s.renderQueue.length < s.config.renderQueueCapacity then
    (true, { s with
      renderQueue := s.renderQueue ++ [entry] }.record ⟨frame, hot, .pushed, entry⟩)
  else (false, s.record ⟨frame, hot, .dropped, entry⟩)

/-- `swap(0)` of the one word. -/
def drain (s : OvertakeZoneScheduler) (frame : ℕ) (f : Frame) : OvertakeZoneScheduler :=
  { s with ring := s.ring.taken }.setFrame frame { f with stage := .draining s.pending }

def pushHot (s : OvertakeZoneScheduler) (frame : ℕ) (f : Frame) (entry : Entry)
    (hand : List Entry) : OvertakeZoneScheduler :=
  let pushed := s.push frame true entry
  let stats :=
    if pushed.1 then { f.stats with hotSetRendered := f.stats.hotSetRendered + 1 }
    else { f.stats with hotSetDropped := f.stats.hotSetDropped + 1 }
  pushed.2.setFrame frame ⟨stats, .draining hand⟩

def takeResult (s : OvertakeZoneScheduler) (frame : ℕ) (f : Frame) (sinceZone : ℕ) :
    OvertakeZoneScheduler :=
  if f.stats.analyzerProcessed < f.stats.analyzerChunkLimit then
    match s.analyzerQueue with
    | [] => s.setFrame frame { f with stage := .adjusting }
    | entry :: rest =>
        { s with analyzerQueue := rest }.setFrame frame
          ⟨{ f.stats with analyzerProcessed := f.stats.analyzerProcessed + 1 },
            .holding entry (sinceZone + 1)⟩
  else s.setFrame frame { f with stage := .adjusting }

def turn (config : SchedulerConfig) (stats : SchedulerFrameStats) (sinceZone : ℕ) (late : Bool) :
    Frame :=
  if sinceZone ≥ config.overtakeInterval then
    if late then ⟨{ stats with overtakes := stats.overtakes + 1 }, .adjusting⟩
    else ⟨stats, .analyzing 0⟩
  else ⟨stats, .analyzing sinceZone⟩

def settleResult (s : OvertakeZoneScheduler) (frame : ℕ) (f : Frame) (entry : Entry)
    (sinceZone : ℕ) (late : Bool) : OvertakeZoneScheduler :=
  if s.registry.contains entry.component then
    let stats :=
      { f.stats with analyzerDiscardedHotSet := f.stats.analyzerDiscardedHotSet + 1 }
    (s.record ⟨frame, false, .discarded, entry⟩).setFrame frame
      (turn s.config stats sinceZone late)
  else
    let pushed := s.push frame false entry
    let stats :=
      if pushed.1 then { f.stats with analyzerForwarded := f.stats.analyzerForwarded + 1 }
      else { f.stats with analyzerDropped := f.stats.analyzerDropped + 1 }
    pushed.2.setFrame frame (turn s.config stats sinceZone late)

/-- The limit `adjust_analyzer_chunk_limit` writes, of the one it reads. -/
def nextLimit (config : SchedulerConfig) (stats : SchedulerFrameStats) (current : ℕ) : ℕ :=
  if stats.overtakes > 0 then max (current - config.overtakeInterval) config.overtakeInterval
  else if stats.analyzerProcessed ≥ current && stats.analyzerDropped = 0 then
    min (Dirty.satAdd current config.overtakeInterval) config.maxAnalyzerChunkLimit
  else current

def adjust (s : OvertakeZoneScheduler) (frame : ℕ) (f : Frame) : OvertakeZoneScheduler :=
  let next := nextLimit s.config f.stats s.analyzerChunkLimit
  s.setFrame frame
    { f with stage := if next ≠ s.analyzerChunkLimit then .storing next else .ended }

def advance (s : OvertakeZoneScheduler) (frame : ℕ) (late : Bool) : OvertakeZoneScheduler :=
  match s.frames[frame]? with
  | none => s
  | some f =>
      match f.stage with
      | .started => s.drain frame f
      | .draining [] => s.setFrame frame { f with stage := .analyzing 0 }
      | .draining (entry :: hand) => s.pushHot frame f entry hand
      | .analyzing sinceZone => s.takeResult frame f sinceZone
      | .holding entry sinceZone => s.settleResult frame f entry sinceZone late
      | .adjusting => s.adjust frame f
      | .storing next =>
          { s with analyzerChunkLimit := next }.setFrame frame { f with stage := .ended }
      | .ended => s

def step (s : OvertakeZoneScheduler) : Action → OvertakeZoneScheduler
  | .markHotDirty id => (s.markHotDirty id).2
  | .submitAnalyzerResult id => (s.submitAnalyzerResult id).2
  | .popRenderReady => s.popRenderReady.2
  | .startFrame => s.startFrame
  | .advance frame late => s.advance frame late
  | .registerHotComponent id priority => s.registerHotComponent id priority
  | .deregisterHotComponent id => s.deregisterHotComponent id
  | .configureHotSet entries => s.configureHotSet entries

end OvertakeZoneScheduler
end Albedo.Scheduler
