import Albedo.Runtime.Broadcast

/-!
# The calls a registry takes

Registration with and without the wire slot guard, subscription, and the calls the
rest of the server makes on a registry, as one alphabet. Every call is one atomic
step, and a run is a list of them.
-/
namespace Albedo.Broadcast

/-! ### Registration -/

def Registry.guardSlotId (reg : Registry) (topic : String) : Except BroadcastError Unit :=
  let slotId := broadcastSlotId topic
  match reg.slotIds.lookup slotId with
  | some holder => if holder ≠ topic then .error (.slotIdCollision topic holder slotId) else .ok ()
  | none => .ok ()

def Registry.tryTopicWithIdentity (reg : Registry) (topic : String) (initial : List Char)
    (identity : TopicIdentity) : Except BroadcastError Registry :=
  if (reg.get topic).isSome then .ok reg
  else
    match reg.guardSlotId topic with
    | .error err => .error err
    | .ok () => .ok (reg.topicWithIdentity topic initial identity)

def Registry.tryTopic (reg : Registry) (topic : String) (initial : List Char) :
    Except BroadcastError Registry :=
  reg.tryTopicWithIdentity topic initial .static

def Registry.tryTopicPartition (reg : Registry) (name collection key : String)
    (initial : List Char) : Except BroadcastError Registry :=
  reg.tryTopicWithIdentity name initial (.partition collection key)

def Registry.writeTopic (reg : Registry) (wire : Wire) (topic : String) (value : List Char) :
    Except BroadcastError BroadcastDelivery × Registry :=
  reg.writeTopicDelta wire topic fun _ => ⟨value, .none⟩

/-- Mint a declared external resource, or replace the value of the one that is there.
The flag says whether a value was published; what became of its frame is dropped. -/
def Registry.tryTopicExternal (reg : Registry) (wire : Wire) (name source route url : String)
    (value : List Char) : Except BroadcastError (Bool × Registry) :=
  match reg.get name with
  | some t =>
      if t.value = value then .ok (false, reg)
      else .ok (true, (reg.writeTopic wire name value).2)
  | none =>
      match reg.tryTopicWithIdentity name value (.external source route url) with
      | .error err => .error err
      | .ok reg => .ok (false, reg)

def Registry.touch (reg : Registry) (topic : String) : Bool × Registry :=
  match reg.get topic with
  | some _ =>
      (true, { reg.modify topic fun t => { t with touched := reg.tick } with tick := reg.tick + 1 })
  | none => (false, reg)

/-! ### Subscription -/

def Registry.noteTopic (reg : Registry) (session : SessionId) (topic : String) : Registry :=
  let topics := (reg.bySession.lookup session).getD []
  { reg with
    bySession := reg.bySession.insert session
      (if topic ∈ topics then topics else topics ++ [topic]) }

def Topic.enrol (t : Topic) (session : SessionId) (sender : Sender) (columns : Option Columns) :
    Topic :=
  { t with
    subscribers := t.subscribers.insert session sender
    projections :=
      match columns with
      | some columns => t.projections.insert session columns
      | none => t.projections.erase session }

def Registry.subscribe (reg : Registry) (session : SessionId) (topic : String) (sender : Sender) :
    Except BroadcastError (List Char) × Registry :=
  match reg.get topic with
  | none => (.error (.unknownTopic topic), reg)
  | some t =>
      let reg := { reg.modify topic fun t =>
        { t.enrol session sender none with touched := reg.tick } with tick := reg.tick + 1 }
      (.ok t.value, reg.noteTopic session topic)

def Registry.unsubscribe (reg : Registry) (session : SessionId) (topic : String) : Registry :=
  let reg := reg.modify topic fun t => t.forget session
  match reg.bySession.lookup session with
  | some topics =>
      { reg with bySession := reg.bySession.insert session (topics.filter (· ≠ topic)) }
  | none => reg

structure TopicGrant where
  topic : String
  columns : Option Columns

def TopicGrant.whole (topic : String) : TopicGrant := ⟨topic, none⟩

/-- The seed of a subscription: a snapshot for each grant, cut to its columns, and the
whole values for the server. -/
structure GrantedSeed where
  instructions : List Instruction
  values : List (String × List Char)

def TopicGrant.cut (wire : Wire) (grant : TopicGrant) (value : List Char) : List Char :=
  match grant.columns with
  | some columns => projectValue wire value columns
  | none => value

def Registry.grant (reg : Registry) (wire : Wire) (session : SessionId) (sender : Sender)
    (seed : GrantedSeed) (grant : TopicGrant) : GrantedSeed × Registry :=
  let reg := reg.topic grant.topic []
  match reg.get grant.topic with
  | none => (seed, reg)
  | some t =>
      let reg := reg.modify grant.topic fun t => t.enrol session sender grant.columns
      ({ instructions := seed.instructions ++ [.slotSet t.slotId (grant.cut wire t.value)]
         values := seed.values ++ [(grant.topic, t.value)] },
        reg.noteTopic session grant.topic)

def Registry.subscribeGranted (reg : Registry) (wire : Wire) (session : SessionId)
    (sender : Sender) (grants : List TopicGrant) : GrantedSeed × Registry :=
  grants.foldl (fun acc grant => acc.2.grant wire session sender acc.1 grant) (⟨[], []⟩, reg)

def Registry.autoSubscribe (reg : Registry) (wire : Wire) (session : SessionId) (sender : Sender)
    (topics : List String) : List Instruction × Registry :=
  let (seed, reg) := reg.subscribeGranted wire session sender (topics.map TopicGrant.whole)
  (seed.instructions, reg)

/-! ### Runs -/

/-- A call on the registry. The wire of a call is what its frames meet below. -/
inductive Op where
  | topic (name : String) (initial : List Char)
  | tryTopic (name : String) (initial : List Char)
  | tryTopicPartition (name collection key : String) (initial : List Char)
  | tryTopicExternal (wire : Wire) (name source route url : String) (value : List Char)
  | touch (name : String)
  | subscribe (session : SessionId) (topic : String) (sender : Sender)
  | subscribeGranted (wire : Wire) (session : SessionId) (sender : Sender) (grants : List TopicGrant)
  | unsubscribe (session : SessionId) (topic : String)
  | cleanupSession (session : SessionId)
  | writeTopicDelta (wire : Wire) (topic : String) (compute : List Char → TopicTransition)
  | dropIfIdle (topic : String)
  | enforceByteBudget (budget : ℕ)

/-- The registry a call leaves. A refused registration leaves it as it was. -/
def Registry.perform (reg : Registry) : Op → Registry
  | .topic name initial => reg.topic name initial
  | .tryTopic name initial => (reg.tryTopic name initial).toOption.getD reg
  | .tryTopicPartition name collection key initial =>
      (reg.tryTopicPartition name collection key initial).toOption.getD reg
  | .tryTopicExternal wire name source route url value =>
      ((reg.tryTopicExternal wire name source route url value).toOption.map Prod.snd).getD reg
  | .touch name => (reg.touch name).2
  | .subscribe session topic sender => (reg.subscribe session topic sender).2
  | .subscribeGranted wire session sender grants =>
      (reg.subscribeGranted wire session sender grants).2
  | .unsubscribe session topic => reg.unsubscribe session topic
  | .cleanupSession session => reg.cleanupSession session
  | .writeTopicDelta wire topic compute => (reg.writeTopicDelta wire topic compute).2
  | .dropIfIdle topic => (reg.dropIfIdle topic).2
  | .enforceByteBudget budget => reg.enforceByteBudget budget

def Registry.run (reg : Registry) (ops : List Op) : Registry := ops.foldl Registry.perform reg

theorem Registry.run_induction {P : Registry → Prop} {reg : Registry} (h : P reg)
    (hstep : ∀ (reg : Registry) op, P reg → P (reg.perform op)) (ops : List Op) :
    P (reg.run ops) := by
  induction ops generalizing reg with
  | nil => exact h
  | cons op ops ih => exact ih (hstep reg op h)

/-! ### What the calls are made of -/

theorem Registry.dropSession_eq (reg : Registry) (topic : String) (session : SessionId) :
    reg.dropSession topic session = (reg.unsubscribe session topic).cleanupSession session :=
  rfl

def Topic.written (t : Topic) (transition : TopicTransition) : Topic :=
  { t with value := transition.value, version := t.version + 1 }

/-- The registry once a write has stored its topic, before the frame is offered. -/
def Registry.written (reg : Registry) (topic : String) (t : Topic) : Registry :=
  { reg with topics := reg.topics.insert topic t, nextFrameId := reg.nextFrameId + 1 }

def Registry.settled (reg : Registry) (topic : String) (sessions : List SessionId) : Registry :=
  let reg := sessions.foldl (fun reg session => reg.dropSession topic session) reg
  { reg.modify topic fun t => { t with touched := reg.tick } with tick := reg.tick + 1 }

def Registry.frameOf (reg : Registry) (t : Topic) (transition : TopicTransition) : OpcodeFrame :=
  ⟨reg.nextFrameId, transition.instruction t.slotId⟩

theorem Registry.writeTopicDelta_eq {reg : Registry} {topic : String} {t : Topic}
    (ht : reg.get topic = some t) (wire : Wire) (compute : List Char → TopicTransition) :
    let transition := compute t.value
    let t' := t.written transition
    let report := fanOutReport wire t' (reg.frameOf t transition)
    reg.writeTopicDelta wire topic compute =
      if wire.encodes (reg.frameOf t transition) then
        (.ok report, (reg.written topic t').settled topic
          (report.droppedFull ++ report.droppedClosed))
      else (.error .encode, reg.written topic t') := by
  intro transition t' report
  unfold Registry.writeTopicDelta
  rw [ht]
  dsimp only
  have hframe : wire.encodes ⟨reg.nextFrameId, (compute t.value).instruction t.slotId⟩ =
      wire.encodes (reg.frameOf t transition) := rfl
  rw [hframe]
  cases wire.encodes (reg.frameOf t transition) with
  | false => rfl
  | true => rfl

/-- A guarded registration leaves the registry as it was, or registers a name whose wire
slot is free or its own. -/
theorem Registry.tryTopicWithIdentity_ok {reg reg' : Registry} {topic : String}
    {initial : List Char} {identity : TopicIdentity}
    (h : reg.tryTopicWithIdentity topic initial identity = .ok reg') :
    reg' = reg.topicWithIdentity topic initial identity ∧ (reg.get topic = none →
      ∀ holder, reg.slotIds.lookup (broadcastSlotId topic) = some holder → holder = topic) := by
  unfold Registry.tryTopicWithIdentity at h
  cases hget : reg.get topic with
  | some t =>
      simp only [hget, Option.isSome_some, if_true] at h
      refine ⟨?_, nofun⟩
      rw [← Except.ok.inj h, Registry.topicWithIdentity, hget]
      rfl
  | none =>
      simp only [hget, Option.isSome_none, Bool.false_eq_true, if_false] at h
      unfold Registry.guardSlotId at h
      cases hslot : reg.slotIds.lookup (broadcastSlotId topic) with
      | none =>
          simp only [hslot] at h
          exact ⟨(Except.ok.inj h).symm, nofun⟩
      | some holder =>
          by_cases hholder : holder = topic
          · simp only [hslot, hholder, ne_eq, not_true, if_false] at h
            refine ⟨(Except.ok.inj h).symm, fun _ other hother => ?_⟩
            rw [← Option.some.inj hother, hholder]
          · simp [hslot, hholder] at h

end Albedo.Broadcast
