import Mathlib.Algebra.Group.Int.Defs
import Mathlib.Algebra.GroupWithZero.Nat
import Mathlib.Data.List.AList
import Mathlib.Data.String.Basic
import Albedo.Library.Json

/-!
# The broadcast registry

Topics with their cached value, subscribers and version, and the write path that
stores a value and fans out one frame. Every registry call is one atomic step,
which is what the topic's value lock makes of it; a write that spans several
calls interleaves only between them. Values are UTF-8 and kept as characters, and
frames keep their instruction instead of its encoding.
-/
namespace Albedo.Broadcast
open Json

/-- How deeply a value read from a slice may nest. -/
def recursionLimit : ℕ := 127

def fromSlice (text : List Char) : Option Value := decodeWithin recursionLimit text

theorem fromSlice_encode {v w : Value} (h : fromSlice v.encode = some w) : v = w := by
  rw [fromSlice, decodeWithin_encode] at h
  split_ifs at h
  exact Option.some.inj h

abbrev SlotId := UInt32

def fnv1a32 (data : List UInt8) : UInt32 :=
  data.foldl (fun hash byte => (hash ^^^ byte.toUInt32) * 0x01000193) 0x811c9dc5

def broadcastSlotId (topic : String) : SlotId :=
  fnv1a32 (("broadcast::" ++ topic).toList.flatMap String.utf8EncodeChar)

def isValidPartitionKey (key : String) : Bool :=
  key ≠ "" && key.toList.length ≤ 64 &&
    key.toList.all fun c => c.isAlphanum || c = '_' || c = '-'

def partitionTopicName (collection key : String) : Option String :=
  if isValidPartitionKey key then some (collection ++ ":" ++ key) else none

/-! ### List updates and their instructions -/

structure SlotChange where
  weight : ℤ
  key : String
  payload : String

structure ReconcileRow where
  key : String
  payload : String

inductive ListUpdate where
  | none
  | delta (changes : List SlotChange)
  | insert (before : Option String) (rows : List ReconcileRow)
  | reconcile (rows : List ReconcileRow)

inductive Instruction where
  | slotSet (slotId : SlotId) (value : List Char)
  | slotDelta (slotId : SlotId) (changes : List SlotChange)
  | slotInsert (slotId : SlotId) (before : Option String) (rows : List ReconcileRow)
  | reconcileList (slotId : SlotId) (rows : List ReconcileRow)

def saturatingAddWeight (a b : ℤ) : ℤ := max (-2 ^ 31) (min (2 ^ 31 - 1) (a + b))

/-- Add a change to the compacted ones: onto the same record's weight, or at the end. -/
def addChange (order : List SlotChange) (change : SlotChange) : List SlotChange :=
  if order.any fun c => c.key = change.key ∧ c.payload = change.payload then
    order.map fun c =>
      if c.key = change.key ∧ c.payload = change.payload then
        { c with weight := saturatingAddWeight c.weight change.weight }
      else c
  else order ++ [change]

/-- Sum the weights of identical records and drop those that cancel. -/
def coalesceChanges (changes : List SlotChange) : List SlotChange :=
  (changes.foldl addChange []).filter fun c => c.weight ≠ 0

/-- The one opcode that carries the update, when it describes a transition. -/
def listInstruction (slotId : SlotId) : ListUpdate → Option Instruction
  | .none => none
  | .delta changes =>
      let changes := coalesceChanges changes
      if changes ≠ [] then some (.slotDelta slotId changes) else none
  | .insert before rows => if rows ≠ [] then some (.slotInsert slotId before rows) else none
  | .reconcile rows => some (.reconcileList slotId rows)

/-- What a write stores, and how the rows changed. -/
structure TopicTransition where
  value : List Char
  update : ListUpdate

/-- The one instruction of a write: the list opcode, or the snapshot without one. -/
def TopicTransition.instruction (slotId : SlotId) (t : TopicTransition) : Instruction :=
  (listInstruction slotId t.update).getD (.slotSet slotId t.value)

/-! ### The registry -/

abbrev SessionId := ℕ

/-- A subscriber's sink, by the channel it sends into. -/
abbrev Sender := ℕ

abbrev Columns := List String

inductive TopicIdentity where
  | static
  | partition (collection key : String)
  | external (source route url : String)
  deriving DecidableEq

def TopicIdentity.isEvictable : TopicIdentity → Bool
  | .static => false
  | .partition _ _ | .external _ _ _ => true

structure Topic where
  name : String
  slotId : SlotId
  value : List Char
  subscribers : AList fun _ : SessionId => Sender
  projections : AList fun _ : SessionId => Columns
  version : ℕ
  identity : TopicIdentity
  touched : ℕ

structure Registry where
  topics : AList fun _ : String => Topic
  bySession : AList fun _ : SessionId => List String
  nextFrameId : ℕ
  slotIds : AList fun _ : SlotId => String
  tick : ℕ

def Registry.empty : Registry := ⟨∅, ∅, 0, ∅, 0⟩

/-- One frame of the patch lane: every broadcast frame carries one instruction. -/
structure OpcodeFrame where
  frameId : ℕ
  instruction : Instruction

inductive BroadcastError where
  | unknownTopic (topic : String)
  | encode
  | slotIdCollision (topic existing : String) (slot : SlotId)
  deriving DecidableEq

inductive SendOutcome where
  | sent
  | full
  | closed
  deriving DecidableEq

def objectsOf : Value → List (List (String × Value))
  | .object fields => [fields]
  | .array items => items.filterMap fun item =>
      match item with
      | .object fields => some fields
      | _ => none
  | _ => []

/-- Whether the objects a projection cuts name their columns in order, each once. -/
def KeysSorted (v : Value) : Prop :=
  ∀ fields ∈ objectsOf v, fields.Pairwise fun f g => f.1 < g.1

instance (v : Value) : Decidable (KeysSorted v) :=
  inferInstanceAs (Decidable (∀ _ ∈ _, _))

/-- What lies below the registry: the frame encoder, the sinks and the JSON reader, whose
objects are maps in key order. -/
structure Wire where
  encodes : OpcodeFrame → Bool
  trySend : Sender → OpcodeFrame → SendOutcome
  /-- What a text says, however deeply it nests. -/
  json : List Char → Option Value
  json_sorted : ∀ text v, json text = some v → KeysSorted v

def Wire.fromSlice (wire : Wire) (text : List Char) : Option Value :=
  (wire.json text).filter fun v => v.depth ≤ recursionLimit

def plainJson (text : List Char) : Option Value := (decode text).filter fun v => KeysSorted v

theorem plainJson_sorted (text : List Char) (v : Value) (h : plainJson text = some v) :
    KeysSorted v := by
  simpa using (Option.filter_eq_some_iff.mp h).2

def Wire.plain : Wire := ⟨fun _ => true, fun _ _ => .sent, plainJson, plainJson_sorted⟩

/-- What became of a write's frame. The frame itself is kept beside the report. -/
structure BroadcastDelivery where
  frame : OpcodeFrame
  delivered : List (SessionId × OpcodeFrame)
  droppedFull : List SessionId
  droppedClosed : List SessionId

def Registry.get (reg : Registry) (topic : String) : Option Topic := reg.topics.lookup topic

def Registry.value (reg : Registry) (topic : String) : Option (List Char) :=
  (reg.get topic).map Topic.value

def Registry.subscriberCount (reg : Registry) (topic : String) : ℕ :=
  ((reg.get topic).map fun t => t.subscribers.keys.length).getD 0

def Registry.topicWithIdentity (reg : Registry) (topic : String) (initial : List Char)
    (identity : TopicIdentity) : Registry :=
  if (reg.get topic).isSome then reg
  else
    let slotId := broadcastSlotId topic
    { reg with
      slotIds := if (reg.slotIds.lookup slotId).isSome then reg.slotIds
        else reg.slotIds.insert slotId topic
      topics := reg.topics.insert topic
        { name := topic, slotId, value := initial, subscribers := ∅, projections := ∅,
          version := 0, identity, touched := reg.tick }
      tick := reg.tick + 1 }

def Registry.topic (reg : Registry) (topic : String) (initial : List Char) : Registry :=
  reg.topicWithIdentity topic initial .static

def Topic.forget (t : Topic) (session : SessionId) : Topic :=
  { t with
    subscribers := t.subscribers.erase session
    projections := t.projections.erase session }

def Registry.modify (reg : Registry) (topic : String) (f : Topic → Topic) : Registry :=
  match reg.get topic with
  | some t => { reg with topics := reg.topics.insert topic (f t) }
  | none => reg

def Registry.cleanupSession (reg : Registry) (session : SessionId) : Registry :=
  match reg.bySession.lookup session with
  | none => reg
  | some topics =>
      topics.foldl (fun reg topic => reg.modify topic fun t => t.forget session)
        { reg with bySession := reg.bySession.erase session }

def projectValue (wire : Wire) (value : List Char) (columns : Columns) : List Char :=
  let retain := fun fields : List (String × Value) => fields.filter fun f => f.1 ∈ columns
  match wire.fromSlice value with
  | some (.array rows) =>
      (Value.array (rows.map fun row =>
        match row with
        | .object fields => .object (retain fields)
        | row => row)).encode
  | some (.object fields) => (Value.object (retain fields)).encode
  | _ => value

/-- The frame one subscriber is sent: a snapshot is cut to the columns it reads. -/
def frameFor (wire : Wire) (t : Topic) (session : SessionId) (frame : OpcodeFrame) :
    OpcodeFrame :=
  match frame.instruction, t.projections.lookup session with
  | .slotSet slotId value, some columns =>
      { frame with instruction := .slotSet slotId (projectValue wire value columns) }
  | _, _ => frame

def fanOutReport (wire : Wire) (t : Topic) (frame : OpcodeFrame) : BroadcastDelivery :=
  t.subscribers.entries.foldl (fun report entry =>
    let session := entry.1
    let own := frameFor wire t session frame
    if !wire.encodes own then
      { report with droppedClosed := report.droppedClosed ++ [session] }
    else
      match wire.trySend entry.2 own with
      | .sent => { report with delivered := report.delivered ++ [(session, own)] }
      | .full => { report with droppedFull := report.droppedFull ++ [session] }
      | .closed => { report with droppedClosed := report.droppedClosed ++ [session] })
    { frame, delivered := [], droppedFull := [], droppedClosed := [] }

/-- Drop a session whose sink refused a frame: from this topic, then everywhere. -/
def Registry.dropSession (reg : Registry) (topic : String) (session : SessionId) : Registry :=
  let reg := reg.modify topic fun t => t.forget session
  let reg := match reg.bySession.lookup session with
    | some topics =>
        { reg with bySession := reg.bySession.insert session (topics.filter (· ≠ topic)) }
    | none => reg
  reg.cleanupSession session

/-- Store a topic's next value and fan out one frame: the list opcode when the
update describes a transition, the snapshot otherwise. `compute` is handed the
value being replaced. -/
def Registry.writeTopicDelta (reg : Registry) (wire : Wire) (topic : String)
    (compute : List Char → TopicTransition) : Except BroadcastError BroadcastDelivery × Registry :=
  match reg.get topic with
  | none => (.error (.unknownTopic topic), reg)
  | some t =>
      let transition := compute t.value
      let instruction := transition.instruction t.slotId
      let t := { t with value := transition.value, version := t.version + 1 }
      let frame : OpcodeFrame := { frameId := reg.nextFrameId, instruction }
      let reg := { reg with
        topics := reg.topics.insert topic t
        nextFrameId := reg.nextFrameId + 1 }
      if !wire.encodes frame then (.error .encode, reg)
      else
        let report := fanOutReport wire t frame
        let reg := (report.droppedFull ++ report.droppedClosed).foldl
          (fun reg session => reg.dropSession topic session) reg
        let reg := { reg.modify topic fun t => { t with touched := reg.tick } with
          tick := reg.tick + 1 }
        (.ok report, reg)

/-! ### The byte budget -/

def utf8Length (text : List Char) : ℕ := (text.map Char.utf8Size).sum

def Registry.topicList (reg : Registry) : List Topic := reg.topics.entries.map Sigma.snd

def Registry.evictableBytes (reg : Registry) : ℕ :=
  ((reg.topicList.filter fun t => t.identity.isEvictable).map fun t => utf8Length t.value).sum

def Registry.dropIfIdle (reg : Registry) (topic : String) : Bool × Registry :=
  match reg.get topic with
  | none => (false, reg)
  | some t =>
      if t.identity.isEvictable && t.subscribers.keys.isEmpty then
        let slotId := broadcastSlotId topic
        (true, { reg with
          slotIds := if reg.slotIds.lookup slotId = some topic then reg.slotIds.erase slotId
            else reg.slotIds
          topics := reg.topics.erase topic })
      else (false, reg)

/-- Reclaim idle re-derivable topics, least recently used first, until the rest fits. -/
def Registry.enforceByteBudget (reg : Registry) (budget : ℕ) : Registry :=
  if reg.evictableBytes ≤ budget then reg
  else
    let candidates := reg.topicList.filter fun t =>
      t.identity.isEvictable && t.subscribers.keys.isEmpty
    let candidates := candidates.mergeSort fun a b => a.touched ≤ b.touched
    (candidates.foldl (fun (acc : ℕ × Registry) t =>
      if acc.1 ≤ budget then acc
      else
        match acc.2.dropIfIdle t.name with
        | (true, reg) => (acc.1 - utf8Length t.value, reg)
        | (false, reg) => (acc.1, reg)) (reg.evictableBytes, reg)).2

def defaultTopicValueBudget : ℕ := 64 * 1024 * 1024

/-! ### What an operation leaves of every topic

`look` reads something of a topic. What it reads survives an operation that does not
touch that part of the topic.
-/

section Look

variable {α : Type*} {p : Topic → α}

def Registry.look (reg : Registry) (p : Topic → α) (topic : String) : Option α :=
  (reg.get topic).map p

theorem Registry.look_of_insert (reg : Registry) {r : Registry} {topic : String} {t : Topic}
    (h : r.topics = reg.topics.insert topic t) (x : String) :
    r.look p x = if x = topic then some (p t) else reg.look p x := by
  by_cases hx : x = topic
  · subst hx
    simp [Registry.look, Registry.get, h]
  · simp [Registry.look, Registry.get, h, AList.lookup_insert_ne hx, hx]

theorem Registry.get_modify (reg : Registry) (topic x : String) (f : Topic → Topic) :
    (reg.modify topic f).get x = if x = topic then (reg.get topic).map f else reg.get x := by
  unfold Registry.modify
  cases h : reg.get topic with
  | none =>
      split_ifs with hx
      · rw [hx, h]
        rfl
      · rfl
  | some t =>
      by_cases hx : x = topic
      · subst hx
        simp [Registry.get]
      · simp [Registry.get, AList.lookup_insert_ne hx, hx]

theorem Registry.look_modify (reg : Registry) (topic x : String) {f : Topic → Topic}
    (hf : ∀ t, p (f t) = p t) : (reg.modify topic f).look p x = reg.look p x := by
  rw [Registry.look, Registry.get_modify, Registry.look]
  split_ifs with hx
  · rw [hx, Option.map_map, show p ∘ f = p from funext hf]
  · rfl

theorem Registry.look_cleanupSession (hp : ∀ (t : Topic) session, p (t.forget session) = p t)
    (reg : Registry) (session : SessionId) (x : String) :
    (reg.cleanupSession session).look p x = reg.look p x := by
  unfold Registry.cleanupSession
  cases reg.bySession.lookup session with
  | none => rfl
  | some topics =>
      have hfold : ∀ (topics : List String) (r : Registry), (topics.foldl (fun reg topic =>
          reg.modify topic fun t => t.forget session) r).look p x = r.look p x := by
        intro topics
        induction topics with
        | nil => exact fun _ => rfl
        | cons topic topics ih =>
            intro r
            rw [List.foldl_cons, ih]
            exact r.look_modify topic x fun t => hp t session
      exact hfold topics _

theorem Registry.look_dropSession (hp : ∀ (t : Topic) session, p (t.forget session) = p t)
    (reg : Registry) (topic : String) (session : SessionId) (x : String) :
    (reg.dropSession topic session).look p x = reg.look p x := by
  unfold Registry.dropSession
  rw [Registry.look_cleanupSession hp]
  have hforget : (reg.modify topic fun t => t.forget session).look p x = reg.look p x :=
    reg.look_modify topic x fun t => hp t session
  cases (reg.modify topic fun t => t.forget session).bySession.lookup session with
  | none => exact hforget
  | some topics => exact hforget

theorem Registry.look_dropSessions (hp : ∀ (t : Topic) session, p (t.forget session) = p t)
    (sessions : List SessionId) (reg : Registry) (topic x : String) :
    (sessions.foldl (fun reg session => reg.dropSession topic session) reg).look p x =
      reg.look p x := by
  induction sessions generalizing reg with
  | nil => rfl
  | cons session sessions ih => rw [List.foldl_cons, ih, Registry.look_dropSession hp]

theorem Registry.look_topicWithIdentity (reg : Registry) (topic x : String)
    (initial : List Char) (identity : TopicIdentity) :
    (reg.topicWithIdentity topic initial identity).look p x =
      if x = topic then some ((reg.look p topic).getD (p
        { name := topic, slotId := broadcastSlotId topic, value := initial, subscribers := ∅,
          projections := ∅, version := 0, identity, touched := reg.tick }))
      else reg.look p x := by
  unfold Registry.topicWithIdentity
  cases h : reg.get topic with
  | some t =>
      have hlook : reg.look p topic = some (p t) := by simp [Registry.look, h]
      simp only [Option.isSome_some, if_true, hlook, Option.getD_some]
      split_ifs with hx
      · rw [hx, hlook]
      · rfl
  | none =>
      have hlook : reg.look p topic = none := by simp [Registry.look, h]
      simp only [Option.isSome_none, Bool.false_eq_true, if_false, hlook, Option.getD_none]
      exact Registry.look_of_insert reg (t := ⟨topic, broadcastSlotId topic, initial, ∅, ∅, 0,
        identity, reg.tick⟩) (by rfl) x

theorem Registry.look_dropIfIdle (reg : Registry) (topic x : String) :
    (reg.dropIfIdle topic).2.look p x =
      if x = topic ∧ (reg.dropIfIdle topic).1 = true then none else reg.look p x := by
  unfold Registry.dropIfIdle
  cases h : reg.get topic with
  | none => simp
  | some t =>
      by_cases hidle : (t.identity.isEvictable && t.subscribers.keys.isEmpty) = true
      · simp only [hidle, if_true, and_true]
        by_cases hx : x = topic
        · subst hx
          simp [Registry.look, Registry.get]
        · simp [Registry.look, Registry.get, AList.lookup_erase_ne hx, hx]
      · simp [hidle]

end Look

/-! ### What the operations do to the values -/

def Topic.stored (t : Topic) : SlotId × List Char := (t.slotId, t.value)

def Registry.stored (reg : Registry) (topic : String) : Option (SlotId × List Char) :=
  reg.look Topic.stored topic

theorem Registry.value_eq (reg : Registry) (topic : String) :
    reg.value topic = (reg.stored topic).map Prod.snd := by
  simp [Registry.value, Registry.stored, Registry.look, Topic.stored, Function.comp_def]

theorem stored_forget (t : Topic) (session : SessionId) : (t.forget session).stored = t.stored :=
  rfl

theorem Registry.stored_topic (reg : Registry) (topic x : String) (initial : List Char) :
    (reg.topic topic initial).stored x =
      if x = topic then some ((reg.stored topic).getD (broadcastSlotId topic, initial))
      else reg.stored x :=
  reg.look_topicWithIdentity topic x initial .static

theorem Registry.value_topic (reg : Registry) (topic x : String) (initial : List Char) :
    (reg.topic topic initial).value x =
      if x = topic then some ((reg.value topic).getD initial) else reg.value x := by
  simp only [Registry.value_eq, Registry.stored_topic]
  split_ifs
  · cases reg.stored topic <;> rfl
  · rfl

/-- A write to a known topic stores what was computed from the value it replaces, and
touches no other topic. -/
theorem Registry.stored_writeTopicDelta {reg : Registry} {topic : String} {slotId : SlotId}
    {previous : List Char} (h : reg.stored topic = some (slotId, previous)) (wire : Wire)
    (compute : List Char → TopicTransition) (x : String) :
    (reg.writeTopicDelta wire topic compute).2.stored x =
      if x = topic then some (slotId, (compute previous).value) else reg.stored x := by
  obtain ⟨t, ht, hstored⟩ := Option.map_eq_some_iff.mp h
  obtain ⟨rfl, rfl⟩ := Prod.mk.inj hstored
  unfold Registry.writeTopicDelta
  rw [ht]
  dsimp only
  cases wire.encodes ⟨reg.nextFrameId, (compute t.value).instruction t.slotId⟩ with
  | false =>
      exact Registry.look_of_insert reg (t := { t with
        value := (compute t.value).value, version := t.version + 1 }) (by rfl) x
  | true =>
      simp only [Bool.not_true, Bool.false_eq_true, if_false]
      refine (Registry.look_modify _ _ _ ?_).trans ?_
      · exact fun _ => rfl
      · rw [Registry.look_dropSessions stored_forget]
        exact Registry.look_of_insert reg (t := { t with
          value := (compute t.value).value, version := t.version + 1 }) (by rfl) x

def reportSend (wire : Wire) (t : Topic) (frame : OpcodeFrame) (report : BroadcastDelivery)
    (entry : Sigma fun _ : SessionId => Sender) : BroadcastDelivery :=
  let session := entry.1
  let own := frameFor wire t session frame
  if !wire.encodes own then
    { report with droppedClosed := report.droppedClosed ++ [session] }
  else
    match wire.trySend entry.2 own with
    | .sent => { report with delivered := report.delivered ++ [(session, own)] }
    | .full => { report with droppedFull := report.droppedFull ++ [session] }
    | .closed => { report with droppedClosed := report.droppedClosed ++ [session] }

theorem fanOutReport_eq (wire : Wire) (t : Topic) (frame : OpcodeFrame) :
    fanOutReport wire t frame = t.subscribers.entries.foldl (reportSend wire t frame)
      { frame, delivered := [], droppedFull := [], droppedClosed := [] } :=
  rfl

theorem fanOutReport_frame (wire : Wire) (t : Topic) (frame : OpcodeFrame) :
    (fanOutReport wire t frame).frame = frame := by
  rw [fanOutReport_eq]
  generalize t.subscribers.entries = entries
  suffices h : ∀ report : BroadcastDelivery, report.frame = frame →
      (entries.foldl (reportSend wire t frame) report).frame = frame from h _ rfl
  induction entries with
  | nil => exact fun _ h => h
  | cons entry entries ih =>
      intro report hreport
      apply ih
      unfold reportSend
      dsimp only
      split_ifs
      · exact hreport
      · split <;> exact hreport

theorem Registry.frame_writeTopicDelta {reg : Registry} {topic : String} {slotId : SlotId}
    {previous : List Char} (h : reg.stored topic = some (slotId, previous)) {wire : Wire}
    {compute : List Char → TopicTransition} {delivery : BroadcastDelivery}
    (hd : (reg.writeTopicDelta wire topic compute).1 = .ok delivery) :
    delivery.frame.instruction = (compute previous).instruction slotId := by
  obtain ⟨t, ht, hstored⟩ := Option.map_eq_some_iff.mp h
  obtain ⟨rfl, rfl⟩ := Prod.mk.inj hstored
  unfold Registry.writeTopicDelta at hd
  rw [ht] at hd
  dsimp only at hd
  split_ifs at hd
  obtain rfl := Except.ok.inj hd
  rw [fanOutReport_frame]

theorem Registry.value_dropIfIdle (reg : Registry) (topic x : String) :
    (reg.dropIfIdle topic).2.value x = reg.value x ∨ (reg.dropIfIdle topic).2.value x = none := by
  have h := reg.look_dropIfIdle (p := Topic.value) topic x
  split_ifs at h
  · exact Or.inr h
  · exact Or.inl h

def sweepStep (budget : ℕ) (acc : ℕ × Registry) (t : Topic) : ℕ × Registry :=
  if acc.1 ≤ budget then acc
  else
    match acc.2.dropIfIdle t.name with
    | (true, reg) => (acc.1 - utf8Length t.value, reg)
    | (false, reg) => (acc.1, reg)

theorem Registry.enforceByteBudget_induction {P : Registry → Prop} {reg : Registry} (h : P reg)
    (hdrop : ∀ (reg : Registry) topic, P reg → P (reg.dropIfIdle topic).2) (budget : ℕ) :
    P (reg.enforceByteBudget budget) := by
  unfold Registry.enforceByteBudget
  split_ifs
  · exact h
  · dsimp only
    generalize (reg.topicList.filter fun t => t.identity.isEvictable &&
      t.subscribers.keys.isEmpty).mergeSort (fun a b => decide (a.touched ≤ b.touched)) = candidates
    suffices hfold : ∀ acc : ℕ × Registry, P acc.2 → P (candidates.foldl (sweepStep budget) acc).2
      from hfold (reg.evictableBytes, reg) h
    induction candidates with
    | nil => exact fun _ hacc => hacc
    | cons t candidates ih =>
        intro acc hacc
        apply ih
        have hdropped := hdrop acc.2 t.name hacc
        unfold sweepStep
        split_ifs
        · exact hacc
        · revert hdropped
          rcases acc.2.dropIfIdle t.name with ⟨_ | _, swept⟩ <;> exact id

theorem Registry.value_enforceByteBudget (reg : Registry) (budget : ℕ) (x : String) :
    (reg.enforceByteBudget budget).value x = reg.value x ∨
      (reg.enforceByteBudget budget).value x = none := by
  refine Registry.enforceByteBudget_induction
    (P := fun r => r.value x = reg.value x ∨ r.value x = none) (Or.inl rfl) ?_ budget
  intro r topic hr
  rcases r.value_dropIfIdle topic x with hdrop | hdrop
  · rwa [hdrop]
  · exact Or.inr hdrop

end Albedo.Broadcast
