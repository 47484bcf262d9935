import Albedo.Forge.ClientView
import Albedo.Forge.Transaction

/-!
# The write loop: mutate, rematerialise, fan out

`applyWrites` runs the writes of one action in a transaction and, once it has
committed, brings every touched channel to its new value and fans the change out. The
new value is spliced from the cached one where only appends touched the channel and
the ordering places them at one end; everything else is read again. What is published
is logged beside the result, also when a later read fails.
-/
namespace Albedo.Forge
open Json Broadcast

def isBracketed (text : List Char) : Bool :=
  2 ≤ text.length && text.head? = some '[' && text.getLast? = some ']'

/-- Splice appended rows onto the previous text at one end, without parsing either. -/
def spliceAppended (previous : List Char) (records : List Value) (atHead : Bool) :
    Option (List Char) :=
  if records = [] then some previous
  else if !isBracketed previous then none
  else
    let inner := previous.tail.dropLast
    let joined := [','].intercalate (records.map Value.encode)
    some ('[' :: ((if inner = [] then joined
      else if atHead then joined ++ ',' :: inner
      else inner ++ ',' :: joined) ++ [']']))

/-- Where the ordering puts a fresh row: the head, the tail, or anywhere. -/
def insertAtHead (slot : ForgeCollection) : Option Bool :=
  match slot.sort.head? with
  | none => none
  | some first => if first.column = slot.keyColumn then some (first.dir = .desc) else none

/-- The spliced value of a channel, when only appends touched it and they can be placed. -/
def Touched.splice (t : Touched) (broadcast : Registry) : Option (List Char) :=
  match insertAtHead t.slot with
  | none => none
  | some atHead =>
      if t.mutated ∨ t.appended = [] then none
      else (broadcast.value t.channel).bind fun previous => spliceAppended previous t.appended atHead

def deriveBytes (substrate : Substrate) (db : Db) (broadcast : Registry) (t : Touched) :
    Except SubstrateError (List Char) :=
  match t.splice broadcast with
  | some bytes => .ok bytes
  | none => materializeSlot substrate (.read t.channel) db t.slot t.partition

/-! ### Rendering -/

def renderSingletons (projector : RowProjector) (slot : ForgeCollection)
    (partition : Option String) : RenderedRows → Keyed → Option RenderedRows
  | rows, [] => some rows
  | rows, (key, record) :: rest => do
      let rendered ← projector.projectRows slot.topic partition (Value.array [record]).encode
      let html ← rendered.get key
      renderSingletons projector slot partition (rows.insert key html) rest

def renderChangedRows (projector : RowProjector) (slot : ForgeCollection) (channel : String)
    (partition : Option String) (broadcast : Registry) (next : List Char) : Option RenderedRows :=
  match broadcast.value channel with
  | none => none
  | some previous =>
      match appendedRows previous next slot.keyColumn with
      | some appended => renderSingletons projector slot partition .new appended
      | none =>
          match fromSlice previous, fromSlice next with
          | some previous, some next =>
              (diffRecords previous next slot.keyColumn).bind fun changes =>
                renderSingletons projector slot partition .new
                  ((changes.filter fun change => ¬ change.weight < 0).map fun change =>
                    (change.key, change.record))
          | _, _ => none

/-- What to hand to the classifier: the changed rows of a classified template, or the
whole view, and whether the rows are partial. -/
def renderRows (projector : Option RowProjector) (broadcast : Registry) (t : Touched)
    (bytes : List Char) : Option RenderedRows × Bool :=
  match projector with
  | none => (none, false)
  | some p =>
      if p.projectionClass t.slot.topic = .perRecord then
        match renderChangedRows p t.slot t.channel t.partition broadcast bytes with
        | some changed => (some changed, true)
        | none => (p.projectRows t.slot.topic t.partition bytes, false)
      else (p.projectRows t.slot.topic t.partition bytes, false)

/-- What the write says about the rows of a channel, given the value it replaces. -/
def updateOf (slot : ForgeCollection) (rows : Option RenderedRows) (isPartial : Bool)
    (bytes previous : List Char) : ListUpdate × Bool :=
  match rows with
  | some rows => rowUpdate slot previous bytes rows isPartial
  | none => (.none, false)

/-! ### Publishing -/

/-- One channel's share of a fan-out: the value it was given, and what became of the
frames sent for it. -/
structure Publication where
  touched : Touched
  value : List Char
  deliveries : List (Except BroadcastError BroadcastDelivery)

/-- Store a channel's value and fan it out, with the whole set behind it when the
partial rows could not say the change. `wire` is what lies below the registry. -/
def publish (wire : Wire) (projector : Option RowProjector) (broadcast : Registry) (t : Touched)
    (bytes : List Char) : Publication × Registry :=
  let (rows, isPartial) := renderRows projector broadcast t bytes
  let broadcast := broadcast.topic t.channel bytes
  let update := updateOf t.slot rows isPartial bytes
  let needsWhole := (broadcast.value t.channel).any fun previous => (update previous).2
  let (first, broadcast) := broadcast.writeTopicDelta wire t.channel fun previous =>
    ⟨bytes, (update previous).1⟩
  let whole := if needsWhole then
      projector.bind fun p => p.projectRows t.slot.topic t.partition bytes
    else none
  match whole with
  | none => (⟨t, bytes, [first]⟩, broadcast)
  | some whole =>
      let (second, broadcast) := broadcast.writeTopicDelta wire t.channel fun _ =>
        ⟨bytes, .reconcile (reconcileRows whole)⟩
      (⟨t, bytes, [first, second]⟩, broadcast)

/-- Bring the touched channels to their values, in order, until a read fails. -/
def fanOut (substrate : Substrate) (wire : Wire) (projector : Option RowProjector) (db : Db) :
    Registry → List Touched → List Publication × Registry × Option SubstrateError
  | broadcast, [] => ([], broadcast, none)
  | broadcast, t :: rest =>
      match deriveBytes substrate db broadcast t with
      | .error err => ([], broadcast, some err)
      | .ok bytes =>
          let (publication, broadcast) := publish wire projector broadcast t bytes
          let (publications, broadcast, err) := fanOut substrate wire projector db broadcast rest
          (publication :: publications, broadcast, err)

/-! ### The call -/

/-- What a write is about to reach: subscribed lanes, in 32 bits. -/
structure FanOut where
  subscribers : ℕ
  deriving DecidableEq

def u32Max : ℕ := 2 ^ 32 - 1

def countLanes (broadcast : Registry) (touched : List Touched) : FanOut :=
  ⟨touched.foldl (fun total t =>
    min u32Max (total + min u32Max (broadcast.subscriberCount t.channel))) 0⟩

structure World where
  db : Db
  broadcast : Registry

def World.quiet (db : Db) : World := ⟨db, .empty⟩

structure Outcome where
  result : Except Failure FanOut
  world : World
  published : List Publication

/-- Resolve the collections and run the writes: the touched channels, and the
transaction as it stands before its commit. -/
def transact (substrate : Substrate) (schema : ForgeSchema) (writes : List ForgeWrite)
    (principal : Option PrincipalId) (db : Db) : Except Failure (List Touched × Tx) :=
  match resolveSlots schema [] writes with
  | .error err => .error (.error err)
  | .ok slots =>
      match substrate.fault .begin with
      | some err => .error (.error err)
      | none => runWrites substrate principal slots [] writes ⟨db, 0, 0⟩

def commitWrites (substrate : Substrate) (schema : ForgeSchema) (writes : List ForgeWrite)
    (principal : Option PrincipalId) (db : Db) : Except Failure (List Touched × Db) :=
  match transact substrate schema writes principal db with
  | .error failure => .error failure
  | .ok (touched, tx) =>
      match substrate.fault .commit with
      | some err => .error (.error err)
      | none => .ok (touched, tx.db)

/-- Apply every recorded write, then rematerialise and fan out each channel they touched. -/
def applyWrites (substrate : Substrate) (wire : Wire) (schema : ForgeSchema)
    (writes : List ForgeWrite) (projector : Option RowProjector) (principal : Option PrincipalId)
    (world : World) : Outcome :=
  if writes = [] then ⟨.ok ⟨0⟩, world, []⟩
  else
    match commitWrites substrate schema writes principal world.db with
    | .error failure => ⟨.error failure, world, []⟩
    | .ok (touched, db) =>
        let lanes := countLanes world.broadcast touched
        match fanOut substrate wire projector db world.broadcast touched with
        | (published, broadcast, some err) => ⟨.error (.error err), ⟨db, broadcast⟩, published⟩
        | (published, broadcast, none) =>
            ⟨.ok lanes, ⟨db, broadcast.enforceByteBudget defaultTopicValueBudget⟩, published⟩

/-- One call of a history: its writes, who sends them, and the host it runs on. -/
structure Call where
  substrate : Substrate
  wire : Wire
  projector : Option RowProjector
  principal : Option PrincipalId
  writes : List ForgeWrite

/-! ### What a publication leaves -/

theorem stored_registered (broadcast : Registry) (channel : String) (bytes : List Char) :
    ∃ slotId, (broadcast.topic channel bytes).stored channel =
      some (slotId, (broadcast.value channel).getD bytes) := by
  rw [Registry.stored_topic, if_pos rfl, Registry.value_eq]
  cases broadcast.stored channel with
  | none => exact ⟨_, rfl⟩
  | some stored => exact ⟨stored.1, rfl⟩

@[simp] theorem publish_touched (wire : Wire) (projector : Option RowProjector)
    (broadcast : Registry) (t : Touched) (bytes : List Char) :
    (publish wire projector broadcast t bytes).1.touched = t := by
  unfold publish
  dsimp only
  split <;> rfl

@[simp] theorem publish_value (wire : Wire) (projector : Option RowProjector)
    (broadcast : Registry) (t : Touched) (bytes : List Char) :
    (publish wire projector broadcast t bytes).1.value = bytes := by
  unfold publish
  dsimp only
  split <;> rfl

theorem value_publish (wire : Wire) (projector : Option RowProjector) (broadcast : Registry)
    (t : Touched) (bytes : List Char) (x : String) :
    (publish wire projector broadcast t bytes).2.value x =
      if x = t.channel then some bytes else broadcast.value x := by
  obtain ⟨slotId, hstored⟩ := stored_registered broadcast t.channel bytes
  have hfirst := Registry.stored_writeTopicDelta hstored wire
    (fun previous => ⟨bytes, (updateOf t.slot (renderRows projector broadcast t bytes).1
      (renderRows projector broadcast t bytes).2 bytes previous).1⟩)
  have hother : ∀ y, y ≠ t.channel →
      (broadcast.topic t.channel bytes).stored y = broadcast.stored y := by
    intro y hy
    rw [Registry.stored_topic, if_neg hy]
  unfold publish
  dsimp only
  split
  · rw [Registry.value_eq, hfirst]
    split_ifs with hx
    · rfl
    · rw [hother x hx, Registry.value_eq]
  · rename_i whole _
    have hmid := hfirst t.channel
    rw [if_pos rfl] at hmid
    have hsecond := Registry.stored_writeTopicDelta hmid wire
      (fun _ => ⟨bytes, .reconcile (reconcileRows whole)⟩) x
    rw [Registry.value_eq, hsecond]
    split_ifs with hx
    · rfl
    · rw [hfirst, if_neg hx, hother x hx, Registry.value_eq]

def publishedInstructions (projector : Option RowProjector) (broadcast : Registry) (t : Touched)
    (bytes : List Char) (slotId : SlotId) : List Instruction :=
  let (rows, isPartial) := renderRows projector broadcast t bytes
  match rows with
  | some rows => rowInstructions t.slot slotId ((broadcast.value t.channel).getD bytes) bytes rows
      isPartial (projector.bind fun p => p.projectRows t.slot.topic t.partition bytes)
  | none => [TopicTransition.instruction slotId ⟨bytes, .none⟩]

theorem publish_deliveries (wire : Wire) (projector : Option RowProjector) (broadcast : Registry)
    (t : Touched) (bytes : List Char) :
    ∃ slotId, List.Forall₂ (fun delivery instruction => ∀ report, delivery = .ok report →
        report.frame.instruction = instruction)
      (publish wire projector broadcast t bytes).1.deliveries
      (publishedInstructions projector broadcast t bytes slotId) := by
  obtain ⟨slotId, hstored⟩ := stored_registered broadcast t.channel bytes
  refine ⟨slotId, ?_⟩
  have hvalue : (broadcast.topic t.channel bytes).value t.channel =
      some ((broadcast.value t.channel).getD bytes) := by
    rw [Registry.value_eq, hstored]
    rfl
  unfold publish publishedInstructions
  cases hrows : (renderRows projector broadcast t bytes).1 with
  | none =>
      have hplain : updateOf t.slot none (renderRows projector broadcast t bytes).2 bytes =
          fun _ => (.none, false) := rfl
      simp only [hrows, hplain, hvalue, Option.any_some, Bool.false_eq_true, if_false]
      exact .cons (fun report h => Registry.frame_writeTopicDelta hstored h) .nil
  | some rows =>
      have hupdate : updateOf t.slot (some rows) (renderRows projector broadcast t bytes).2 bytes =
          fun previous => rowUpdate t.slot previous bytes rows
            (renderRows projector broadcast t bytes).2 := rfl
      simp only [hrows, hupdate, hvalue, Option.any_some, rowInstructions]
      cases hneeds : (rowUpdate t.slot ((broadcast.value t.channel).getD bytes) bytes rows
          (renderRows projector broadcast t bytes).2).2 with
      | false =>
          simp only [Bool.false_eq_true, if_false]
          exact .cons (fun report h => Registry.frame_writeTopicDelta hstored h) .nil
      | true =>
          simp only [if_true]
          cases projector.bind fun p => p.projectRows t.slot.topic t.partition bytes with
          | none => exact .cons (fun report h => Registry.frame_writeTopicDelta hstored h) .nil
          | some whole =>
              refine .cons (fun report h => Registry.frame_writeTopicDelta hstored h) ?_
              refine .cons (fun report h => ?_) .nil
              have hmid := Registry.stored_writeTopicDelta hstored wire
                (fun previous => ⟨bytes, (rowUpdate t.slot previous bytes rows
                  (renderRows projector broadcast t bytes).2).1⟩) t.channel
              rw [if_pos rfl] at hmid
              exact Registry.frame_writeTopicDelta hmid h

end Albedo.Forge
