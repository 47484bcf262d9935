import Albedo.Runtime.Slots
import Albedo.Forge.Write

/-!
# The live topics of a server

The registry takes calls from readers and subscribers, and the fan-outs of the write
path, which register a channel nobody has heard of. A run is a list of both, each served
whole.
-/
namespace Albedo.Forge
open Json Broadcast

/-- What reaches the live topics: a call on the registry, or the writes of an action. -/
inductive Request where
  | call (op : Broadcast.Op)
  | applyWrites (action : Call)

def Call.outcome (action : Call) (schema : ForgeSchema) (world : World) : Outcome :=
  applyWrites action.substrate action.wire schema action.writes action.projector action.principal
    world

def World.serve (schema : ForgeSchema) (world : World) : Request → World
  | .call op => { world with broadcast := world.broadcast.perform op }
  | .applyWrites action => (action.outcome schema world).world

def World.serveAll (schema : ForgeSchema) (world : World) (requests : List Request) : World :=
  requests.foldl (World.serve schema) world

def World.Throughout (schema : ForgeSchema) (C : World → Request → Prop) :
    World → List Request → Prop
  | _, [] => True
  | world, request :: rest =>
      C world request ∧ World.Throughout schema C (world.serve schema request) rest

instance decidableThroughout (schema : ForgeSchema) (C : World → Request → Prop)
    [∀ world request, Decidable (C world request)] :
    ∀ world requests, Decidable (World.Throughout schema C world requests)
  | _, [] => isTrue trivial
  | world, request :: rest =>
      have := decidableThroughout schema C (world.serve schema request) rest
      inferInstanceAs (Decidable (_ ∧ _))

/-! ### What a fan-out registers -/

section Fan

variable (K : Registry → String → TopicIdentity → Prop)

def FanOutMeets (substrate : Substrate) (wire : Wire) (projector : Option RowProjector) (db : Db) :
    Registry → List Touched → Prop
  | _, [] => True
  | broadcast, t :: rest =>
      match deriveBytes substrate db broadcast t with
      | .error _ => True
      | .ok bytes =>
          (broadcast.get t.channel = none → K broadcast t.channel .static) ∧
            FanOutMeets substrate wire projector db
              (publish wire projector broadcast t bytes).2 rest

def Request.Meets (schema : ForgeSchema) (world : World) : Request → Prop
  | .call op => op.Meets K world.broadcast
  | .applyWrites action =>
      match commitWrites action.substrate schema action.writes action.principal world.db with
      | .error _ => True
      | .ok (touched, db) =>
          FanOutMeets K action.substrate action.wire action.projector db world.broadcast touched

variable {K} {P : Registry → Prop}

theorem sameTopics_publish (wire : Wire) (projector : Option RowProjector) (broadcast : Registry)
    (t : Touched) (bytes : List Char) :
    (broadcast.topic t.channel bytes).SameTopics (publish wire projector broadcast t bytes).2 := by
  have hfirst := Registry.sameTopics_writeTopicDelta (broadcast.topic t.channel bytes) wire
    t.channel (fun previous => ⟨bytes, (updateOf t.slot (renderRows projector broadcast t bytes).1
      (renderRows projector broadcast t bytes).2 bytes previous).1⟩)
  unfold publish
  dsimp only
  split
  · exact hfirst
  · exact hfirst.trans (Registry.sameTopics_writeTopicDelta _ wire t.channel _)

theorem fanOut_kept (hk : Kept P K) {substrate : Substrate} {wire : Wire}
    {projector : Option RowProjector} {db : Db} {touched : List Touched} {broadcast : Registry}
    (h : P broadcast) (hmeet : FanOutMeets K substrate wire projector db broadcast touched) :
    P (fanOut substrate wire projector db broadcast touched).2.1 := by
  induction touched generalizing broadcast with
  | nil => exact h
  | cons t touched ih =>
      unfold fanOut
      unfold FanOutMeets at hmeet
      cases hbytes : deriveBytes substrate db broadcast t with
      | error err => exact h
      | ok bytes =>
          simp only [hbytes] at hmeet
          exact ih (hk.same (sameTopics_publish wire projector broadcast t bytes)
            (hk.topicWithIdentity h hmeet.1 bytes)) hmeet.2

theorem serve_kept (hk : Kept P K) {schema : ForgeSchema} {world : World} (h : P world.broadcast)
    {request : Request} (hmeet : request.Meets K schema world) :
    P (world.serve schema request).broadcast := by
  cases request with
  | call op => exact hk.perform h hmeet
  | applyWrites action =>
      rw [World.serve, Call.outcome, Albedo.Forge.applyWrites]
      rw [Request.Meets] at hmeet
      split_ifs
      · exact h
      · cases hcommit : commitWrites action.substrate schema action.writes action.principal
          world.db with
        | error failure => exact h
        | ok committed =>
            rw [hcommit] at hmeet
            have hfan := fanOut_kept hk h hmeet
            dsimp only
            revert hfan
            rcases fanOut action.substrate action.wire action.projector committed.2
              world.broadcast committed.1 with ⟨published, broadcast, _ | err⟩
            · exact fun hfan => Registry.enforceByteBudget_induction hfan
                (fun _ _ h => hk.drop h) _
            · exact id

/-- What the two changes of the catalogue keep, a run keeps, where its registrations meet
what the property needs. -/
theorem serveAll_kept (hk : Kept P K) {schema : ForgeSchema} {world : World}
    (h : P world.broadcast) {requests : List Request}
    (hmeet : World.Throughout schema (fun world request => request.Meets K schema world) world
      requests) : P (world.serveAll schema requests).broadcast := by
  induction requests generalizing world with
  | nil => exact h
  | cons request requests ih => exact ih (serve_kept hk h hmeet.1) hmeet.2

/-! ### Deciding what a run needs -/

variable [∀ reg name identity, Decidable (K reg name identity)]

instance decidableFanOutMeets (substrate : Substrate) (wire : Wire)
    (projector : Option RowProjector) (db : Db) :
    ∀ broadcast touched, Decidable (FanOutMeets K substrate wire projector db broadcast touched)
  | _, [] => isTrue trivial
  | broadcast, t :: rest =>
      match hbytes : deriveBytes substrate db broadcast t with
      | .error _ => isTrue (by simp only [FanOutMeets, hbytes])
      | .ok bytes =>
          have := decidableFanOutMeets substrate wire projector db
            (publish wire projector broadcast t bytes).2 rest
          decidable_of_iff
            ((broadcast.get t.channel = none → K broadcast t.channel .static) ∧
              FanOutMeets K substrate wire projector db
                (publish wire projector broadcast t bytes).2 rest)
            (by simp only [FanOutMeets, hbytes])

instance decidableMeets (schema : ForgeSchema) (world : World) :
    ∀ request : Request, Decidable (request.Meets K schema world)
  | .call op => inferInstanceAs (Decidable (op.Meets K world.broadcast))
  | .applyWrites action =>
      match hcommit : commitWrites action.substrate schema action.writes action.principal
          world.db with
      | .error _ => isTrue (by simp only [Request.Meets, hcommit])
      | .ok (touched, db) =>
          decidable_of_iff
            (FanOutMeets K action.substrate action.wire action.projector db world.broadcast touched)
            (by simp only [Request.Meets, hcommit])

end Fan

/-! ### Wire slots -/

def GuardPasses (reg : Registry) (name : String) (_ : TopicIdentity) : Prop :=
  reg.guardSlotId name = .ok ()

instance (reg : Registry) (name : String) (identity : TopicIdentity) :
    Decidable (GuardPasses reg name identity) :=
  inferInstanceAs (Decidable (_ = _))

/-- Where boot passed its check and every registration that asks no guard is one the guard
would let through, no two live topics share a wire slot. -/
theorem slots_distinct_of_guarded {schema : ForgeSchema} {topics : List (String × List Char)}
    {db : Db} {requests : List Request}
    (hboot : checkTopicSlotIds (topics.map Prod.fst) = .ok ())
    (hguarded : World.Throughout schema
      (fun world request => request.Meets GuardPasses schema world)
      ⟨db, .boot topics⟩ requests) :
    (World.serveAll schema ⟨db, .boot topics⟩ requests).broadcast.SlotsDistinct :=
  (serveAll_kept slotsHeld_kept (Registry.slotsHeld_boot hboot) hguarded).distinct

def rooms : ForgeCollection where
  topic := "room"
  table := "room"
  keyColumn := "id"
  fields := [("name", ⟨.text, false⟩)]
  orderBy := [⟨"id", .asc⟩]
  sort := [⟨"id", .asc⟩]
  partitionBy := some "name"
  identityPartitioned := false
  edit := .anyone
  table_safe := by decide
  key_safe := guestbook.key_safe
  key_fresh := by decide
  fields_nodup := by decide
  partition_declared := by decide
  sort_head := guestbook.sort_head

def roomsSchema : ForgeSchema := ⟨[rooms], by simp⟩

theorem no_rows_sorted : ([] : List Row).Pairwise fun r s => r.key < s.key := .nil

def roomsDb : Db where
  tables := fun name =>
    if name = "room" then
      some ⟨"room", "id", [("name", ⟨.text, false⟩)], [], 0, no_rows_sorted, by decide⟩
    else none
  authors := fun _ => none

def postTo (room : String) : Request :=
  .applyWrites ⟨.plain, .plain, none, none, [.append "room" (.single "name" (.string room))]⟩

/-- A message to one room, whose channel is free. -/
theorem slots_distinct_of_guarded_room :
    (World.serveAll roomsSchema ⟨roomsDb, .boot [("room", "[]".toList)]⟩
      [postTo "80939"]).broadcast.SlotsDistinct :=
  slots_distinct_of_guarded (by decide) (by decide +kernel)

/-- Two rooms whose channels hash to one wire slot, each with a message: both are live. -/
theorem rooms_share_slot :
    checkTopicSlotIds ["room"] = .ok () ∧
      ¬ (World.serveAll roomsSchema ⟨roomsDb, .boot [("room", "[]".toList)]⟩
        [postTo "80939", postTo "1016344"]).broadcast.SlotsDistinct := by
  refine ⟨by decide, fun h => ?_⟩
  have hlive : ((World.serveAll roomsSchema ⟨roomsDb, .boot [("room", "[]".toList)]⟩
      [postTo "80939", postTo "1016344"]).broadcast.look Topic.slotId "room:80939",
      (World.serveAll roomsSchema ⟨roomsDb, .boot [("room", "[]".toList)]⟩
      [postTo "80939", postTo "1016344"]).broadcast.look Topic.slotId "room:1016344") =
        (some (broadcastSlotId "room:80939"), some (broadcastSlotId "room:80939")) := by
    decide +kernel
  obtain ⟨hfirst, hsecond⟩ := Prod.mk.inj hlive
  obtain ⟨s, hs, hslot⟩ := Option.map_eq_some_iff.mp hfirst
  obtain ⟨t, ht, hslot'⟩ := Option.map_eq_some_iff.mp hsecond
  exact absurd (h _ _ s t hs ht (hslot.trans hslot'.symm)) (by decide)

end Albedo.Forge
