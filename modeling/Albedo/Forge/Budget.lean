import Albedo.Runtime.Sweep
import Albedo.Forge.LiveTopics

/-!
# The memory of idle partitions

A partition channel can be reclaimed when it was registered as a partition. A read mints
it so; the write path and a subscription register whatever they meet first as static. As
long as no partition channel is first met there, every one is evictable, and each sweep
leaves the idle ones within the budget.
-/
namespace Albedo.Forge
open Json Broadcast

def partitionKeyOf (collection channel : String) : Option String :=
  let head := (collection ++ ":").toList
  if head <+: channel.toList then
    some (String.ofList (channel.toList.drop head.length))
  else none

def ForgeSchema.isPartition (schema : ForgeSchema) (channel : String) : Bool :=
  schema.collections.any fun c =>
    c.partitionBy.isSome && (partitionKeyOf c.topic channel).any isValidPartitionKey

def idlePartitionBytes (schema : ForgeSchema) (reg : Registry) : ℕ :=
  bytesOf (reg.topicList.filter fun t => schema.isPartition t.name && t.subscribers.keys.isEmpty)

def PartitionsEvictable (schema : ForgeSchema) (reg : Registry) : Prop :=
  ∀ x t, reg.get x = some t → schema.isPartition x = true → t.identity.isEvictable = true

def Reclaimable (schema : ForgeSchema) (_ : Registry) (name : String) (identity : TopicIdentity) :
    Prop :=
  schema.isPartition name = true → identity.isEvictable = true

instance (schema : ForgeSchema) (reg : Registry) (name : String) (identity : TopicIdentity) :
    Decidable (Reclaimable schema reg name identity) :=
  inferInstanceAs (Decidable (_ → _))

theorem partitionsEvictable_kept (schema : ForgeSchema) :
    Kept (fun reg => reg.Named ∧ PartitionsEvictable schema reg) (Reclaimable schema) where
  same := by
    intro reg reg' hsame h
    refine ⟨named_kept.same hsame h.1, fun x t' ht' hpartition => ?_⟩
    obtain ⟨t, ht, hlabel⟩ := hsame.get ht'
    simp only [Topic.label, Prod.mk.injEq] at hlabel
    rw [← hlabel.2.2]
    exact h.2 x t ht hpartition
  register := by
    intro reg name initial identity h hget hname
    refine ⟨named_kept.register h.1 hget trivial, fun x t ht hpartition => ?_⟩
    rcases Registry.get_topicWithIdentity ht with ht | ⟨rfl, _, hlabel⟩
    · exact h.2 x t ht hpartition
    · simp only [Topic.label, Prod.mk.injEq] at hlabel
      rw [hlabel.2.2]
      exact hname hpartition
  drop := by
    intro reg name h
    exact ⟨named_kept.drop h.1, fun x t ht => h.2 x t (Registry.get_dropIfIdle ht)⟩

theorem idlePartitionBytes_le {schema : ForgeSchema} {reg : Registry} (hnamed : reg.Named)
    (h : PartitionsEvictable schema reg) : idlePartitionBytes schema reg ≤ reg.idleBytes := by
  refine bytesOf_filter_le fun t ht hidle => ?_
  obtain ⟨name, hget⟩ := Registry.mem_topicList ht
  obtain ⟨hpartition, hsubscribers⟩ := Bool.and_eq_true_iff.mp hidle
  rw [(hnamed name t hget).1] at hpartition
  exact Bool.and_eq_true_iff.mpr ⟨h name t hget hpartition, hsubscribers⟩

def WithinBudget (schema : ForgeSchema) (world : World) : Prop :=
  idlePartitionBytes schema world.broadcast ≤ defaultTopicValueBudget

/-- The call gets to its sweep: it commits writes and no read of its fan-out fails. A call
that commits nothing leaves the topics as they are. -/
def Call.Sweeps (action : Call) (schema : ForgeSchema) (world : World) : Prop :=
  if action.writes = [] then WithinBudget schema world
  else
    match commitWrites action.substrate schema action.writes action.principal world.db with
    | .error _ => WithinBudget schema world
    | .ok (touched, db) =>
        (fanOut action.substrate action.wire action.projector db world.broadcast touched).2.2 = none

theorem Call.withinBudget {schema : ForgeSchema} {world : World} {action : Call}
    (hnamed : world.broadcast.Named) (h : PartitionsEvictable schema world.broadcast)
    (hmeet : (Request.applyWrites action).Meets (Reclaimable schema) schema world)
    (hsweeps : action.Sweeps schema world) :
    WithinBudget schema (world.serve schema (.applyWrites action)) := by
  rw [Request.Meets] at hmeet
  rw [Call.Sweeps] at hsweeps
  rw [World.serve, Call.outcome, Albedo.Forge.applyWrites]
  split_ifs at hsweeps ⊢ with hwrites
  · exact hsweeps
  · cases hcommit : commitWrites action.substrate schema action.writes action.principal
      world.db with
    | error failure =>
        rw [hcommit] at hsweeps
        exact hsweeps
    | ok committed =>
        rw [hcommit] at hsweeps hmeet
        have hfan := fanOut_kept (partitionsEvictable_kept schema) ⟨hnamed, h⟩ hmeet
        dsimp only at hsweeps ⊢
        revert hfan hsweeps
        rcases fanOut action.substrate action.wire action.projector committed.2 world.broadcast
          committed.1 with ⟨published, broadcast, err⟩
        rintro rfl ⟨hfanNamed, hfanEvictable⟩
        have hswept : (broadcast.enforceByteBudget defaultTopicValueBudget).Named ∧
            PartitionsEvictable schema (broadcast.enforceByteBudget defaultTopicValueBudget) :=
          Registry.enforceByteBudget_induction
            (P := fun reg => reg.Named ∧ PartitionsEvictable schema reg)
            ⟨hfanNamed, hfanEvictable⟩
            (fun _ _ h => (partitionsEvictable_kept schema).drop h) _
        exact Nat.le_trans (idlePartitionBytes_le hswept.1 hswept.2)
          (Registry.idleBytes_enforceByteBudget hfanNamed _)

instance (action : Call) (schema : ForgeSchema) (world : World) :
    Decidable (action.Sweeps schema world) :=
  if hwrites : action.writes = [] then
    decidable_of_iff (idlePartitionBytes schema world.broadcast ≤ defaultTopicValueBudget)
      (by simp only [Call.Sweeps, WithinBudget, hwrites, if_true])
  else
    match hcommit : commitWrites action.substrate schema action.writes action.principal
        world.db with
    | .error _ =>
        decidable_of_iff (idlePartitionBytes schema world.broadcast ≤ defaultTopicValueBudget)
          (by simp only [Call.Sweeps, WithinBudget, hwrites, hcommit, if_false])
    | .ok (touched, db) =>
        decidable_of_iff ((fanOut action.substrate action.wire action.projector db
            world.broadcast touched).2.2 = none)
          (by simp only [Call.Sweeps, hwrites, hcommit, if_false])

def Request.Sweeps (schema : ForgeSchema) (world : World) : Request → Prop
  | .call _ => True
  | .applyWrites action => action.Sweeps schema world

instance (schema : ForgeSchema) (world : World) :
    ∀ request : Request, Decidable (request.Sweeps schema world)
  | .call _ => isTrue trivial
  | .applyWrites action => inferInstanceAs (Decidable (action.Sweeps schema world))

/-- What a request of the run must be: its registrations leave partitions reclaimable, and
where it is a call, that call gets to its sweep. -/
def Request.KeepsBudget (schema : ForgeSchema) (world : World) (request : Request) : Prop :=
  request.Meets (Reclaimable schema) schema world ∧ request.Sweeps schema world

instance (schema : ForgeSchema) (world : World) (request : Request) :
    Decidable (request.KeepsBudget schema world) :=
  inferInstanceAs (Decidable (_ ∧ _))

/-- Every partition can be reclaimed after the request, and after a call the idle ones fit
in the budget. -/
def Request.Bounds (schema : ForgeSchema) (world : World) (request : Request) : Prop :=
  PartitionsEvictable schema (world.serve schema request).broadcast ∧
    ∀ action, request = .applyWrites action → WithinBudget schema (world.serve schema request)

theorem bounds_of_keepsBudget {schema : ForgeSchema} {world : World} {requests : List Request}
    (hnamed : world.broadcast.Named) (h : PartitionsEvictable schema world.broadcast)
    (hkeeps : World.Throughout schema (Request.KeepsBudget schema) world requests) :
    World.Throughout schema (Request.Bounds schema) world requests := by
  induction requests generalizing world with
  | nil => trivial
  | cons request requests ih =>
      obtain ⟨⟨hmeet, hsweeps⟩, hrest⟩ := hkeeps
      obtain ⟨hnamed', h'⟩ := serve_kept (partitionsEvictable_kept schema) ⟨hnamed, h⟩ hmeet
      refine ⟨⟨h', ?_⟩, ih hnamed' h' hrest⟩
      rintro action rfl
      exact Call.withinBudget hnamed h hmeet hsweeps

/-- In a run that boots no partition channel, where no partition channel is first met by a
registration that is not a read's and every call gets to its sweep, every partition can be
reclaimed, and after each call the idle ones fit in the budget. -/
theorem partitions_bounded {schema : ForgeSchema} {topics : List (String × List Char)} {db : Db}
    {requests : List Request} (hboot : ∀ topic ∈ topics, schema.isPartition topic.1 = false)
    (hkeeps : World.Throughout schema (Request.KeepsBudget schema) ⟨db, .boot topics⟩ requests) :
    World.Throughout schema (Request.Bounds schema) ⟨db, .boot topics⟩ requests := by
  have hstart : (Registry.boot topics).Named ∧ PartitionsEvictable schema (.boot topics) := by
    refine (partitionsEvictable_kept schema).boot (fun topic htopic reg hpartition => ?_)
      ⟨fun _ _ ht => (nomatch ht), fun _ _ ht => (nomatch ht)⟩
    rw [hboot topic htopic] at hpartition
    exact nomatch hpartition
  exact bounds_of_keepsBudget hstart.1 hstart.2 hkeeps

def readRoom (room : String) : Request :=
  .call (.tryTopicPartition ("room:" ++ room) "room" room "[]".toList)

/-- A room that is read before it is posted to. -/
theorem partitions_bounded_room :
    World.Throughout roomsSchema (Request.Bounds roomsSchema)
      ⟨roomsDb, .boot [("room", "[]".toList)]⟩ [readRoom "lobby", postTo "lobby"] :=
  partitions_bounded (by decide) (by decide +kernel)

/-- A room that is posted to before anybody reads it can never be reclaimed. -/
theorem unread_room_is_pinned :
    ¬ World.Throughout roomsSchema (Request.Bounds roomsSchema)
      ⟨roomsDb, .boot [("room", "[]".toList)]⟩ [postTo "lobby"] := by
  intro h
  have hlive : (World.serve roomsSchema ⟨roomsDb, .boot [("room", "[]".toList)]⟩
      (postTo "lobby")).broadcast.look Topic.identity "room:lobby" = some .static := by
    decide +kernel
  obtain ⟨t, ht, hstatic⟩ := Option.map_eq_some_iff.mp hlive
  have hevictable := h.1.1 "room:lobby" t ht (by decide)
  rw [hstatic] at hevictable
  exact nomatch hevictable

end Albedo.Forge
