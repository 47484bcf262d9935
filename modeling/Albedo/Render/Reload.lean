import Albedo.Render.RowProjector

/-!
# Projected rows and reloaded rows

What a subscriber is sent against what a request of theirs would render. The two
renders share the collection's value and the partition's key, and nothing else is
promised to agree.
-/
namespace Albedo.Render
open Aperture Broadcast Forge Json KeyedList Topics

/-! ### Who is sent the rows -/

def channelOf (collection : String) : Option String → Option String
  | none => some collection
  | some key => partitionTopicName collection key

structure Subscribes (plan : TierBEntryPlan) (collection : String) (partition : Option String)
    (value : List Char) (request : PageRequest) (props : Value) (channel : String) : Prop where
  channel_eq : channelOf collection partition = some channel
  current : request.broadcast channel = some value
  props_eq : plan.component.props request.ctx = .ok props
  reads_static : partition = none → collection ∈ plan.component.topics
  reads_partition : ∀ key, partition = some key →
    ∃ spec ∈ plan.partitionsOf collection,
      spec.key.valueIn (principalOf props) (paramOf props) = some key

structure Environment where
  modules : List LoadedModule
  props : Value
  host : Value
  anchor : String

def Environment.rows (pool : Pool) (plan : TierBEntryPlan) (env : Environment) :
    Option RenderedRows :=
  (pool.renderComponentWithHost env.modules plan.entry env.props env.host).bind fun html =>
    extractKeyedRows html env.anchor

def PageRequest.environment (request : PageRequest) (pool : Pool)
    (formErrorSpans : List (String × Value)) (plan : TierBEntryPlan) (props : Value)
    (channel : String) : Environment where
  modules := plan.stamped
  props := props
  host := hostSeedFor pool plan (resolvePartitionsForProps plan.component props)
    (resolveSourcesForProps request.registry plan.component props) request.broadcast formErrorSpans
  anchor := channel

/-- The props of a component that is given no more than the key it partitions by. -/
def TierBEntryPlan.bareProps (plan : TierBEntryPlan) (collection : String) :
    Option String → Value
  | none => .object []
  | some key =>
    .object [("params", .object (keyedParams key (plan.partitionsOf collection))),
      ("user", keyedUser key (plan.partitionsOf collection))]

/-- An environment with the collection's value and the key and nothing else: no
stamps, no other topics, parameters or viewer. -/
def TierBEntryPlan.bare (plan : TierBEntryPlan) (formErrorSpans : List (String × Value))
    (collection : String) (partition : Option String) (value : Value) : Environment where
  modules := plan.unstamped
  props := plan.bareProps collection partition
  host :=
    let topics := collect ((plan.partitionsOf collection).map fun spec =>
      (spec.binding, Value.string collection))
    .object ([("shared", .object [(collection, value)])] ++
      (if topics.isEmpty then [] else [("topics", .object topics)]) ++ spansSeed formErrorSpans)
  anchor := collection

/-! ### The claim and its condition -/

/-- Every row that is projected is the row of that key in the page that any
subscriber of the channel would be rendered. -/
def PaintsReload (projector : PooledRowProjector) (pool : Pool) : Prop :=
  ∀ collection partition value rows name plan,
    projector.projectRows pool collection partition value = some rows →
    projector.soleReader collection = some (name, plan) →
    ∀ request props channel, Subscribes plan collection partition value request props channel →
      ∃ html page, request.call pool projector.formErrorSpans plan = some html ∧
        extractKeyedRows html channel = some page ∧
        ∀ key row, rows.get key = some row → page.get key = some row

/-- Whatever rows the component renders from the collection's value and the key
alone, it renders in the page of every subscriber too. -/
def RowsNeedNoMore (projector : PooledRowProjector) (pool : Pool) : Prop :=
  ∀ collection partition value name plan,
    projector.soleReader collection = some (name, plan) →
    ∀ parsed rows, pool.fromSlice value = some parsed →
      (plan.bare projector.formErrorSpans collection partition parsed).rows pool plan = some rows →
      ∀ request props channel, Subscribes plan collection partition value request props channel →
        ∃ page, (request.environment pool projector.formErrorSpans plan props channel).rows pool
            plan = some page ∧
          ∀ key row, rows.get key = some row → page.get key = some row

/-- The component finds the value under the topic its list is anchored to, and the
key where the partition takes it from. -/
structure Knows (plan : TierBEntryPlan) (collection : String) (partition : Option String)
    (value : Value) (env : Environment) : Prop where
  modules : env.modules.map (fun m => (m.specifier, m.code)) = plan.modules
  seen : ∃ shared, env.host.get "shared" = some shared ∧ shared.get env.anchor = some value
  static : partition = none → env.anchor = collection
  keyed : ∀ key, partition = some key →
    ∃ spec ∈ plan.partitionsOf collection,
      spec.key.valueIn (principalOf env.props) (paramOf env.props) = some key ∧
        ∃ topics, env.host.get "topics" = some topics ∧
          topics.get spec.binding = some (.string env.anchor)

/-- The rows of a component are a function of the value and the key: the stamps of
its modules, its viewer, its other parameters and topics do not show in them. -/
def RowsFromValue (plan : TierBEntryPlan) (pool : Pool) (collection : String) : Prop :=
  (plan.component.partitions.map PartitionTopicSpec.binding ++
    plan.component.sources.map SourceTopicSpec.binding).Nodup ∧
  ∃ template : Option String → Value → Option RenderedRows, ∀ partition value env,
    Knows plan collection partition value env → env.rows pool plan = template partition value

/-! ### The projected environment -/

variable {projector : PooledRowProjector} {pool : Pool} {plan : TierBEntryPlan}
variable {collection name : String} {partition : Option String} {value : List Char}

theorem projectRows_eq (hsole : projector.soleReader collection = some (name, plan)) :
    projector.projectRows pool collection partition value =
      (pool.fromSlice value).bind fun parsed =>
        (plan.bare projector.formErrorSpans collection partition parsed).rows pool plan := by
  have hprops : projector.propsFor collection partition = plan.bareProps collection partition := by
    cases partition with
    | none => rfl
    | some key => simp [PooledRowProjector.propsFor, TierBEntryPlan.bareProps, hsole]
  unfold PooledRowProjector.projectRows PooledRowProjector.hostSeed
  rw [hsole, hprops]
  cases pool.fromSlice value with
  | none => rfl
  | some parsed => rfl

theorem call_eq {request : PageRequest} {props : Value} {channel : String}
    {spans : List (String × Value)}
    (h : Subscribes plan collection partition value request props channel) :
    (request.call pool spans plan).bind (fun html => extractKeyedRows html channel) =
      (request.environment pool spans plan props channel).rows pool plan := by
  rw [PageRequest.call, h.props_eq]
  rfl

theorem paintsReload_iff : PaintsReload projector pool ↔ RowsNeedNoMore projector pool := by
  constructor
  · intro h collection partition value name plan hsole parsed rows hparsed hrows request props
      channel hsub
    have hproject : projector.projectRows pool collection partition value = some rows := by
      rw [projectRows_eq hsole, hparsed]
      exact hrows
    obtain ⟨html, page, hcall, hpage, hsame⟩ :=
      h collection partition value rows name plan hproject hsole request props channel hsub
    refine ⟨page, ?_, hsame⟩
    rw [← call_eq hsub, hcall]
    exact hpage
  · intro h collection partition value rows name plan hproject hsole request props channel hsub
    rw [projectRows_eq hsole, Option.bind_eq_some_iff] at hproject
    obtain ⟨parsed, hparsed, hrows⟩ := hproject
    obtain ⟨page, hpage, hsame⟩ := h collection partition value name plan hsole parsed rows
      hparsed hrows request props channel hsub
    rw [← call_eq hsub, Option.bind_eq_some_iff] at hpage
    obtain ⟨html, hcall, hextract⟩ := hpage
    exact ⟨html, page, hcall, hextract, hsame⟩

/-! ### Rows that come from the value alone -/

theorem lookup_collect {α : Type} {entries : List (String × α)} {k : String} {v : α}
    (hall : ∀ e ∈ entries, e.1 = k → e.2 = v) (hk : k ∈ keys entries) :
    (collect entries).lookup k = some v := by
  induction entries using List.reverseRecOn with
  | nil => simp at hk
  | append_singleton entries e ih =>
    rw [collect, List.foldl_append, List.foldl_cons, List.foldl_nil, lookup_put]
    by_cases he : k = e.1
    · rw [if_pos he, hall e (by simp) he.symm]
    · rw [if_neg he]
      rw [keys_append, List.mem_append] at hk
      exact ih (fun f hf => hall f (List.mem_append_left _ hf))
        (hk.resolve_right (by simpa using he))

theorem collect_isEmpty_of_mem {α : Type} {entries : List (String × α)} {e : String × α}
    (he : e ∈ entries) : (collect entries).isEmpty = false := by
  have hput (held : List (String × α)) (f : String × α) : (put f.1 f.2 held).isEmpty = false := by
    cases held with
    | nil => rfl
    | cons g held =>
      rw [put]
      split_ifs <;> rfl
  obtain rfl | ⟨front, last, rfl⟩ := List.eq_nil_or_concat entries
  · simp at he
  · rw [List.concat_eq_append, collect, List.foldl_append]
    exact hput _ _

theorem host_shared {shared : Value} {rest : List (String × Value)} {a : Bool} (ha : a = false) :
    (Value.object ((if a then [] else [("shared", shared)]) ++ rest)).get "shared" =
      some shared := by
  subst ha
  rfl

theorem host_topics {shared topics : Value} {rest : List (String × Value)} {a b : Bool}
    (hb : b = false) :
    (Value.object ((if a then [] else [("shared", shared)]) ++
      (if b then [] else [("topics", topics)]) ++ rest)).get "topics" = some topics := by
  subst hb
  cases a <;> rfl

theorem keyIn_bare {key : String} {spec : PartitionTopicSpec}
    (hspec : spec ∈ plan.partitionsOf collection) (hkey : isValidPartitionKey key = true) :
    spec.key.valueIn (principalOf (plan.bareProps collection (some key)))
      (paramOf (plan.bareProps collection (some key))) = some key := by
  cases hsource : spec.key with
  | routeParam parameter =>
    have hlookup : (keyedParams key (plan.partitionsOf collection)).lookup parameter =
        some (.string key) := by
      refine lookup_collect (fun e he _ => ?_) ?_
      · obtain ⟨other, _, hother⟩ := List.mem_filterMap.mp he
        cases hkind : other.key with
        | routeParam _ =>
          rw [hkind] at hother
          cases hother
          rfl
        | identity =>
          rw [hkind] at hother
          cases hother
      · refine mem_keys.mpr ⟨.string key, List.mem_filterMap.mpr ⟨spec, hspec, ?_⟩⟩
        rw [hsource]
    simp [PartitionKeySource.valueIn, paramOf, TierBEntryPlan.bareProps, Value.get, hlookup, asStr]
  | identity =>
    have huser : keyedUser key (plan.partitionsOf collection) = .object [("id", .string key)] := by
      rw [keyedUser, if_pos]
      exact List.any_eq_true.mpr ⟨spec, hspec, by simpa using hsource⟩
    have hget : (plan.bareProps collection (some key)).get "user" =
        some (.object [("id", .string key)]) := by
      rw [← huser]
      rfl
    have hprincipal : principalOf (plan.bareProps collection (some key)) = some ⟨key, hkey⟩ := by
      rw [principalOf, hget]
      change parsePrincipal key = _
      rw [parsePrincipal, dif_pos hkey]
    rw [PartitionKeySource.valueIn, hprincipal, Option.map_some]

theorem knows_bare {request : PageRequest} {props parsed : Value} {channel : String}
    {spans : List (String × Value)}
    (h : Subscribes plan collection partition value request props channel) :
    Knows plan collection partition parsed (plan.bare spans collection partition parsed) where
  modules := by simp [TierBEntryPlan.bare, TierBEntryPlan.unstamped, Function.comp_def]
  seen := by
    refine ⟨.object [(collection, parsed)], ?_, ?_⟩ <;> simp [TierBEntryPlan.bare, Value.get]
  static := fun _ => rfl
  keyed := by
    rintro key rfl
    obtain ⟨spec, hspec, _⟩ := h.reads_partition key rfl
    have hkey := (partitionTopicName_eq h.channel_eq).1
    have hmem : (spec.binding, Value.string collection) ∈
        (plan.partitionsOf collection).map fun spec => (spec.binding, Value.string collection) :=
      List.mem_map_of_mem hspec
    refine ⟨spec, hspec, keyIn_bare hspec hkey, .object _,
      host_topics (a := false) (collect_isEmpty_of_mem hmem), ?_⟩
    · refine lookup_collect (fun e he _ => ?_) (mem_keys.mpr ⟨_, hmem⟩)
      obtain ⟨other, _, rfl⟩ := List.mem_map.mp he
      rfl

theorem resolved_of_reads {props : Value} {key channel : String} {spec : PartitionTopicSpec}
    (hspec : spec ∈ plan.partitionsOf collection)
    (hvalue : spec.key.valueIn (principalOf props) (paramOf props) = some key)
    (hchannel : partitionTopicName collection key = some channel) :
    ⟨spec.binding, channel, collection, key⟩ ∈ resolvePartitionsForProps plan.component props := by
  obtain ⟨hmem, hcollection⟩ := List.mem_filter.mp hspec
  have hcollection : spec.collection = collection := by simpa using hcollection
  have hsome : plan.component.partitions.isEmpty = false := by
    cases hlist : plan.component.partitions with
    | nil =>
      rw [hlist] at hmem
      exact absurd hmem List.not_mem_nil
    | cons _ _ => rfl
  rw [resolvePartitionsForProps, hsome]
  refine List.mem_filterMap.mpr ⟨spec, hmem, ?_⟩
  simp [resolvePartition, hvalue, hcollection, hchannel]

theorem reads_channel {request : PageRequest} {props : Value} {channel : String}
    (h : Subscribes plan collection partition value request props channel) :
    channel ∈ plan.component.topics ++
      (resolvePartitionsForProps plan.component props).map ResolvedPartition.topic ++
      (resolveSourcesForProps request.registry plan.component props).map
        ResolvedSourceTopic.topic := by
  refine List.mem_append_left _ (List.mem_append.mpr ?_)
  cases hpartition : partition with
  | none =>
    have hname := h.channel_eq
    rw [hpartition] at hname
    cases hname
    exact Or.inl (h.reads_static hpartition)
  | some key =>
    obtain ⟨spec, hspec, hvalue⟩ := h.reads_partition key hpartition
    have hname := h.channel_eq
    rw [hpartition] at hname
    exact Or.inr (List.mem_map.mpr ⟨_, resolved_of_reads hspec hvalue hname, rfl⟩)

theorem topics_channel (request : PageRequest) {props : Value} {key channel : String}
    {spec : PartitionTopicSpec}
    (hbindings : (plan.component.partitions.map PartitionTopicSpec.binding ++
      plan.component.sources.map SourceTopicSpec.binding).Nodup)
    (hspec : spec ∈ plan.partitionsOf collection)
    (hvalue : spec.key.valueIn (principalOf props) (paramOf props) = some key)
    (hchannel : partitionTopicName collection key = some channel) :
    (collect ((resolvePartitionsForProps plan.component props).map
        (fun p => (p.binding, Value.string p.topic)) ++
      (resolveSourcesForProps request.registry plan.component props).map
        (fun s => (s.binding, Value.string s.topic)))).lookup spec.binding =
      some (.string channel) := by
  obtain ⟨hmem, hcollection⟩ := List.mem_filter.mp hspec
  have hcollection : spec.collection = collection := by simpa using hcollection
  have hresolved := resolved_of_reads hspec hvalue hchannel
  refine lookup_collect (fun e he hbinding => ?_)
    (mem_keys.mpr ⟨_, List.mem_append_left _ (List.mem_map_of_mem hresolved)⟩)
  rcases List.mem_append.mp he with hpartition | hsource
  · obtain ⟨p, hp, rfl⟩ := List.mem_map.mp hpartition
    rw [resolvePartitionsForProps] at hp
    split_ifs at hp
    · exact absurd hp List.not_mem_nil
    · obtain ⟨other, hother, hmade⟩ := List.mem_filterMap.mp hp
      have hsame : other = spec := by
        refine List.inj_on_of_nodup_map (List.nodup_append.mp hbindings).1 hother hmem ?_
        rw [← hbinding]
        simp only [resolvePartition, Option.bind_eq_bind, Option.bind_eq_some_iff] at hmade
        obtain ⟨_, _, _, _, hp⟩ := hmade
        cases hp
        rfl
      subst hsame
      simp only [resolvePartition, hvalue, hcollection, hchannel, Option.bind_eq_bind,
        Option.bind_some] at hmade
      cases hmade
      rfl
  · obtain ⟨s, hs, rfl⟩ := List.mem_map.mp hsource
    rw [resolveSourcesForProps] at hs
    split_ifs at hs
    · exact absurd hs List.not_mem_nil
    · cases hregistry : request.registry with
      | none =>
        rw [hregistry] at hs
        exact absurd hs List.not_mem_nil
      | some registry =>
        rw [hregistry] at hs
        obtain ⟨other, hother, hmade⟩ := List.mem_filterMap.mp hs
        have hname : other.binding = spec.binding := by
          rw [← hbinding]
          simp only [resolveSource, Option.bind_eq_bind, Option.bind_eq_some_iff] at hmade
          obtain ⟨_, _, _, _, hs⟩ := hmade
          cases hs
          rfl
        exact absurd hname.symm ((List.nodup_append.mp hbindings).2.2 _
          (List.mem_map_of_mem hmem) _ (List.mem_map_of_mem hother))

theorem knows_page {request : PageRequest} {props parsed : Value} {channel : String}
    {spans : List (String × Value)}
    (hbindings : (plan.component.partitions.map PartitionTopicSpec.binding ++
      plan.component.sources.map SourceTopicSpec.binding).Nodup)
    (hparsed : pool.fromSlice value = some parsed)
    (h : Subscribes plan collection partition value request props channel) :
    Knows plan collection partition parsed
      (request.environment pool spans plan props channel) where
  modules := by simp [PageRequest.environment, TierBEntryPlan.stamped, Function.comp_def]
  seen := by
    have hvalue : value.isEmpty = false := by
      cases value with
      | nil =>
        rw [pool.fromSlice_nil] at hparsed
        cases hparsed
      | cons _ _ => rfl
    have hmem : (channel, parsed) ∈ (plan.component.topics ++
        (resolvePartitionsForProps plan.component props).map ResolvedPartition.topic ++
        (resolveSourcesForProps request.registry plan.component props).map
          ResolvedSourceTopic.topic).filterMap fun topic =>
            (request.broadcast topic).map fun bytes =>
              (topic, if bytes.isEmpty then .null else (pool.fromSlice bytes).getD .null) := by
      refine List.mem_filterMap.mpr ⟨channel, reads_channel h, ?_⟩
      rw [h.current, Option.map_some, hvalue, hparsed]
      rfl
    refine ⟨.object (sharedSlotHostSeed pool (plan.component.topics ++
      (resolvePartitionsForProps plan.component props).map ResolvedPartition.topic ++
      (resolveSourcesForProps request.registry plan.component props).map
        ResolvedSourceTopic.topic) request.broadcast), ?_, ?_⟩
    · simp only [PageRequest.environment, hostSeedFor, List.append_assoc]
      rw [List.append_assoc] at hmem
      exact host_shared (collect_isEmpty_of_mem hmem)
    · refine lookup_collect (fun e he hchannel => ?_) (mem_keys.mpr ⟨_, hmem⟩)
      obtain ⟨topic, _, hmade⟩ := List.mem_filterMap.mp he
      obtain ⟨bytes, hbytes, rfl⟩ := Option.map_eq_some_iff.mp hmade
      have htopic : topic = channel := hchannel
      subst htopic
      rw [h.current] at hbytes
      cases hbytes
      rw [hvalue, hparsed]
      rfl
  static := by
    rintro rfl
    have hname := h.channel_eq
    cases hname
    rfl
  keyed := by
    rintro key rfl
    obtain ⟨spec, hspec, hvalue⟩ := h.reads_partition key rfl
    have hresolved := resolved_of_reads hspec hvalue h.channel_eq
    have hsome : (resolvePartitionsForProps plan.component props).isEmpty = false := by
      cases hlist : resolvePartitionsForProps plan.component props with
      | nil =>
        rw [hlist] at hresolved
        exact absurd hresolved List.not_mem_nil
      | cons _ _ => rfl
    refine ⟨spec, hspec, hvalue, .object _, ?_,
      topics_channel request hbindings hspec hvalue h.channel_eq⟩
    refine host_topics ?_
    rw [hsome]
    rfl

theorem rowsNeedNoMore_of_rowsFromValue
    (h : ∀ collection name plan, projector.soleReader collection = some (name, plan) →
      RowsFromValue plan pool collection) : RowsNeedNoMore projector pool := by
  intro collection partition value name plan hsole parsed rows hparsed hrows request props channel
    hsub
  obtain ⟨hbindings, template, htemplate⟩ := h collection name plan hsole
  have hbare := htemplate partition parsed
    (plan.bare projector.formErrorSpans collection partition parsed) (knows_bare hsub)
  have hpage := htemplate partition parsed
    (request.environment pool projector.formErrorSpans plan props channel)
    (knows_page hbindings hparsed hsub)
  refine ⟨rows, ?_, fun _ _ hrow => hrow⟩
  rw [hpage, ← hbare]
  exact hrows

def quoted (text : String) : String := String.singleton '"' ++ text ++ String.singleton '"'

def postRow (text : String) : String :=
  "<li data-albedo-key=" ++ quoted "1" ++ ">" ++ text ++ "</li>"

def feedHtml (text : String) : Html :=
  ("<ul data-albedo-list-slot=" ++ quoted "posts" ++ ">" ++ postRow text ++ "</ul>").toList

def feedPlan : TierBEntryPlan :=
  ⟨⟨0, "Feed", "routes/feed.tsx", true, ["posts"], [], []⟩, "routes/feed.tsx", [], [], []⟩

def feedProjector : PooledRowProjector := ⟨[("render::Feed", feedPlan)], [], none⟩

def plainPool : Pool where
  fromSlice := fun bytes => if bytes.isEmpty then none else some .null
  fromSlice_nil := rfl
  renderComponentWithHost := fun _ _ _ _ => some (feedHtml "a post")

def greetingPool : Pool where
  fromSlice := fun bytes => if bytes.isEmpty then none else some .null
  fromSlice_nil := rfl
  renderComponentWithHost := fun _ _ props _ =>
    some (feedHtml (((principalOf props).map PrincipalId.id).getD "guest"))

theorem soleReader_feed {found : String × TierBEntryPlan}
    (h : feedProjector.soleReader collection = some found) :
    collection = "posts" ∧ found.2 = feedPlan := by
  by_cases hread : feedPlan.readsCollection collection = true
  · have hname : collection = "posts" := by
      simpa [TierBEntryPlan.readsCollection, feedPlan] using hread
    subst hname
    have hfound : feedProjector.soleReader "posts" = some ("render::Feed", feedPlan) := rfl
    rw [hfound] at h
    cases h
    exact ⟨rfl, rfl⟩
  · have hnone : feedProjector.soleReader collection = none := by
      simp [PooledRowProjector.soleReader, feedProjector, soleIn, hread]
    rw [hnone] at h
    cases h

def mira : Principal := ⟨⟨"mira", by decide⟩, none, none, none, "", []⟩

def mirasRequest : PageRequest :=
  ⟨requestContext "/feed" [] [] [] (some mira), none, fun _ => some ['0']⟩

end Albedo.Render
