import Mathlib.Data.List.Dedup
import Albedo.Aperture.Declare
import Albedo.Forge.Statement

/-!
# Topic identities

One resolver turns what a component reads into the topics of a request, from the parameters
the route matched and from who is asking. The render reads both back out of the props it
hands the component; the subscription has them from the lane. The names a request cannot
mint are the ones it cannot be sent.
-/
namespace Albedo.Topics
open Aperture Broadcast Forge Json KeyedList Separator

def splitPartitionTopic (topic : String) : Option (String × String) := do
  let (collection, key) ← rsplitOnce ':' topic.toList
  guard (collection ≠ [] ∧ isValidPartitionKey (String.ofList key))
  return (String.ofList collection, String.ofList key)

/-! ### What a route reads -/

inductive PartitionKeySource where
  | routeParam (name : String)
  | identity
  deriving DecidableEq

structure PartitionTopicSpec where
  binding : String
  collection : String
  column : String
  key : PartitionKeySource
  deriving DecidableEq

inductive SourceArgSpec where
  | param (name param : String)
  | literal (name value : String)
  deriving DecidableEq

def SourceArgSpec.name : SourceArgSpec → String
  | .param name _ | .literal name _ => name

structure SourceTopicSpec where
  binding : String
  source : String
  route : String
  args : List SourceArgSpec
  deriving DecidableEq

/-! ### The resolver -/

structure ResolvedPartition where
  binding : String
  topic : String
  collection : String
  key : String

structure ResolvedSourceTopic where
  binding : String
  topic : String
  source : String
  route : String
  url : String

def PartitionKeySource.valueIn (principal : Option PrincipalId) (param : String → Option String) :
    PartitionKeySource → Option String
  | .routeParam name => param name
  | .identity => principal.map PrincipalId.id

def resolvePartition (principal : Option PrincipalId) (param : String → Option String)
    (spec : PartitionTopicSpec) : Option ResolvedPartition := do
  let key ← spec.key.valueIn principal param
  let topic ← partitionTopicName spec.collection key
  return { binding := spec.binding, topic, collection := spec.collection, key }

def resolvePartitionTopics (specs : List PartitionTopicSpec) (principal : Option PrincipalId)
    (param : String → Option String) : List ResolvedPartition :=
  specs.filterMap (resolvePartition principal param)

def SourceTopicSpec.lookup (spec : SourceTopicSpec) (param : String → Option String)
    (name : String) : Option String := do
  match ← spec.args.find? fun arg => arg.name = name with
  | .literal _ value => return value
  | .param _ supplied => param supplied

def resolveSource (registry : SourceRegistry) (param : String → Option String)
    (spec : SourceTopicSpec) : Option ResolvedSourceTopic := do
  let route ← registry.get spec.source spec.route
  let resolved ← route.resolve (spec.lookup param)
  return { binding := spec.binding, topic := resolved.topic, source := resolved.source
           route := resolved.route, url := resolved.url }

def resolveSourceTopics (specs : List SourceTopicSpec) (registry : SourceRegistry)
    (param : String → Option String) : List ResolvedSourceTopic :=
  specs.filterMap (resolveSource registry param)

/-! ### The render -/

structure Principal where
  id : PrincipalId
  email : Option String
  name : Option String
  image : Option String
  provider : String
  providers : List String

def optionalText (text : Option String) : Value := text.elim .null .string

/-- What a component reads as `user`. -/
def Principal.userValue (who : Principal) : Value :=
  .object [("email", optionalText who.email), ("id", .string who.id.id),
    ("image", optionalText who.image), ("name", optionalText who.name),
    ("provider", optionalText (if who.provider = "" then none else some who.provider)),
    ("providers", .array (who.providers.map .string))]

structure RequestContext where
  path : String
  params : List (String × String)
  headers : List (String × String)
  cookies : List (String × String)
  principal : Option PrincipalId
  user : Option Value

def requestContext (path : String) (params headers cookies : List (String × String))
    (principal : Option Principal) : RequestContext where
  path := path
  params := params
  headers := headers
  cookies := cookies
  principal := principal.map Principal.id
  user := principal.map Principal.userValue

structure MissingDynamicProp where
  key : String

def paramsValue (params : List (String × String)) : Value :=
  .object (params.map fun e => (e.1, .string e.2))

def lookupAfter (lead key : String) (entries : List (String × String)) : Option String :=
  if lead.toList.isPrefixOf key.toList then
    entries.lookup (String.ofList (key.toList.drop lead.toList.length))
  else none

def RequestContext.resolve (ctx : RequestContext) (key : String) : Except MissingDynamicProp Value :=
  if key = "user" then
    .ok (match ctx.user, ctx.principal with
      | some user, _ => user
      | none, some id => Principal.userValue ⟨id, none, none, none, "", []⟩
      | none, none => .null)
  else if key = "params" then .ok (paramsValue ctx.params)
  else
    match (ctx.params.lookup key <|> (if key = "path" then some ctx.path else none) <|>
        lookupAfter "header:" key ctx.headers <|> lookupAfter "cookie:" key ctx.cookies) with
    | some text => .ok (.string text)
    | none => .error ⟨key⟩

/-- A component the server renders on a request: where it is written, whether it names the
principal, and what it reads. -/
structure Component where
  id : ℕ
  name : String
  filePath : String
  readsPrincipal : Bool
  topics : List String
  partitions : List PartitionTopicSpec
  sources : List SourceTopicSpec

def isDynamicRoutePath (path : String) : Bool := path.toList.contains '[' && path.toList.contains ']'

def Component.partitionsByIdentity (c : Component) : Bool := c.partitions.any fun s => s.key = .identity

def Component.dynamicPropKeys (c : Component) : List String :=
  (if isDynamicRoutePath c.filePath then ["params"] else []) ++
    (if c.readsPrincipal || c.partitionsByIdentity then ["user"] else [])

def Component.staticProps (c : Component) : List (String × Value) :=
  [("component_id", .number (.int c.id)), ("component_name", .string c.name)]

def Component.props (c : Component) (ctx : RequestContext) : Except MissingDynamicProp Value := do
  let props ← c.dynamicPropKeys.foldlM (fun props key => do
    return put key (← ctx.resolve key) props) c.staticProps
  return .object props

def asStr : Value → Option String
  | .string s => some s
  | _ => none

def parsePrincipal (raw : String) : Option PrincipalId :=
  if h : isValidPartitionKey raw = true then some ⟨raw, h⟩ else none

def paramOf (props : Value) (name : String) : Option String := do
  asStr (← (← props.get "params").get name)

def principalOf (props : Value) : Option PrincipalId := do
  parsePrincipal (← asStr (← (← props.get "user").get "id"))

def resolvePartitionsForProps (c : Component) (props : Value) : List ResolvedPartition :=
  if c.partitions.isEmpty then []
  else resolvePartitionTopics c.partitions (principalOf props) (paramOf props)

def resolveSourcesForProps (registry : Option SourceRegistry) (c : Component) (props : Value) :
    List ResolvedSourceTopic :=
  if c.sources.isEmpty then []
  else registry.elim [] fun registry => resolveSourceTopics c.sources registry (paramOf props)

/-! ### The subscription -/

inductive RouteAuth where
  | anyone
  | required
  deriving DecidableEq

def RouteAuth.allowsAnonymous (auth : RouteAuth) : Bool := auth = .anyone

structure RouteReads where
  topics : List String
  partitions : List PartitionTopicSpec
  sources : List SourceTopicSpec

/-- One walk over the components of a route, each kind of read kept once. -/
def collectRouteReads (components : List Component) : RouteReads where
  topics := (components.flatMap Component.topics).dedup
  partitions := (components.flatMap Component.partitions).dedup
  sources := (components.flatMap Component.sources).dedup

structure RouteTopics where
  topics : List String
  partitions : List ResolvedPartition
  sources : List ResolvedSourceTopic

/-- What a lane is granted for a page: nothing where the page itself would be refused. -/
def resolveRouteTopics (auth : RouteAuth) (reads : RouteReads) (registry : Option SourceRegistry)
    (params : List (String × String)) (principal : Option PrincipalId) : Option RouteTopics :=
  if !auth.allowsAnonymous && principal.isNone then none
  else
    let partitions := resolvePartitionTopics reads.partitions principal fun name => params.lookup name
    let sources := registry.elim [] fun registry =>
      resolveSourceTopics reads.sources registry fun name => params.lookup name
    some { topics := reads.topics ++ partitions.map ResolvedPartition.topic ++
             sources.map ResolvedSourceTopic.topic
           partitions, sources }

def renderTopics (auth : RouteAuth) (registry : Option SourceRegistry) (c : Component)
    (ctx : RequestContext) : Option RouteTopics :=
  if !auth.allowsAnonymous && ctx.principal.isNone then none
  else
    match c.props ctx with
    | .error _ => none
    | .ok props =>
        let partitions := resolvePartitionsForProps c props
        let sources := resolveSourcesForProps registry c props
        some { topics := c.topics ++ partitions.map ResolvedPartition.topic ++
                 sources.map ResolvedSourceTopic.topic
               partitions, sources }

/-! ### One name for one thing -/

inductive TopicIdentity where
  | static (name : String)
  | partition (collection key : String)
  | source (source route : String) (bound : List (String × String))
  deriving DecidableEq

def TopicIdentity.minted : TopicIdentity → Option String
  | .static name => some name
  | .partition collection key => partitionTopicName collection key
  | .source origin route bound => sourceTopicName origin route bound

def TopicIdentity.Declared : TopicIdentity → Prop
  | .static _ | .partition _ _ => True
  | .source origin route bound => isIdentifier origin = true ∧ isIdentifier route = true ∧
      ∀ p ∈ bound, isPlaceholder p.1 = true

section Names

variable {collection collection' key key' topic source route : String}
variable {bound : List (String × String)}

theorem partitionTopicName_eq (h : partitionTopicName collection key = some topic) :
    isValidPartitionKey key = true ∧ topic.toList = collection.toList ++ ':' :: key.toList := by
  unfold partitionTopicName at h
  split_ifs at h with hkey
  refine ⟨hkey, ?_⟩
  rw [← Option.some.inj h]
  simp

theorem partitionTopicName_inj (h : partitionTopicName collection key = some topic)
    (h' : partitionTopicName collection' key' = some topic) : collection = collection' ∧ key = key' := by
  obtain ⟨hkey, hspelled⟩ := partitionTopicName_eq h
  obtain ⟨hkey', hspelled'⟩ := partitionTopicName_eq h'
  obtain ⟨hfirst, hlast⟩ := append_last_separator_inj (not_mem_key hkey (by decide))
    (not_mem_key hkey' (by decide)) (hspelled.symm.trans hspelled')
  exact ⟨String.toList_inj.mp hfirst, String.toList_inj.mp hlast⟩

theorem split_minted (h : partitionTopicName collection key = some topic) :
    splitPartitionTopic topic = if collection = "" then none else some (collection, key) := by
  obtain ⟨hkey, hspelled⟩ := partitionTopicName_eq h
  rw [splitPartitionTopic, hspelled, rsplitOnce_append (not_mem_key hkey (by decide))]
  by_cases hempty : collection = ""
  · simp [hempty]
  · simp [hempty, hkey]

theorem equals_mem_boundText (hbound : bound ≠ []) : '=' ∈ boundText bound := by
  obtain ⟨p, rest, rfl⟩ := List.exists_cons_of_ne_nil hbound
  simp [boundText, Words.intercalate_cons]

theorem partition_ne_source (hsource : isIdentifier source = true) (hroute : isIdentifier route = true)
    (hnames : ∀ p ∈ bound, isPlaceholder p.1 = true)
    (h : partitionTopicName collection key = some topic) :
    sourceTopicName source route bound ≠ some topic := by
  intro hminted
  obtain ⟨hkey, hspelled⟩ := partitionTopicName_eq h
  obtain ⟨hvalid, hsourced⟩ := sourceTopicName_eq hminted
  have hcolon : ':' ∉ key.toList := not_mem_key hkey (by decide)
  have hname : ':' ∉ source.toList ++ '.' :: route.toList := by
    have hfirst : ':' ∉ source.toList := not_mem_identifier hsource (by decide)
    have hsecond : ':' ∉ route.toList := not_mem_identifier hroute (by decide)
    simp [hfirst, hsecond]
  by_cases hbound : bound = []
  · rw [if_pos hbound, List.append_nil] at hsourced
    obtain ⟨-, hlast⟩ := append_last_separator_inj hcolon hname (hspelled.symm.trans hsourced)
    exact not_mem_key (c := '.') hkey (by decide) (by rw [hlast]; simp)
  · rw [if_neg hbound] at hsourced
    have hassoc : topic.toList = ("aperture".toList ++ ':' :: (source.toList ++ '.' :: route.toList)) ++
        ':' :: boundText bound := by
      rw [hsourced]
      simp
    have htext : ':' ∉ boundText bound :=
      not_mem_boundText (fun p hp => ⟨hnames p hp, hvalid p hp⟩) (by decide)
    obtain ⟨-, hlast⟩ := append_last_separator_inj hcolon htext (hspelled.symm.trans hassoc)
    exact not_mem_key (c := '=') hkey (by decide) (by rw [hlast]; exact equals_mem_boundText hbound)

theorem colon_mem_partition (h : partitionTopicName collection key = some topic) :
    ':' ∈ topic.toList := by
  rw [(partitionTopicName_eq h).2]
  simp

theorem colon_mem_source (h : sourceTopicName source route bound = some topic) :
    ':' ∈ topic.toList := by
  rw [(sourceTopicName_eq h).2]
  simp

theorem identity_of_minted {x y : TopicIdentity} (hx : x.Declared) (hy : y.Declared)
    (h : x.minted = some topic) (h' : y.minted = some topic) :
    x = y ∨ ∃ name, (x = .static name ∨ y = .static name) ∧ ':' ∈ name.toList := by
  cases x with
  | static name =>
      obtain rfl := Option.some.inj h
      cases y with
      | static name' => exact .inl (congrArg _ (Option.some.inj h').symm)
      | partition collection key => exact .inr ⟨_, .inl rfl, colon_mem_partition h'⟩
      | source source route bound => exact .inr ⟨_, .inl rfl, colon_mem_source h'⟩
  | partition collection key =>
      cases y with
      | static name =>
          obtain rfl := Option.some.inj h'
          exact .inr ⟨_, .inr rfl, colon_mem_partition h⟩
      | partition collection' key' =>
          obtain ⟨rfl, rfl⟩ := partitionTopicName_inj h h'
          exact .inl rfl
      | source source route bound => exact absurd h' (partition_ne_source hy.1 hy.2.1 hy.2.2 h)
  | source source route bound =>
      cases y with
      | static name =>
          obtain rfl := Option.some.inj h'
          exact .inr ⟨_, .inr rfl, colon_mem_source h⟩
      | partition collection key => exact absurd h (partition_ne_source hx.1 hx.2.1 hx.2.2 h')
      | source source' route' bound' =>
          obtain ⟨rfl, rfl, rfl⟩ :=
            sourceTopicName_inj hx.1 hy.1 hx.2.1 hy.2.1 hx.2.2 hy.2.2 h h'
          exact .inl rfl

end Names

/-! ### What the resolver answers -/

section Resolver

variable {specs : List PartitionTopicSpec} {param param' : String → Option String}
variable {principal : Option PrincipalId} {registry : SourceRegistry}

theorem resolvePartition_eq_some {spec : PartitionTopicSpec} {r : ResolvedPartition}
    (h : resolvePartition principal param spec = some r) :
    r.binding = spec.binding ∧ r.collection = spec.collection ∧
      partitionTopicName r.collection r.key = some r.topic ∧
        ((∃ name, spec.key = .routeParam name ∧ param name = some r.key) ∨
          spec.key = .identity ∧ principal.map PrincipalId.id = some r.key) := by
  simp only [resolvePartition, Option.bind_eq_bind, Option.bind_eq_some_iff] at h
  obtain ⟨key, hkey, topic, htopic, heq⟩ := h
  obtain rfl := Option.some.inj heq
  refine ⟨rfl, rfl, htopic, ?_⟩
  cases hsource : spec.key with
  | routeParam name =>
      rw [hsource] at hkey
      exact .inl ⟨name, rfl, hkey⟩
  | identity =>
      rw [hsource] at hkey
      exact .inr ⟨rfl, hkey⟩

theorem resolve_anonymous {r : ResolvedPartition} (h : r ∈ resolvePartitionTopics specs none param) :
    ∃ spec ∈ specs, ∃ name, spec.key = .routeParam name ∧ param name = some r.key ∧
      spec.binding = r.binding ∧ spec.collection = r.collection := by
  obtain ⟨spec, hspec, hresolved⟩ := List.mem_filterMap.mp h
  obtain ⟨hbinding, hcollection, -, hkey⟩ := resolvePartition_eq_some hresolved
  rcases hkey with ⟨name, hname, hparam⟩ | ⟨-, hnone⟩
  · exact ⟨spec, hspec, name, hname, hparam, hbinding.symm, hcollection.symm⟩
  · cases hnone

theorem resolvePartition_extends {principal' : Option PrincipalId} {spec : PartitionTopicSpec}
    {r : ResolvedPartition} (hparam : Extends param param')
    (hprincipal : spec.key = .identity → principal = principal')
    (h : resolvePartition principal param spec = some r) :
    resolvePartition principal' param' spec = some r := by
  rw [resolvePartition, Option.bind_eq_bind, Option.bind_eq_some_iff] at h ⊢
  obtain ⟨key, hkey, hrest⟩ := h
  refine ⟨key, ?_, hrest⟩
  cases hsource : spec.key with
  | routeParam name =>
      rw [hsource] at hkey
      exact hparam name key hkey
  | identity =>
      rw [hsource] at hkey
      rw [← hprincipal hsource]
      exact hkey

theorem SourceTopicSpec.lookup_extends (spec : SourceTopicSpec) (hparam : Extends param param') :
    Extends (spec.lookup param) (spec.lookup param') := by
  intro name value h
  rw [SourceTopicSpec.lookup, Option.bind_eq_bind, Option.bind_eq_some_iff] at h ⊢
  obtain ⟨arg, harg, hvalue⟩ := h
  refine ⟨arg, harg, ?_⟩
  cases arg with
  | param _ supplied => exact hparam supplied value hvalue
  | literal _ fixed => exact hvalue

theorem resolveSource_extends {spec : SourceTopicSpec} {r : ResolvedSourceTopic}
    (hparam : Extends param param') (h : resolveSource registry param spec = some r) :
    resolveSource registry param' spec = some r := by
  simp only [resolveSource, Option.bind_eq_bind, Option.bind_eq_some_iff] at h ⊢
  obtain ⟨route, hroute, resolved, hresolved, heq⟩ := h
  exact ⟨route, hroute, resolved,
    SourceRoute.resolve_extends (spec.lookup_extends hparam) hresolved, heq⟩

theorem resolveSource_minted {spec : SourceTopicSpec} {r : ResolvedSourceTopic}
    (h : resolveSource registry param spec = some r) :
    ∃ bound, (TopicIdentity.source r.source r.route bound).Declared ∧
      (TopicIdentity.source r.source r.route bound).minted = some r.topic := by
  simp only [resolveSource, Option.bind_eq_bind, Option.bind_eq_some_iff] at h
  obtain ⟨route, -, resolved, hresolved, heq⟩ := h
  obtain rfl := Option.some.inj heq
  obtain ⟨hsource, hroute, bound, hnames, htopic⟩ := SourceRoute.resolve_minted hresolved
  refine ⟨bound, ⟨?_, ?_, hnames⟩, ?_⟩
  · simpa only [hsource] using route.source.2
  · simpa only [hroute] using route.route.2
  · simpa only [TopicIdentity.minted, hsource, hroute] using htopic

end Resolver

/-! ### The render and the subscription -/

section Agreement

variable {c : Component} {components : List Component} {auth : RouteAuth}
variable {registry : Option SourceRegistry} {principal : Option Principal}
variable {path : String} {params headers cookies : List (String × String)}
variable {rendered : RouteTopics}

/-- The value of `user` in the props of a request. -/
def userProp (principal : Option Principal) : Value := principal.elim .null Principal.userValue

theorem props_requestContext : ∃ props,
    c.props (requestContext path params headers cookies principal) = .ok props ∧
      (props.get "params" = if isDynamicRoutePath c.filePath then some (paramsValue params) else none) ∧
        props.get "user" =
          if c.readsPrincipal || c.partitionsByIdentity then some (userProp principal) else none := by
  have huser : (requestContext path params headers cookies principal).resolve "user" =
      .ok (userProp principal) := by
    cases principal <;> rfl
  have hparams : (requestContext path params headers cookies principal).resolve "params" =
      .ok (paramsValue params) := rfl
  let first := if isDynamicRoutePath c.filePath then put "params" (paramsValue params) c.staticProps
    else c.staticProps
  let fields := if c.readsPrincipal || c.partitionsByIdentity then put "user" (userProp principal) first
    else first
  have hstatic : ∀ key, key = "params" ∨ key = "user" → c.staticProps.lookup key = none := by
    rintro key (rfl | rfl) <;> rfl
  refine ⟨.object fields, ?_, ?_, ?_⟩
  · cases hpath : isDynamicRoutePath c.filePath <;>
      cases hreads : (c.readsPrincipal || c.partitionsByIdentity) <;>
        simp only [Component.props, Component.dynamicPropKeys, fields, first, hpath, hreads, huser,
          hparams, Bool.false_eq_true, if_true, if_false, List.nil_append, List.cons_append,
          List.foldlM_cons, List.foldlM_nil] <;> rfl
  · simp only [Value.get, fields, first]
    split_ifs <;> simp [lookup_put, hstatic]
  · simp only [Value.get, fields, first]
    split_ifs <;> simp [lookup_put, hstatic]

theorem paramOf_props {props : Value}
    (h : props.get "params" = if isDynamicRoutePath c.filePath then some (paramsValue params) else none)
    (name : String) :
    paramOf props name = if isDynamicRoutePath c.filePath then params.lookup name else none := by
  rw [paramOf, h]
  split_ifs with hpath
  · simp only [Option.bind_eq_bind, Option.bind_some, paramsValue, Value.get,
      lookup_map Value.string name params]
    cases params.lookup name <;> rfl
  · rfl

theorem principalOf_props {props : Value}
    (h : props.get "user" =
      if c.readsPrincipal || c.partitionsByIdentity then some (userProp principal) else none) :
    principalOf props =
      if c.readsPrincipal || c.partitionsByIdentity then principal.map Principal.id else none := by
  rw [principalOf, h]
  split_ifs with hreads
  · cases principal with
    | none => rfl
    | some who =>
        have hid : (userProp (some who)).get "id" = some (.string who.id.id) := by
          simp [userProp, Principal.userValue, Value.get, List.lookup_cons]
        simp [hid, asStr, parsePrincipal, who.id.valid]
  · rfl

theorem extends_paramOf {props : Value}
    (h : props.get "params" = if isDynamicRoutePath c.filePath then some (paramsValue params) else none) :
    Extends (paramOf props) fun name => params.lookup name := by
  intro name value hvalue
  rw [paramOf_props h] at hvalue
  split_ifs at hvalue
  exact hvalue

theorem principalOf_of_identity {props : Value} {spec : PartitionTopicSpec} (hspec : spec ∈ c.partitions)
    (hkey : spec.key = .identity)
    (h : props.get "user" =
      if c.readsPrincipal || c.partitionsByIdentity then some (userProp principal) else none) :
    principalOf props = principal.map Principal.id := by
  have hidentity : c.partitionsByIdentity = true :=
    List.any_eq_true.mpr ⟨spec, hspec, decide_eq_true hkey⟩
  rw [principalOf_props h, if_pos (by rw [hidentity, Bool.or_true])]

theorem resolvePartitionsForProps_eq (props : Value) :
    resolvePartitionsForProps c props =
      resolvePartitionTopics c.partitions (principalOf props) (paramOf props) := by
  unfold resolvePartitionsForProps
  split_ifs with hempty
  · rw [List.isEmpty_iff.mp hempty]
    rfl
  · rfl

theorem resolveSourcesForProps_eq (props : Value) :
    resolveSourcesForProps registry c props =
      registry.elim [] fun registry => resolveSourceTopics c.sources registry (paramOf props) := by
  unfold resolveSourcesForProps
  split_ifs with hempty
  · rw [List.isEmpty_iff.mp hempty]
    cases registry <;> rfl
  · rfl

theorem renderTopics_granted (hc : c ∈ components)
    (h : renderTopics auth registry c (requestContext path params headers cookies principal) =
      some rendered) :
    ∃ granted,
      resolveRouteTopics auth (collectRouteReads components) registry params
        (principal.map Principal.id) = some granted ∧
      rendered.topics ⊆ granted.topics ∧ rendered.partitions ⊆ granted.partitions ∧
        rendered.sources ⊆ granted.sources := by
  obtain ⟨props, hprops, hparams, huser⟩ :=
    @props_requestContext c principal path params headers cookies
  unfold renderTopics at h
  rw [hprops] at h
  split_ifs at h with hgate
  obtain rfl := Option.some.inj h
  unfold resolveRouteTopics
  refine ⟨_, if_neg hgate, ?_⟩
  have hpartitions : resolvePartitionsForProps c props ⊆
      resolvePartitionTopics (collectRouteReads components).partitions (principal.map Principal.id)
        fun name => params.lookup name := by
    intro r hr
    rw [resolvePartitionsForProps_eq] at hr
    obtain ⟨spec, hspec, hresolved⟩ := List.mem_filterMap.mp hr
    refine List.mem_filterMap.mpr
      ⟨spec, List.mem_dedup.mpr (List.mem_flatMap.mpr ⟨c, hc, hspec⟩), ?_⟩
    exact resolvePartition_extends (extends_paramOf hparams)
      (fun hkey => principalOf_of_identity hspec hkey huser) hresolved
  have hsources : resolveSourcesForProps registry c props ⊆ registry.elim [] fun registry =>
      resolveSourceTopics (collectRouteReads components).sources registry fun name =>
        params.lookup name := by
    intro r hr
    rw [resolveSourcesForProps_eq] at hr
    cases registry with
    | none => exact hr
    | some registry =>
        obtain ⟨spec, hspec, hresolved⟩ := List.mem_filterMap.mp hr
        exact List.mem_filterMap.mpr
          ⟨spec, List.mem_dedup.mpr (List.mem_flatMap.mpr ⟨c, hc, hspec⟩),
            resolveSource_extends (extends_paramOf hparams) hresolved⟩
  refine ⟨?_, hpartitions, hsources⟩
  intro topic htopic
  simp only [List.mem_append] at htopic ⊢
  rcases htopic with (hstatic | hpartition) | hsource
  · exact .inl (.inl (List.mem_dedup.mpr (List.mem_flatMap.mpr ⟨c, hc, hstatic⟩)))
  · exact .inl (.inr (List.map_subset _ hpartitions hpartition))
  · exact .inr (List.map_subset _ hsources hsource)

theorem renderTopics_eq (hpath : isDynamicRoutePath c.filePath = true)
    (h : renderTopics auth registry c (requestContext path params headers cookies principal) =
      some rendered) :
    rendered.partitions = resolvePartitionTopics c.partitions (principal.map Principal.id)
        (fun name => params.lookup name) ∧
      rendered.sources = registry.elim [] fun registry =>
        resolveSourceTopics c.sources registry fun name => params.lookup name := by
  obtain ⟨props, hprops, hparams, huser⟩ :=
    @props_requestContext c principal path params headers cookies
  unfold renderTopics at h
  rw [hprops] at h
  split_ifs at h
  obtain rfl := Option.some.inj h
  have hsame : paramOf props = fun name => params.lookup name := by
    funext name
    rw [paramOf_props hparams, if_pos hpath]
  refine ⟨?_, by rw [resolveSourcesForProps_eq, hsame]⟩
  rw [resolvePartitionsForProps_eq, hsame]
  refine List.filterMap_congr fun spec hspec => ?_
  cases hkey : spec.key with
  | routeParam name => simp only [resolvePartition, PartitionKeySource.valueIn, hkey]
  | identity => rw [principalOf_of_identity hspec hkey huser]

end Agreement

end Albedo.Topics
