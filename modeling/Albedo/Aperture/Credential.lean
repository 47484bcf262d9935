import Albedo.Aperture.Declare
import Albedo.Library.Fallible
import Albedo.Library.UrlBase

/-!
# Declared bases and their credentials

A source is declared with a base, and what it sends with every call may be declared beside it. A
call goes to a source when its address is of the origin of the base and its path goes on from the
path of the base. Of the sources it goes to, the one with the longest path gives the credential.
How a host is read and written, and what is said of a base that cannot be read, are parameters.
-/
namespace Albedo.Aperture
open Fallible WhatwgUrl

structure UrlReader (Host : Type) where
  parseHost : List Char → Option Host
  hostText : Host → List Char
  parseError : String → String

variable {Host : Type}

inductive SourceAuthError where
  | schema (error : SourceSchemaError)
  | authWithoutScope (source : String)
  | userScopeNeedsAuth (source : String)
  | missingEnv (source name : String)

inductive AuthScope where
  | app
  | user

inductive CacheScope where
  | «public»
  | app

structure AuthDecl where
  bearer : Option String
  bearerEnv : Option String
  scope : Option AuthScope

structure CredentialDecl extends SourceDecl where
  headers : List (String × String)
  auth : Option AuthDecl

structure SourceCredential where
  source : String
  scheme : List Char
  host : List Char
  port : Option ℕ
  path : List Char
  headers : List (String × String)

structure Sources where
  registry : SourceRegistry
  credentials : List SourceCredential

/-! ### Lowering -/

def lowerBase (reader : UrlReader Host) (source base : String) :
    Except SourceSchemaError (String × List Char) :=
  match parse reader.parseHost base.toList with
  | none => .error (.invalidBase source (reader.parseError base))
  | some (.other scheme _) =>
      .error (.invalidBase source
        ("scheme `" ++ String.ofList scheme ++ "` is not http or https"))
  | some (.url url) =>
      if url.scheme ≠ "http".toList ∧ url.scheme ≠ "https".toList then
        .error (.invalidBase source
          ("scheme `" ++ String.ofList url.scheme ++ "` is not http or https"))
      else if url.query.isSome ∨ url.fragment.isSome then .error (.baseHasQueryOrFragment source)
      else .ok (String.ofList (base.toList.rdropWhile (· = '/')),
        (reader.hostText url.host).map Char.toLower)

def lowerAuth (source : String) (auth : Option AuthDecl) (env : String → Option String)
    (hasRoutes : Bool) : Except SourceAuthError (CacheScope × Option (String × String)) :=
  match auth with
  | none => .ok (.public, none)
  | some auth => do
      match auth.scope with
      | none => if hasRoutes then throw (.authWithoutScope source)
      | some .user => throw (.userScopeNeedsAuth source)
      | some .app => pure ()
      let token ← match auth.bearerEnv with
        | some name =>
            match env name with
            | some token => pure (some token)
            | none => throw (.missingEnv source name)
        | none => pure auth.bearer
      return (.app, token.map fun token => ("authorization", "Bearer " ++ token))

/-- `Url::path`. -/
def pathText (path : List (List Char)) : List Char := path.flatMap ('/' :: ·)

def siteOf (reader : UrlReader Host) (source base : String) (host : List Char)
    (headers : List (String × String)) : Option SourceCredential :=
  match parse reader.parseHost base.toList with
  | some (.url url) =>
      some { source, scheme := url.scheme, host
             port := url.port.or (defaultPort url.scheme)
             path := (pathText url.path).rdropWhile (· = '/')
             headers }
  | _ => none

def credentialOf (reader : UrlReader Host) (source base : String) (host : List Char)
    (headers : List (String × String)) : Option SourceCredential :=
  if headers.isEmpty then none else siteOf reader source base host headers

def lift {α : Type} (x : Except SourceSchemaError α) : Except SourceAuthError α :=
  x.mapError .schema

def lowerRoutes (source : Identifier) (base : String) (registry : SourceRegistry)
    (routes : List (String × RouteDecl)) : Except SourceSchemaError SourceRegistry :=
  routes.foldlM (fun registry (r : String × RouteDecl) => do
    return registry.insert (← lowerRoute source base r.1 r.2)) registry

def lowerSource (reader : UrlReader Host) (env : String → Option String) (sources : Sources)
    (name : String) (decl : CredentialDecl) : Except SourceAuthError Sources := do
  let source ← lift (requireIdentifier "source" name)
  let (base, host) ← lift (lowerBase reader source decl.base)
  let (_, header) ← lowerAuth source decl.auth env (!decl.routes.isEmpty)
  let registry ← lift (lowerRoutes source base sources.registry decl.routes)
  return ⟨registry, sources.credentials ++
    (credentialOf reader source base host (decl.headers ++ header.toList)).toList⟩

def lowerSources (reader : UrlReader Host) (env : String → Option String)
    (declarations : List (String × CredentialDecl)) : Except SourceAuthError Sources :=
  declarations.foldlM (fun sources (d : String × CredentialDecl) =>
    lowerSource reader env sources d.1 d.2) ⟨.empty, []⟩

/-! ### Whom a call goes to -/

def SourceCredential.covers (reader : UrlReader Host) (c : SourceCredential) (url : Url Host) :
    Bool :=
  url.scheme = c.scheme && (reader.hostText url.host).map Char.toLower = c.host.map Char.toLower &&
    url.port.or (defaultPort url.scheme) = c.port &&
    (c.path.isEmpty || pathText url.path = c.path ||
      c.path.isPrefixOf (pathText url.path) &&
        ((pathText url.path).drop c.path.length).head? = some '/')

def longer (best : Option SourceCredential) (candidate : SourceCredential) :
    Option SourceCredential :=
  match best with
  | some best => if candidate.path.length ≤ best.path.length then some best else some candidate
  | none => some candidate

def forUrl (reader : UrlReader Host) (credentials : List SourceCredential) (url : Url Host) :
    Option SourceCredential :=
  (credentials.filter (·.covers reader url)).foldl longer none

/-- A credential has the longest path of some, and is the first of those that have it. -/
structure Longest (credentials : List SourceCredential) (c : SourceCredential) : Prop where
  mem : c ∈ credentials
  longest : ∀ other ∈ credentials, other.path.length ≤ c.path.length
  first : ∃ before after, credentials = before ++ c :: after ∧
    ∀ other ∈ before, other.path.length < c.path.length

theorem foldl_longer (credentials : List SourceCredential) :
    (credentials = [] ∧ credentials.foldl longer none = none) ∨
      ∃ c, credentials.foldl longer none = some c ∧ Longest credentials c := by
  induction credentials using List.reverseRecOn with
  | nil => exact Or.inl ⟨rfl, rfl⟩
  | append_singleton credentials candidate ih =>
    refine Or.inr ?_
    rw [List.foldl_append, List.foldl_cons, List.foldl_nil]
    rcases ih with ⟨rfl, hnone⟩ | ⟨best, hbest, hlongest⟩
    · refine ⟨candidate, rfl, List.mem_singleton_self _, ?_, [], [], rfl, by simp⟩
      intro other hother
      rw [List.mem_singleton.mp hother]
    · rw [hbest, longer]
      obtain ⟨before, after, heq, hbefore⟩ := hlongest.first
      split_ifs with hle
      · refine ⟨best, rfl, List.mem_append_left _ hlongest.mem, ?_,
          before, after ++ [candidate], by rw [heq]; simp, hbefore⟩
        intro other hother
        rcases List.mem_append.mp hother with hold | hnew
        · exact hlongest.longest other hold
        · rw [List.mem_singleton.mp hnew]
          exact hle
      · rw [not_le] at hle
        refine ⟨candidate, rfl, by simp, ?_, credentials, [], rfl, ?_⟩
        · intro other hother
          rcases List.mem_append.mp hother with hold | hnew
          · exact (hlongest.longest other hold).trans hle.le
          · rw [List.mem_singleton.mp hnew]
        · intro other hother
          exact (hlongest.longest other hother).trans_lt hle

theorem forUrl_eq_none {reader : UrlReader Host} {credentials : List SourceCredential}
    {url : Url Host} (h : forUrl reader credentials url = none) :
    ∀ c ∈ credentials, c.covers reader url = false := by
  rcases foldl_longer (credentials.filter (·.covers reader url)) with ⟨hnil, -⟩ | ⟨c, hc, -⟩
  · intro c hc
    exact Bool.eq_false_iff.mpr (List.filter_eq_nil_iff.mp hnil c hc)
  · rw [forUrl, hc] at h
    cases h

theorem forUrl_eq_some {reader : UrlReader Host} {credentials : List SourceCredential}
    {url : Url Host} {c : SourceCredential} (h : forUrl reader credentials url = some c) :
    Longest (credentials.filter (·.covers reader url)) c := by
  rcases foldl_longer (credentials.filter (·.covers reader url)) with
    ⟨-, hnone⟩ | ⟨best, hbest, hlongest⟩
  · rw [forUrl, hnone] at h
    cases h
  · rw [forUrl, hbest] at h
    obtain rfl := Option.some.inj h
    exact hlongest

/-! ### What was declared -/

structure IsBase (reader : UrlReader Host) (declared lowered : String) (host : List Char)
    (url : Url Host) : Prop where
  parsed : parse reader.parseHost declared.toList = some (.url url)
  scheme : url.scheme = "http".toList ∨ url.scheme = "https".toList
  no_query : url.query = none
  no_fragment : url.fragment = none
  text : lowered = String.ofList (declared.toList.rdropWhile (· = '/'))
  host_text : host = (reader.hostText url.host).map Char.toLower

theorem lowerBase_ok {reader : UrlReader Host} {source declared lowered : String}
    {host : List Char} (h : lowerBase reader source declared = .ok (lowered, host)) :
    ∃ url, IsBase reader declared lowered host url := by
  unfold lowerBase at h
  split at h
  · cases h
  · cases h
  · next url hurl =>
    split_ifs at h with hscheme hparts
    rw [not_or, Option.not_isSome_iff_eq_none, Option.not_isSome_iff_eq_none] at hparts
    obtain ⟨rfl, rfl⟩ := Prod.mk.inj (Except.ok.inj h)
    exact ⟨url, hurl, by tauto, hparts.1, hparts.2, rfl, rfl⟩

structure IsRoute (reader : UrlReader Host) (declarations : List (String × CredentialDecl))
    (r : SourceRoute) (declared : String) (url : Url Host) : Prop where
  source : ∃ decl, ((r.source : String), decl) ∈ declarations ∧ decl.base = declared ∧
    ∃ route, ((r.route : String), route) ∈ decl.routes ∧
      lowerPath r.source r.route route.path = .ok (r.segments, r.params)
  base : ∃ host, IsBase reader declared r.base host url

theorem lift_ok {α : Type} {x : Except SourceSchemaError α} {a : α} (h : lift x = .ok a) :
    x = .ok a := by
  cases x with
  | error error => cases h
  | ok b => cases h; rfl

theorem requireIdentifier_ok {kind name : String} {identifier : Identifier}
    (h : requireIdentifier kind name = .ok identifier) : (identifier : String) = name := by
  unfold requireIdentifier at h
  split_ifs at h
  cases h
  rfl

theorem lowerRoute_ok {source : Identifier} {base name : String} {decl : RouteDecl}
    {r : SourceRoute} (h : lowerRoute source base name decl = .ok r) :
    r.source = source ∧ (r.route : String) = name ∧ r.base = base ∧
      lowerPath source name decl.path = .ok (r.segments, r.params) := by
  unfold lowerRoute at h
  obtain ⟨route, hroute, h⟩ := bind_eq_ok.mp h
  split at h
  · cases h
  · next segments params hpath =>
    cases h
    exact ⟨rfl, requireIdentifier_ok hroute, rfl, hpath⟩

theorem lowerRoutes_ok {P : SourceRoute → Prop} {source : Identifier} {base : String}
    {registry lowered : SourceRegistry} {routes : List (String × RouteDecl)}
    (h : lowerRoutes source base registry routes = .ok lowered)
    (hold : ∀ e ∈ registry.routes, P e.2)
    (hnew : ∀ route ∈ routes, ∀ r, lowerRoute source base route.1 route.2 = .ok r → P r) :
    ∀ e ∈ lowered.routes, P e.2 := by
  unfold lowerRoutes at h
  induction routes generalizing registry with
  | nil =>
    cases h
    exact hold
  | cons route routes ih =>
    rw [List.foldlM_cons] at h
    obtain ⟨next, hnext, h⟩ := bind_eq_ok.mp h
    obtain ⟨r, hr, hinsert⟩ := bind_eq_ok.mp hnext
    cases hinsert
    refine ih h ?_ fun other hother => hnew other (List.mem_cons_of_mem route hother)
    intro e he
    rcases KeyedList.mem_of_mem_put he with rfl | he
    · exact hnew route List.mem_cons_self r hr
    · exact hold e he

def IsCredential (reader : UrlReader Host) (env : String → Option String)
    (declarations : List (String × CredentialDecl)) (c : SourceCredential) : Prop :=
  ∃ decl base host scope header, (c.source, decl) ∈ declarations ∧
    lowerBase reader c.source decl.base = .ok (base, host) ∧
    lowerAuth c.source decl.auth env (!decl.routes.isEmpty) = .ok (scope, header) ∧
    credentialOf reader c.source base host (decl.headers ++ header.toList) = some c

theorem source_of_credentialOf {reader : UrlReader Host} {source base : String}
    {host : List Char} {headers : List (String × String)} {c : SourceCredential}
    (h : credentialOf reader source base host headers = some c) : c.source = source := by
  unfold credentialOf siteOf at h
  split_ifs at h
  split at h
  · cases h; rfl
  · cases h

structure Declared (reader : UrlReader Host) (env : String → Option String)
    (declarations : List (String × CredentialDecl)) (sources : Sources) : Prop where
  routes : ∀ e ∈ sources.registry.routes, ∃ declared url,
    IsRoute reader declarations e.2 declared url
  credentials : ∀ c ∈ sources.credentials, IsCredential reader env declarations c

theorem Declared.lowerSource {reader : UrlReader Host} {env : String → Option String}
    {declarations : List (String × CredentialDecl)} {sources next : Sources} {name : String}
    {decl : CredentialDecl} (h : Declared reader env declarations sources)
    (hmem : (name, decl) ∈ declarations)
    (hnext : lowerSource reader env sources name decl = .ok next) :
    Declared reader env declarations next := by
  obtain ⟨source, hsource, hnext⟩ := bind_eq_ok.mp hnext
  obtain ⟨⟨base, host⟩, hbase, hnext⟩ := bind_eq_ok.mp hnext
  obtain ⟨⟨scope, header⟩, hauth, hnext⟩ := bind_eq_ok.mp hnext
  obtain ⟨registry, hregistry, hnext⟩ := bind_eq_ok.mp hnext
  cases hnext
  obtain rfl := requireIdentifier_ok (lift_ok hsource)
  have hlowered := lift_ok hbase
  constructor
  · refine lowerRoutes_ok (P := fun r => ∃ declared url, IsRoute reader declarations r declared url)
      (lift_ok hregistry) h.routes fun route hroute r hr => ?_
    obtain ⟨rfl, hname, rfl, hpath⟩ := lowerRoute_ok hr
    obtain ⟨url, hurl⟩ := lowerBase_ok hlowered
    refine ⟨decl.base, url, ⟨decl, hmem, rfl, route.2, ?_, ?_⟩, host, hurl⟩
    · rw [hname]
      exact hroute
    · rw [hname]
      exact hpath
  · intro c hc
    rcases List.mem_append.mp hc with hold | hnew
    · exact h.credentials c hold
    · have hcredential := Option.mem_toList.mp hnew
      have hsame := source_of_credentialOf hcredential
      refine ⟨decl, base, host, scope, header, ?_⟩
      rw [hsame]
      exact ⟨hmem, hlowered, hauth, hcredential⟩

theorem credentials_lowerSource {reader : UrlReader Host} {env : String → Option String}
    {sources next : Sources} {name : String} {decl : CredentialDecl}
    (hnext : lowerSource reader env sources name decl = .ok next) :
    sources.credentials ⊆ next.credentials ∧
      ∀ base host scope header c, lowerBase reader name decl.base = .ok (base, host) →
        lowerAuth name decl.auth env (!decl.routes.isEmpty) = .ok (scope, header) →
        credentialOf reader name base host (decl.headers ++ header.toList) = some c →
        c ∈ next.credentials := by
  obtain ⟨source, hsource, hnext⟩ := bind_eq_ok.mp hnext
  obtain ⟨⟨base, host⟩, hbase, hnext⟩ := bind_eq_ok.mp hnext
  obtain ⟨⟨scope, header⟩, hauth, hnext⟩ := bind_eq_ok.mp hnext
  obtain ⟨registry, -, hnext⟩ := bind_eq_ok.mp hnext
  cases hnext
  obtain rfl := requireIdentifier_ok (lift_ok hsource)
  refine ⟨List.subset_append_left _ _, fun base' host' scope' header' c hbase' hauth' hc => ?_⟩
  rw [lift_ok hbase] at hbase'
  rw [hauth] at hauth'
  cases hbase'
  cases hauth'
  exact List.mem_append_right _ (Option.mem_toList.mpr hc)

theorem lowerSources_complete {reader : UrlReader Host} {env : String → Option String}
    {declarations : List (String × CredentialDecl)} {sources : Sources}
    (h : lowerSources reader env declarations = .ok sources) {c : SourceCredential}
    (hc : IsCredential reader env declarations c) : c ∈ sources.credentials := by
  have hgrow : ∀ (rest : List (String × CredentialDecl)) (start : Sources),
      rest.foldlM (fun sources (d : String × CredentialDecl) =>
        lowerSource reader env sources d.1 d.2) start = .ok sources →
      start.credentials ⊆ sources.credentials ∧
        (IsCredential reader env rest c → c ∈ sources.credentials) := by
    intro rest
    induction rest with
    | nil =>
      intro start hrest
      cases hrest
      refine ⟨List.Subset.refl _, ?_⟩
      rintro ⟨decl, base, host, scope, header, hmem, -⟩
      exact absurd hmem List.not_mem_nil
    | cons d rest ih =>
      intro start hrest
      rw [List.foldlM_cons] at hrest
      obtain ⟨next, hnext, hrest⟩ := bind_eq_ok.mp hrest
      obtain ⟨hkept, hadded⟩ := credentials_lowerSource hnext
      obtain ⟨hsubset, hlater⟩ := ih next hrest
      refine ⟨List.Subset.trans hkept hsubset, ?_⟩
      rintro ⟨decl, base, host, scope, header, hmem, hbase, hauth, hcredential⟩
      rcases List.mem_cons.mp hmem with rfl | hmem
      · exact hsubset (hadded base host scope header c hbase hauth hcredential)
      · exact hlater ⟨decl, base, host, scope, header, hmem, hbase, hauth, hcredential⟩
  exact (hgrow declarations ⟨.empty, []⟩ h).2 hc

theorem lowerSources_declared {reader : UrlReader Host} {env : String → Option String}
    {declarations : List (String × CredentialDecl)} {sources : Sources}
    (h : lowerSources reader env declarations = .ok sources) :
    Declared reader env declarations sources := by
  have hrun : ∀ (rest : List (String × CredentialDecl)) (start : Sources),
      (∀ d ∈ rest, d ∈ declarations) → Declared reader env declarations start →
      rest.foldlM (fun sources (d : String × CredentialDecl) =>
        lowerSource reader env sources d.1 d.2) start = .ok sources →
      Declared reader env declarations sources := by
    intro rest
    induction rest with
    | nil =>
      intro start _ hstart hrest
      cases hrest
      exact hstart
    | cons d rest ih =>
      intro start hmem hstart hrest
      rw [List.foldlM_cons] at hrest
      obtain ⟨next, hnext, hrest⟩ := bind_eq_ok.mp hrest
      exact ih next (fun other hother => hmem other (List.mem_cons_of_mem d hother))
        (hstart.lowerSource (hmem d List.mem_cons_self) hnext) hrest
  exact hrun declarations ⟨.empty, []⟩ (fun _ hd => hd)
    ⟨fun _ he => absurd he List.not_mem_nil, fun _ hc => absurd hc List.not_mem_nil⟩ h

end Albedo.Aperture
