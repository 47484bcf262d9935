import Albedo.Actions.Module
import Albedo.Ir.Action

/-!
# The gate of a route and the actions behind it

The manifest records of each route whether an anonymous request may render it and
which actions its page module declares. The server refuses the actions of gated
routes to anonymous callers, whichever transport names them.
-/
namespace Albedo.Actions
open Forge Ir KeyedList Topics

/-! ### The declaration -/

def parseRouteAuth (raw : String) : Except String RouteAuth :=
  if raw = "public" then .ok .anyone
  else if raw = "required" then .ok .required
  else .error ("`export const auth` must be \"public\" or \"required\"; found \"" ++ raw ++ "\"")

def authFromConstExpr : Init → Except String RouteAuth
  | .text value => parseRouteAuth value
  | _ => .error ("`export const auth` must be a plain string literal — \"public\" or " ++
      "\"required\". A computed value cannot be read at build time, and a route whose " ++
      "gate cannot be read at build time would be served to everyone")

def authProblem (hasAuthProviders : Bool) (entry : String) (module : ParsedModule) : Option String :=
  match module.moduleConstants.lookup "auth" with
  | none => none
  | some init =>
    match authFromConstExpr init with
    | .error message => some (entry ++ ": " ++ message)
    | .ok auth =>
      if !auth.allowsAnonymous && !hasAuthProviders then
        some (entry ++ ": declares `auth = \"required\"`, but the `auth` block in " ++
          "albedo.config.ts declares no providers — nobody can sign in, so every " ++
          "request to this route would be refused forever. Declare a provider, or " ++
          "make the route public")
      else
        none

/-- Every module's declaration is checked, in the order of the modules' names. -/
def validateRouteAuth (modules : Modules) (hasAuthProviders : Bool) : Except (List String) Unit :=
  let entries := modules.insertionSort fun a b => a.1 ≤ b.1
  let problems := entries.filterMap fun m => authProblem hasAuthProviders m.1 m.2
  if problems.isEmpty then .ok () else .error problems

/-! ### The manifest -/

structure Path where
  absolute : Bool
  segments : List String

def Path.join (base path : Path) : Path := ⟨base.absolute, base.segments ++ path.segments⟩

def Path.stripPrefix (path root : Path) : Option (List String) :=
  if path.absolute = root.absolute ∧ root.segments <+: path.segments then
    some (path.segments.drop root.segments.length)
  else
    none

/-- A manifest builder: where each component is written, and the project that was
compiled, under its root, when it was. -/
structure ManifestBuilder where
  components : List (ℕ × Path)
  workingDir : Option Path
  compiled : Option (Path × Modules)

def ManifestBuilder.resolveComponentPath (builder : ManifestBuilder) (filePath : Path) :
    Option Path :=
  if filePath.absolute then some filePath
  else builder.workingDir.map fun cwd => cwd.join filePath

def ManifestBuilder.componentEntryForProject (builder : ManifestBuilder) (filePath root : Path) :
    Option String := do
  let absolute ← builder.resolveComponentPath filePath
  let relative ← absolute.stripPrefix root
  return "/".intercalate relative

def ManifestBuilder.rootModule (builder : ManifestBuilder) (rootComponent : ℕ) :
    Option ParsedModule := do
  let (root, modules) ← builder.compiled
  let filePath ← builder.components.lookup rootComponent
  let entry ← builder.componentEntryForProject filePath root
  modules.lookup entry

/-- A gate that cannot be read is an open one. -/
def ManifestBuilder.extractRouteAuth (builder : ManifestBuilder) (rootComponent : ℕ) : RouteAuth :=
  ((builder.rootModule rootComponent).bind fun module =>
    (module.moduleConstants.lookup "auth").bind fun init =>
      (authFromConstExpr init).toOption).getD .anyone

structure RouteActionEntry where
  actionId : UInt32
  name : String

def ManifestBuilder.collectRouteActionIds (builder : ManifestBuilder) (rootComponent : ℕ) :
    List RouteActionEntry :=
  (builder.rootModule rootComponent).elim [] fun module =>
    module.actionDeclarations.map fun name => ⟨allocateFormActionId name, name⟩

structure RouteManifest where
  route : String
  auth : RouteAuth
  actionIds : List RouteActionEntry

def ManifestBuilder.buildRouteManifest (builder : ManifestBuilder) (route : String)
    (rootComponent : ℕ) : RouteManifest where
  route := route
  auth := builder.extractRouteAuth rootComponent
  actionIds := builder.collectRouteActionIds rootComponent

/-! ### The server -/

structure Route where
  url : String
  rootComponent : ℕ
  page : String

/-- A project that is built and served: its sources, the modules they parse to and
the routes it serves. -/
structure Site where
  sources : Sources
  modules : Modules
  parsed : parseProject sources = .ok modules
  builder : ManifestBuilder
  routes : List Route

def Site.manifest (site : Site) : List RouteManifest :=
  site.routes.map fun route => site.builder.buildRouteManifest route.url route.rootComponent

def Site.gatedActionIds (site : Site) : List UInt32 :=
  (site.manifest.filter fun route => !route.auth.allowsAnonymous).flatMap fun route =>
    route.actionIds.map RouteActionEntry.actionId

/-- The tokens minted for sessions, and the reader of a payload's `_csrf` field. -/
structure CsrfRegistry where
  tokens : String → Option String
  field : List UInt8 → Option String

def CsrfRegistry.validate (csrf : CsrfRegistry) (session presented : String) : Bool :=
  match csrf.tokens session with
  | none => false
  | some stored => presented ≠ "" && stored = presented

structure RequestContext where
  session : String
  csrfHeader : Option String
  principal : Option PrincipalId

inductive Refusal where
  | malformed
  | forged
  | unauthorized
  | unknownAction

/-- The gate and the choice of the handler, shared by both entry points: what
runs, or what is answered instead. -/
def Site.dispatchAction (site : Site) (csrf : CsrfRegistry) (ctx : RequestContext)
    (envelope : ActionEnvelope) : Except Refusal ResolvedHandler :=
  match ctx.csrfHeader <|> csrf.field envelope.payload with
  | none => .error .forged
  | some token =>
    if !csrf.validate ctx.session token then .error .forged
    else if site.gatedActionIds.contains envelope.actionId && ctx.principal.isNone then
      .error .unauthorized
    else
      match (handlerTable site.modules).lookup envelope.actionId with
      | none => .error .unknownAction
      | some handler => .ok handler

def Site.runActionRequest (site : Site) (csrf : CsrfRegistry) (ctx : RequestContext)
    (body : List UInt8) : Except Refusal ResolvedHandler :=
  match decodeActionEnvelope body with
  | .error _ => .error .malformed
  | .ok (envelope, _) => site.dispatchAction csrf ctx envelope

def submitEventKind : UInt8 := 2

/-- A form's own post: the action is named in the address, and the payload is what
the body's fields are written as, where it has the type of a form. -/
def Site.runFormActionRequest (site : Site) (csrf : CsrfRegistry) (ctx : RequestContext)
    (actionName : String) (payload : Option (List UInt8)) : Except Refusal ResolvedHandler :=
  match payload with
  | none => .error .malformed
  | some payload =>
    site.dispatchAction csrf ctx ⟨allocateFormActionId actionName, submitEventKind, payload⟩

inductive Submit where
  | envelope (body : List UInt8)
  | form (actionName : String) (payload : Option (List UInt8))

def Site.serve (site : Site) (csrf : CsrfRegistry) (ctx : RequestContext) :
    Submit → Except Refusal ResolvedHandler
  | .envelope body => site.runActionRequest csrf ctx body
  | .form actionName payload => site.runFormActionRequest csrf ctx actionName payload

end Albedo.Actions
