import Albedo.Actions.Gate

/-!
# When a gate holds

A page whose exported `auth` is `"required"` is gated where the build reads that
declaration, its handlers are refused where the routes list their numbers, and an
action is the one its page named where no other handler has its number.
-/
namespace Albedo.Actions
open Forge Ir KeyedList Topics

variable {site : Site}

/-! ### The claim -/

def Site.Closed (site : Site) (route : Route) : Prop :=
  route ∈ site.routes ∧ Reads site.sources .exported route.page "auth" "required"

/-- A closed page is recorded as closed, and no request without a principal runs a
handler of it, with any token, payload and number, on either transport. -/
def Site.Gated (site : Site) : Prop :=
  ∀ route, site.Closed route →
    (site.builder.buildRouteManifest route.url route.rootComponent).auth = .required ∧
      ∀ csrf ctx submit handler, ctx.principal = none →
        site.serve csrf ctx submit = .ok handler → handler.moduleSpec ≠ route.page

def Submit.Names (submit : Submit) (actionId : UInt32) : Prop :=
  match submit with
  | .envelope body => ∃ envelope rest, decodeActionEnvelope body = .ok (envelope, rest) ∧
      envelope.actionId = actionId
  | .form actionName _ => allocateFormActionId actionName = actionId

/-- A request that names an action runs the action of the page that declares it. -/
def Site.ReachesNamed (site : Site) : Prop :=
  ∀ m ∈ site.modules, ∀ name ∈ m.2.actionDeclarations, ∀ csrf ctx submit handler,
    submit.Names (allocateFormActionId name) →
      site.serve csrf ctx submit = .ok handler → handler = actionHandler m.1 name

/-! ### The condition -/

/-- The build finds the page's declaration: the root component leads to a module
whose own first constant `auth` is the plain string `"required"`. -/
def Site.DeclaresInPlace (site : Site) (route : Route) : Prop :=
  ∃ module, site.builder.rootModule route.rootComponent = some module ∧
    module.moduleConstants.lookup "auth" = some (.text "required")

/-- Every number under which a handler of the page is kept is listed by a closed route. -/
def Site.ListsHandlers (site : Site) (route : Route) : Prop :=
  ∀ actionId handler, (handlerTable site.modules).lookup actionId = some handler →
    handler.moduleSpec = route.page → actionId ∈ site.gatedActionIds

def Site.ActionsApart (site : Site) : Prop :=
  ∀ m ∈ site.modules, ∀ name ∈ m.2.actionDeclarations, ∀ handler,
    (handlerTable site.modules).lookup (allocateFormActionId name) = some handler →
      handler = actionHandler m.1 name

/-! ### The recorded gate -/

theorem authFromConstExpr_eq_required {init : Init} :
    (authFromConstExpr init).toOption = some .required ↔ init = .text "required" := by
  cases init with
  | text value =>
    simp only [authFromConstExpr, parseRouteAuth, Init.text.injEq]
    split_ifs with hpublic hrequired
    · subst hpublic
      simp [Except.toOption]
    · simp [Except.toOption, hrequired]
    · simp [Except.toOption, hrequired]
  | action => simp [authFromConstExpr, Except.toOption]
  | function events => simp [authFromConstExpr, Except.toOption]
  | other value => simp [authFromConstExpr, Except.toOption]

theorem getD_anyone_eq_required {auth : Option RouteAuth} :
    auth.getD .anyone = .required ↔ auth = some .required := by
  cases auth with
  | none => simp
  | some auth => simp

theorem auth_eq_required (route : Route) :
    (site.builder.buildRouteManifest route.url route.rootComponent).auth = .required ↔
      site.DeclaresInPlace route := by
  change site.builder.extractRouteAuth route.rootComponent = .required ↔ _
  rw [ManifestBuilder.extractRouteAuth, getD_anyone_eq_required, Option.bind_eq_some_iff]
  refine exists_congr fun module => and_congr_right fun _ => ?_
  rw [Option.bind_eq_some_iff]
  constructor
  · rintro ⟨init, hinit, hauth⟩
    rw [hinit, authFromConstExpr_eq_required.mp hauth]
  · intro hinit
    exact ⟨_, hinit, authFromConstExpr_eq_required.mpr rfl⟩

/-! ### What a request runs -/

def Site.Admits (site : Site) (actionId : UInt32) (principal : Option PrincipalId) : Prop :=
  actionId ∈ site.gatedActionIds → principal ≠ none

theorem dispatchAction_ok {csrf : CsrfRegistry} {ctx : RequestContext} {envelope : ActionEnvelope}
    {handler : ResolvedHandler} (h : site.dispatchAction csrf ctx envelope = .ok handler) :
    site.Admits envelope.actionId ctx.principal ∧
      (handlerTable site.modules).lookup envelope.actionId = some handler := by
  unfold Site.dispatchAction at h
  cases htoken : ctx.csrfHeader <|> csrf.field envelope.payload with
  | none =>
    rw [htoken] at h
    cases h
  | some token =>
    rw [htoken] at h
    simp only at h
    split_ifs at h with hforged hgated
    cases hlookup : (handlerTable site.modules).lookup envelope.actionId with
    | none =>
      rw [hlookup] at h
      cases h
    | some found =>
      rw [hlookup] at h
      cases h
      refine ⟨fun hmem hnone => hgated ?_, rfl⟩
      simp [hmem, hnone]

/-- Whatever runs is what the table has under the number that is named, and the gate
lets the caller use it. -/
theorem serve_ok {csrf : CsrfRegistry} {ctx : RequestContext} {submit : Submit}
    {handler : ResolvedHandler} (h : site.serve csrf ctx submit = .ok handler) :
    ∃ actionId, submit.Names actionId ∧ site.Admits actionId ctx.principal ∧
      (handlerTable site.modules).lookup actionId = some handler := by
  cases submit with
  | envelope body =>
    simp only [Site.serve, Site.runActionRequest] at h
    cases hbody : decodeActionEnvelope body with
    | error e =>
      rw [hbody] at h
      cases h
    | ok decoded =>
      rw [hbody] at h
      obtain ⟨hadmits, hlookup⟩ := dispatchAction_ok h
      exact ⟨_, ⟨decoded.1, decoded.2, hbody, rfl⟩, hadmits, hlookup⟩
  | form actionName payload =>
    simp only [Site.serve, Site.runFormActionRequest] at h
    cases payload with
    | none => cases h
    | some payload =>
      obtain ⟨hadmits, hlookup⟩ := dispatchAction_ok h
      exact ⟨_, rfl, hadmits, hlookup⟩

/-- A session that has minted a token and presents it. -/
def openRegistry : CsrfRegistry := ⟨fun _ => some "t", fun _ => none⟩

theorem dispatchAction_open {ctx : RequestContext} {envelope : ActionEnvelope}
    {handler : ResolvedHandler} (htoken : ctx.csrfHeader = some "t")
    (hadmits : site.Admits envelope.actionId ctx.principal)
    (hlookup : (handlerTable site.modules).lookup envelope.actionId = some handler) :
    site.dispatchAction openRegistry ctx envelope = .ok handler := by
  have hgate : (site.gatedActionIds.contains envelope.actionId && ctx.principal.isNone) = false := by
    rw [Bool.and_eq_false_iff, List.contains_eq_mem, decide_eq_false_iff_not]
    by_cases hmem : envelope.actionId ∈ site.gatedActionIds
    · refine Or.inr ?_
      rw [Option.isNone_eq_false_iff, Option.isSome_iff_ne_none]
      exact hadmits hmem
    · exact Or.inl hmem
  have hvalid : openRegistry.validate ctx.session "t" = true := by
    simp [CsrfRegistry.validate, openRegistry]
  have hpresented : (ctx.csrfHeader <|> openRegistry.field envelope.payload) = some "t" := by
    rw [htoken]
    rfl
  unfold Site.dispatchAction
  rw [hpresented]
  simp only [hvalid, hgate, hlookup]
  rfl

theorem serve_envelope {actionId : UInt32} {handler : ResolvedHandler}
    {principal : Option PrincipalId} (hadmits : site.Admits actionId principal)
    (hlookup : (handlerTable site.modules).lookup actionId = some handler) :
    ∃ csrf ctx submit, ctx.principal = principal ∧ submit.Names actionId ∧
      site.serve csrf ctx submit = .ok handler := by
  obtain ⟨received, hdecode, hid, _⟩ :=
    (decodeActionEnvelope_same ⟨actionId.toNat, 0, ⟨[], by decide⟩⟩ []).mpr
      ⟨actionId.toNat_lt, (by decide : claimed 0 ≤ maxWireDecodeBytes)⟩
  have hid : received.actionId = actionId := UInt32.toNat_inj.mp hid
  refine ⟨openRegistry, ⟨"s", some "t", principal⟩, .envelope _, rfl,
    ⟨received, _, hdecode, hid⟩, ?_⟩
  simp only [Site.serve, Site.runActionRequest, hdecode]
  exact dispatchAction_open rfl (hid ▸ hadmits) (hid ▸ hlookup)

theorem gated_iff : site.Gated ↔
    ∀ route, site.Closed route → site.DeclaresInPlace route ∧ site.ListsHandlers route := by
  constructor
  · intro h route hclosed
    obtain ⟨hauth, hrefused⟩ := h route hclosed
    refine ⟨(auth_eq_required route).mp hauth, fun actionId handler hlookup hpage => ?_⟩
    by_contra hlisted
    have hadmits : site.Admits actionId none := fun hmem => absurd hmem hlisted
    obtain ⟨csrf, ctx, submit, hprincipal, _, hserve⟩ := serve_envelope hadmits hlookup
    exact hrefused csrf ctx submit handler hprincipal hserve hpage
  · intro h route hclosed
    obtain ⟨hdeclares, hlists⟩ := h route hclosed
    refine ⟨(auth_eq_required route).mpr hdeclares, ?_⟩
    intro csrf ctx submit handler hprincipal hserve hpage
    obtain ⟨actionId, _, hadmits, hlookup⟩ := serve_ok hserve
    exact hadmits (hlists actionId handler hlookup hpage) hprincipal

theorem reachesNamed_iff : site.ReachesNamed ↔ site.ActionsApart := by
  constructor
  · intro h m hm name hname handler hlookup
    let alice : PrincipalId := ⟨"a", by decide⟩
    have hadmits : site.Admits (allocateFormActionId name) (some alice) :=
      fun _ => Option.some_ne_none alice
    obtain ⟨csrf, ctx, submit, _, hnames, hserve⟩ := serve_envelope hadmits hlookup
    exact h m hm name hname csrf ctx submit handler hnames hserve
  · intro h m hm name hname csrf ctx submit handler hnames hserve
    obtain ⟨actionId, hnames', _, hlookup⟩ := serve_ok hserve
    have hsame : actionId = allocateFormActionId name := by
      cases submit with
      | envelope body =>
        obtain ⟨envelope, rest, hdecode, rfl⟩ := hnames'
        obtain ⟨envelope', rest', hdecode', hid⟩ := hnames
        rw [hdecode] at hdecode'
        cases hdecode'
        exact hid
      | form actionName payload => exact hnames'.symm.trans hnames
    exact h m hm name hname handler (hsame ▸ hlookup)

def adminSource : List Item :=
  [.imports "albedo" [("action", "action")], .vars false [.ident "gate" (some (.text "required"))],
    .exportNamed none [("gate", "auth")], .vars true [.ident "wipe" (some .action)],
    .exportDefault (some "Admin") []]

def adminModule : ParsedModule := ⟨[("Admin", [])], [("gate", .text "required"), ("wipe", .action)],
  ["wipe"]⟩

def adminSite : Site where
  sources := [("routes/admin.tsx", adminSource)]
  modules := [("routes/admin.tsx", adminModule)]
  parsed := rfl
  builder := ⟨[(0, ⟨true, ["app", "routes", "admin.tsx"]⟩)], none,
    some (⟨true, ["app"]⟩, [("routes/admin.tsx", adminModule)])⟩
  routes := [⟨"/admin", 0, "routes/admin.tsx"⟩]

end Albedo.Actions
