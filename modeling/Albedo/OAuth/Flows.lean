import Albedo.Auth.Accounts
import Albedo.Library.Fallible
import Albedo.OAuth.Pending

/-!
# Sign-ins with another site

A flow is begun by a sign-in or by a link, and ends in a callback with the cookie the first leg
gave. What the provider answers, and what the tables answer, is not the routes' to choose.
-/
namespace Albedo.OAuth
open Auth Fallible FormUrlencoded Interleave

/-! ### Providers -/

inductive ProviderKind
  | passkey | password | magicLink | oauth | oidc | delegated | custom
  deriving DecidableEq

inductive SecretDecl
  | env (name : String)
  | value (value : List Char)

structure ResolvedProvider where
  name : String
  kind : ProviderKind
  scopes : List (List Char)
  clientId : Option SecretDecl
  clientSecret : Option SecretDecl

structure OAuthEndpoints where
  authorize : List Char
  token : List Char
  userinfo : Option (List Char)

inductive OAuthError
  | notAnOAuthProvider (provider : String)
  | needsDiscovery (provider discoveryUrl : String)
  | missingCredential (provider field : String)
  | incompleteDiscovery (field : String)
  | provider (code : List Char) (description : Option (List Char))
  | stateMismatch
  | noPendingFlow
  | malformed (what reason : String)
  | subjectNotFound (claim : String) (available : List String)

/-- What an app declares, and what is around it. -/
structure Site where
  providers : List ResolvedProvider
  env : String → Option (List Char)
  origin : List Char
  pkceChallenge : List Char → List Char
  ttlMs : ℤ

def Site.provider (site : Site) (name : String) : Option ResolvedProvider :=
  site.providers.find? fun provider => provider.name = name

def credential (env : String → Option (List Char)) (provider : ResolvedProvider)
    (decl : Option SecretDecl) (field : String) : Except OAuthError (List Char) :=
  match decl with
  | none => .error (.missingCredential provider.name field)
  | some (.value value) => .ok value
  | some (.env name) =>
      match env name with
      | some value => .ok value
      | none => .error (.missingCredential provider.name field)

/-! ### What is asked of a provider -/

structure FlowStart where
  authorize : List Char
  query : List (List Char × List Char)
  state : RandomToken
  verifier : RandomToken

structure OutboundRequest where
  method : String
  url : List Char
  headers : List (String × List Char)
  body : Option (List Char)

def redirectUri (site : Site) (provider : String) : List Char :=
  (site.origin.reverse.dropWhile (· = '/')).reverse ++
    ("/_albedo/auth/oauth/" ++ provider ++ "/callback").toList

/-- `oauth::begin`; the two secrets are drawn. -/
def beginFlow (site : Site) (provider : ResolvedProvider) (endpoints : OAuthEndpoints)
    (state verifier : RandomToken) : Except OAuthError FlowStart := do
  let clientId ← credential site.env provider provider.clientId "clientId"
  return {
    authorize := endpoints.authorize
    query := [("response_type".toList, "code".toList), ("client_id".toList, clientId),
      ("redirect_uri".toList, redirectUri site provider.name), ("state".toList, state.text),
      ("code_challenge".toList, site.pkceChallenge verifier.text),
      ("code_challenge_method".toList, "S256".toList)] ++
      if provider.scopes = [] then []
      else [("scope".toList, [' '].intercalate provider.scopes)]
    state
    verifier }

def tokenPairs (code redirect clientId clientSecret verifier : List Char) :
    List (List Char × List Char) :=
  [("grant_type".toList, "authorization_code".toList), ("code".toList, code),
    ("redirect_uri".toList, redirect), ("client_id".toList, clientId),
    ("client_secret".toList, clientSecret), ("code_verifier".toList, verifier)]

def userAgent : List Char := "albedo/1.0.0".toList

def tokenRequest (site : Site) (provider : ResolvedProvider) (endpoints : OAuthEndpoints)
    (code verifier : List Char) : Except OAuthError OutboundRequest := do
  let clientId ← credential site.env provider provider.clientId "clientId"
  let clientSecret ← credential site.env provider provider.clientSecret "clientSecret"
  return {
    method := "POST"
    url := endpoints.token
    headers := [("content-type", "application/x-www-form-urlencoded".toList),
      ("accept", "application/json".toList), ("user-agent", userAgent)]
    body := some (serialize
      (tokenPairs code (redirectUri site provider.name) clientId clientSecret verifier)) }

structure TokenResponse where
  accessToken : List Char
  idToken : Option (List Char)

def profileRequest (endpoints : OAuthEndpoints) (token : TokenResponse) :
    Except OAuthError OutboundRequest :=
  match endpoints.userinfo with
  | none => .error (.incompleteDiscovery "userinfo_endpoint")
  | some userinfo => .ok {
      method := "GET"
      url := userinfo
      headers := [("authorization", "Bearer ".toList ++ token.accessToken),
        ("accept", "application/json".toList), ("user-agent", userAgent)]
      body := none }

/-! ### The legs -/

inductive Reply
  | refused (status : ℕ) (message : String) (back : ReturnPath)
  | failed (error : OAuthError) (back : ReturnPath)
  | redirected (status : ℕ) (flow : FlowStart) (cookie : List Char)
  | seeOther (back : ReturnPath)
  | opened (principal : PrincipalId) (back : ReturnPath)

def queryGet (query : List Char) (name : String) : Option (List Char) :=
  (parse query).reverse.lookup name.toList

def returnPathFrom (query : List Char) : ReturnPath :=
  ((queryGet query "next").bind ReturnPath.parse).getD ReturnPath.root

/-- A first leg, with what is drawn for it. -/
structure Opening where
  endpoints : Except OAuthError OAuthEndpoints
  state : RandomToken
  verifier : RandomToken

/-- `begin_flow`: the flow that is given to the browser, or why there is none. -/
def pendingFlow (site : Site) (provider : ResolvedProvider) (opening : Opening) (back : ReturnPath)
    (link : Option ParsedId) : Except OAuthError (FlowStart × PendingFlow) := do
  let endpoints ← opening.endpoints
  let flow ← beginFlow site provider endpoints opening.state opening.verifier
  return (flow, ⟨flow.state.text, flow.verifier.text, back.path, link⟩)

structure LinkForm where
  returnField : Option (List Char)
  csrfValid : Bool

def LinkForm.back (form : LinkForm) : ReturnPath :=
  (form.returnField.bind ReturnPath.parse).getD ReturnPath.root

def linkStart (form : Except String LinkForm) (principal : Option ParsedId) :
    Except Reply (ReturnPath × ParsedId) :=
  match form with
  | .error message => .error (.refused 400 message ReturnPath.root)
  | .ok form =>
      if ¬ form.csrfValid then
        .error (.refused 403 "This form is stale. Reload the page and try again." form.back)
      else match principal with
      | none => .error (.refused 401
          "Sign in first — a sign-in method is connected to the account you are signed in to."
          form.back)
      | some principal => .ok (form.back, principal)

/-- A callback: what the browser brings, and what the provider answers. -/
structure Arrival where
  query : List Char
  cookie : Option (List Char)
  endpoints : Except OAuthError OAuthEndpoints
  token : OutboundRequest → Except OAuthError TokenResponse
  profile : OutboundRequest → Except OAuthError (String × ProviderProfile)
  session : Option TokenHash
  principal : Option ParsedId
  remembered : Option ReturnPath
  now : ℤ
  minted : PrincipalId
  sessionHash : TokenHash

def verifyState (expected presented : List Char) : Except OAuthError Unit :=
  if expected = [] ∨ expected ≠ presented then .error .stateMismatch else .ok ()

structure Admitted where
  pending : PendingFlow
  exchange : OutboundRequest
  subject : String
  profile : ProviderProfile

def Arrival.pending (arrival : Arrival) : Option PendingFlow :=
  arrival.cookie.bind PendingFlow.decode

def Arrival.back (arrival : Arrival) : ReturnPath :=
  (arrival.pending.bind fun flow => ReturnPath.parse flow.back).getD ReturnPath.root

/-- `callback`, to where the provider has said who it is. -/
def admission (site : Site) (provider : ResolvedProvider) (arrival : Arrival) :
    Except OAuthError Admitted :=
  match queryGet arrival.query "error" with
  | some code => .error (.provider code (queryGet arrival.query "error_description"))
  | none =>
      match arrival.pending with
      | none => .error .noPendingFlow
      | some pending =>
          match queryGet arrival.query "code" with
          | none => .error (.malformed "callback" "no `code`")
          | some code => do
              verifyState pending.state ((queryGet arrival.query "state").getD [])
              let endpoints ← arrival.endpoints
              let exchange ← tokenRequest site provider endpoints code pending.verifier
              let token ← arrival.token exchange
              let read ← profileRequest endpoints token
              let (subject, profile) ← arrival.profile read
              return ⟨pending, exchange, subject, profile⟩

def linkIdentity (provider : ResolvedProvider) (arrival : Arrival) (linkTo : ParsedId)
    (subject : String) : Prog AuthStore Reply :=
  if arrival.principal ≠ some linkTo then
    return .refused 409 ("You signed out, or into a different account, while connecting. " ++
      "Sign in and try again.") arrival.back
  else do
    match ← linkAccount linkTo.val provider.name subject arrival.now with
    | .linked | .alreadyLinked => return .seeOther arrival.back
    | .takenByAnother => return .refused 409 ("That " ++ provider.name ++
        " account already signs in to a different account here, so it was not connected. " ++
        "Sign in with it to use that account instead.") arrival.back
    | .providerAlreadyConnected => return .refused 409 ("A different " ++ provider.name ++
        " account is already connected. Disconnect it first.") arrival.back

def openSession (site : Site) (provider : ResolvedProvider) (arrival : Arrival) (principal : PrincipalId) :
    Prog AuthStore Reply := do
  match arrival.session with
  | some existing =>
      rotateSession existing principal provider.name arrival.now site.ttlMs arrival.sessionHash
  | none => createSession principal provider.name arrival.now site.ttlMs arrival.sessionHash
  return .opened principal (arrival.remembered.getD arrival.back)

def Admitted.finish (site : Site) (provider : ResolvedProvider) (arrival : Arrival)
    (admitted : Admitted) : Prog AuthStore Reply :=
  match admitted.pending.link with
  | some linkTo => linkIdentity provider arrival linkTo admitted.subject
  | none => do
      let principal ← upsertPrincipal provider.name admitted.subject admitted.profile arrival.now
        arrival.minted
      openSession site provider arrival principal.id

def callback (site : Site) (provider : ResolvedProvider) (arrival : Arrival) : Prog AuthStore Reply :=
  match admission site provider arrival with
  | .error error => return .failed error arrival.back
  | .ok admitted => admitted.finish site provider arrival

/-- `run_oauth_route` finds a provider that has a browser leg. -/
def Site.route (site : Site) (name : String) : Option ResolvedProvider :=
  (site.provider name).filter fun provider => provider.kind = .oauth || provider.kind = .oidc

/-! ### What a callback is let through for -/

variable {site : Site} {provider : ResolvedProvider} {arrival : Arrival} {admitted : Admitted}

/-- An admitted callback opens a session, or links to the principal that is signed in. -/
def Admitted.acts (admitted : Admitted) (arrival : Arrival) : Bool :=
  match admitted.pending.link with
  | none => true
  | some linkTo => arrival.principal = some linkTo

/-- A callback comes to the tables exactly where it is admitted and acts. -/
theorem callback_done_iff : (∃ reply, callback site provider arrival = .done reply) ↔
    ∀ admitted, admission site provider arrival = .ok admitted → admitted.acts arrival = false := by
  unfold callback
  cases hadmit : admission site provider arrival with
  | error error => exact iff_of_true ⟨_, rfl⟩ fun _ h => nomatch h
  | ok admitted =>
      have hall : (∀ other, Except.ok (ε := OAuthError) admitted = .ok other →
          other.acts arrival = false) ↔ admitted.acts arrival = false :=
        ⟨fun h => h admitted rfl, fun h other hother => Except.ok.inj hother ▸ h⟩
      rw [hall]
      unfold Admitted.acts Admitted.finish
      dsimp only
      cases hlink : admitted.pending.link with
      | none => exact iff_of_false (fun ⟨_, h⟩ => nomatch h) Bool.noConfusion
      | some linkTo =>
          dsimp only
          by_cases hown : arrival.principal = some linkTo
          · rw [linkIdentity, if_neg (not_not_intro hown)]
            exact iff_of_false (fun ⟨_, h⟩ => nomatch h) (by simp [hown])
          · rw [linkIdentity, if_pos hown]
            exact iff_of_true ⟨_, rfl⟩ (by simp [hown])

theorem verifyState_eq_ok {expected presented : List Char}
    (h : verifyState expected presented = .ok ()) : expected ≠ [] ∧ expected = presented := by
  unfold verifyState at h
  split_ifs at h with hbad
  rw [not_or, not_not] at hbad
  exact hbad

theorem mem_parse_tokenRequest {endpoints : OAuthEndpoints} {code verifier : List Char}
    {exchange : OutboundRequest} (h : tokenRequest site provider endpoints code verifier = .ok exchange) :
    ∃ body, exchange.body = some body ∧ ("code_verifier".toList, verifier) ∈ parse body := by
  unfold tokenRequest at h
  obtain ⟨clientId, -, h⟩ := bind_eq_ok.mp h
  obtain ⟨clientSecret, -, h⟩ := bind_eq_ok.mp h
  obtain rfl := Except.ok.inj h
  refine ⟨_, rfl, ?_⟩
  rw [parse_serialize]
  unfold tokenPairs
  simp only [List.mem_cons, true_or, or_true]

/-- A callback is admitted with the flow of its cookie, the state of that flow in its query, and
its verifier in the exchange. -/
theorem admission_eq_ok (h : admission site provider arrival = .ok admitted) :
    arrival.pending = some admitted.pending ∧
      queryGet arrival.query "state" = some admitted.pending.state ∧
      ∃ body, admitted.exchange.body = some body ∧
        ("code_verifier".toList, admitted.pending.verifier) ∈ parse body := by
  unfold admission at h
  cases herror : queryGet arrival.query "error" with
  | some code =>
      rw [herror] at h
      cases h
  | none =>
      cases hpending : arrival.pending with
      | none =>
          rw [herror, hpending] at h
          cases h
      | some pending =>
          cases hcode : queryGet arrival.query "code" with
          | none =>
              rw [herror, hpending, hcode] at h
              cases h
          | some code =>
              rw [herror, hpending, hcode] at h
              obtain ⟨_, hstate, h⟩ := bind_eq_ok.mp h
              obtain ⟨endpoints, -, h⟩ := bind_eq_ok.mp h
              obtain ⟨exchange, hexchange, h⟩ := bind_eq_ok.mp h
              obtain ⟨token, -, h⟩ := bind_eq_ok.mp h
              obtain ⟨read, -, h⟩ := bind_eq_ok.mp h
              obtain ⟨⟨subject, profile⟩, -, h⟩ := bind_eq_ok.mp h
              obtain rfl := Except.ok.inj h
              refine ⟨rfl, ?_, mem_parse_tokenRequest hexchange⟩
              obtain ⟨hne, heq⟩ := verifyState_eq_ok hstate
              cases hquery : queryGet arrival.query "state" with
              | none =>
                  rw [hquery] at heq
                  exact absurd heq hne
              | some presented =>
                  rw [hquery] at heq
                  exact congrArg some heq.symm

/-! ### Runs -/

structure Begun where
  provider : String
  link : Option ParsedId
  flow : PendingFlow

structure Begun.Plain (begun : Begun) : Prop where
  drawn : begun.flow.Drawn
  link : begun.flow.link = begun.link
  back : '.' ∉ begun.flow.back

/-- A callback that was let through to open a session, or to link to a principal. -/
structure Deed where
  provider : String
  link : Option ParsedId
  query : List Char
  cookie : Option (List Char)
  exchange : OutboundRequest

structure System where
  begun : List Begun
  deeds : List Deed

inductive Event
  | start (provider : String) (query : List Char) (opening : Opening)
  | link (provider : String) (form : Except String LinkForm) (principal : Option ParsedId)
      (opening : Opening)
  | callback (provider : String) (arrival : Arrival)

namespace System

def begin (site : Site) (σ : System) (name : String) (opening : Opening) (back : ReturnPath)
    (link : Option ParsedId) : System :=
  match site.route name with
  | none => σ
  | some provider =>
      match pendingFlow site provider opening back link with
      | .error _ => σ
      | .ok (_, flow) => { σ with begun := ⟨name, link, flow⟩ :: σ.begun }

def next (site : Site) (σ : System) : Event → System
  | .start name query opening => σ.begin site name opening (returnPathFrom query) none
  | .link name form principal opening =>
      match linkStart form principal with
      | .error _ => σ
      | .ok (back, principal) => σ.begin site name opening back (some principal)
  | .callback name arrival =>
      match site.route name with
      | none => σ
      | some provider =>
          match admission site provider arrival with
          | .error _ => σ
          | .ok admitted =>
              if admitted.acts arrival then
                { σ with deeds :=
                    ⟨name, admitted.pending.link, arrival.query, arrival.cookie, admitted.exchange⟩ ::
                      σ.deeds }
              else σ

/-- A browser presents no cookie, the empty one a callback leaves, or one it was given. -/
def Presents (σ : System) : Event → Prop
  | .callback _ arrival => ∀ cookie, arrival.cookie = some cookie →
      cookie = [] ∨ ∃ begun ∈ σ.begun, begun.flow.encode = cookie
  | _ => True

def Meets (σ : System) : Event → Prop
  | .start _ query _ => '.' ∉ (returnPathFrom query).path
  | .link _ form _ _ => ∀ form', form = .ok form' → '.' ∉ form'.back.path
  | .callback name arrival =>
      ∀ begun ∈ σ.begun, arrival.cookie = some begun.flow.encode → begun.provider = name

inductive Run (site : Site) (P : System → Event → Prop) : System → Prop
  | start : Run site P ⟨[], []⟩
  | next {σ : System} (hrun : Run site P σ) (event : Event) (hpresents : σ.Presents event)
      (hevent : P σ event) : Run site P (σ.next site event)

/-- The flow was begun at the provider by the same kind of request, its state is in the query, and
its verifier is what the code was exchanged with. -/
structure Binds (begun : Begun) (deed : Deed) : Prop where
  cookie : deed.cookie = some begun.flow.encode
  provider : begun.provider = deed.provider
  link : begun.link = deed.link
  state : queryGet deed.query "state" = some begun.flow.state
  verifier : ∃ body, deed.exchange.body = some body ∧
    ("code_verifier".toList, begun.flow.verifier) ∈ parse body

structure Bound (σ : System) : Prop where
  deeds : ∀ deed ∈ σ.deeds, ∃ begun ∈ σ.begun, Binds begun deed
  flows : ∀ begun ∈ σ.begun, PendingFlow.decode begun.flow.encode = some begun.flow

structure Inv (σ : System) : Prop where
  plain : ∀ begun ∈ σ.begun, begun.Plain
  deeds : ∀ deed ∈ σ.deeds, ∃ begun ∈ σ.begun, Binds begun deed

variable {σ : System}

theorem Inv.bound (h : σ.Inv) : σ.Bound where
  deeds := h.deeds
  flows begun hbegun := by
    obtain ⟨hdrawn, -, hback⟩ := h.plain begun hbegun
    exact hdrawn.decode_encode.mpr hback

theorem pendingFlow_eq_ok {opening : Opening} {back : ReturnPath} {link : Option ParsedId}
    {start : FlowStart} {flow : PendingFlow}
    (h : pendingFlow site provider opening back link = .ok (start, flow)) :
    flow = ⟨opening.state.text, opening.verifier.text, back.path, link⟩ := by
  unfold pendingFlow at h
  obtain ⟨endpoints, -, h⟩ := bind_eq_ok.mp h
  obtain ⟨started, hstarted, h⟩ := bind_eq_ok.mp h
  obtain ⟨rfl, rfl⟩ := Prod.mk.inj (Except.ok.inj h)
  unfold beginFlow at hstarted
  obtain ⟨clientId, -, hstarted⟩ := bind_eq_ok.mp hstarted
  obtain rfl := Except.ok.inj hstarted
  rfl

theorem Inv.begin (h : σ.Inv) (name : String) (opening : Opening) {back : ReturnPath}
    (hback : '.' ∉ back.path) (link : Option ParsedId) : (σ.begin site name opening back link).Inv := by
  unfold System.begin
  split
  · exact h
  · split
    · exact h
    · rename_i hflow
      obtain rfl := pendingFlow_eq_ok hflow
      refine ⟨?_, ?_⟩
      · intro begun hbegun
        rcases List.mem_cons.mp hbegun with rfl | hold
        · exact ⟨⟨⟨opening.state, rfl⟩, ⟨opening.verifier, rfl⟩⟩, rfl, hback⟩
        · exact h.plain begun hold
      · intro deed hdeed
        obtain ⟨begun, hbegun, hbinds⟩ := h.deeds deed hdeed
        exact ⟨begun, List.mem_cons_of_mem _ hbegun, hbinds⟩

theorem decode_nil : PendingFlow.decode [] = none := rfl

theorem Inv.next (h : σ.Inv) {event : Event} (hpresents : σ.Presents event) (hmeets : σ.Meets event) :
    (σ.next site event).Inv := by
  cases event with
  | start name query opening => exact h.begin name opening hmeets none
  | link name form principal opening =>
      unfold System.next
      dsimp only
      cases hlink : linkStart form principal with
      | error reply => exact h
      | ok begins =>
          obtain ⟨back, who⟩ := begins
          unfold linkStart at hlink
          split at hlink
          case h_1 => cases hlink
          case h_2 form' =>
            split_ifs at hlink
            split at hlink
            case h_1 => cases hlink
            case h_2 =>
              cases hlink
              exact h.begin name opening (hmeets form' rfl) _
  | callback name arrival =>
      unfold System.next
      dsimp only
      split
      · exact h
      · split
        · exact h
        · split_ifs
          · rename_i admitted hadmit _
            refine ⟨h.plain, ?_⟩
            intro deed hdeed
            rcases List.mem_cons.mp hdeed with rfl | hold
            · obtain ⟨hpending, hstate, hverifier⟩ := admission_eq_ok hadmit
              obtain ⟨cookie, hcookie, hdecode⟩ := Option.bind_eq_some_iff.mp hpending
              -- The cookie was given with a flow, and reads back as that flow.
              rcases hpresents cookie hcookie with rfl | ⟨begun, hbegun, rfl⟩
              · rw [decode_nil] at hdecode
                cases hdecode
              · obtain ⟨hdrawn, hlink, hback⟩ := h.plain begun hbegun
                rw [hdrawn.decode_encode.mpr hback] at hdecode
                obtain hflow := Option.some.inj hdecode
                refine ⟨begun, hbegun, hcookie, hmeets begun hbegun hcookie, ?_, ?_, ?_⟩
                · rw [← hflow, hlink]
                · rw [hflow]
                  exact hstate
                · rw [hflow]
                  exact hverifier
            · exact h.deeds deed hold
          · exact h

theorem Run.inv (h : Run site Meets σ) : σ.Inv := by
  induction h with
  | start =>
      refine ⟨?_, ?_⟩
      · intro begun hbegun
        cases hbegun
      · intro deed hdeed
        cases hdeed
  | next hrun event hpresents hmeets ih => exact ih.next hpresents hmeets

/-- Where no way back has a dot in it and a flow comes back to the provider it was begun at, what a
callback does is bound to its flow, and every flow is read from its cookie as it was. -/
theorem bound_of_meets (h : Run site Meets σ) : σ.Bound :=
  h.inv.bound

/-! ### Two flows that go astray -/

def credentialed (name : String) : ResolvedProvider :=
  ⟨name, .oauth, [], some (.value ['i', 'd']), some (.value ['k', 'e', 'y'])⟩

def twoProviders : Site where
  providers := [credentialed "github", credentialed "google"]
  env _ := none
  origin := "https://app.example".toList
  pkceChallenge verifier := verifier
  ttlMs := 0

def drawnState : RandomToken := ⟨List.replicate 43 'a', rfl, by decide⟩

def endpoints : OAuthEndpoints := ⟨['a'], ['t'], some ['u']⟩

def opening : Opening := ⟨.ok endpoints, drawnState, drawnState⟩

def ada : ParsedId := ⟨"u_1", by decide⟩

def arrives (cookie : List Char) : Arrival where
  query := "code=c&state=".toList ++ List.replicate 43 'a'
  cookie := some cookie
  endpoints := .ok endpoints
  token _ := .ok ⟨['t'], none⟩
  profile _ := .ok ("1", ⟨none, none, none⟩)
  session := none
  principal := some ada
  remembered := none
  now := 0
  minted := "u_2"
  sessionHash := "s"

def signInCookie (back : List Char) : List Char :=
  PendingFlow.encode ⟨List.replicate 43 'a', List.replicate 43 'a', back, none⟩

/-- A sign-in that comes back to its own provider with nothing in its path to split. -/
theorem bound_of_meets_github :
    ∃ σ : System, σ.deeds.length = 1 ∧ σ.Bound := by
  have hback : '.' ∉ (returnPathFrom []).path := by decide
  have hstart : Run twoProviders Meets
      ((⟨[], []⟩ : System).next twoProviders (.start "github" [] opening)) :=
    .next .start _ trivial hback
  have hcallback := hstart.next (.callback "github" (arrives (signInCookie ['/'])))
    (fun cookie hcookie => .inr ⟨_, List.mem_cons_self, Option.some.inj hcookie⟩)
    (fun begun hbegun _ => by rw [List.mem_singleton.mp hbegun])
  exact ⟨_, rfl, bound_of_meets hcallback⟩

/-- A dot in the way back makes a link of a sign-in, and a flow that was begun at one provider
opens a session at another. -/
theorem astray_not_bound :
    (∃ σ : System, Run twoProviders (fun _ _ => True) σ ∧ ¬ σ.Bound ∧
      σ.begun.map Begun.link = [none] ∧ σ.deeds.map Deed.link = [some ada]) ∧
    ∃ σ : System, Run twoProviders (fun _ _ => True) σ ∧ ¬ σ.Bound ∧
      σ.begun.map Begun.provider = ["github"] ∧ σ.deeds.map Deed.provider = ["google"] := by
  constructor
  · have hstart : Run twoProviders (fun _ _ => True)
        ((⟨[], []⟩ : System).next twoProviders (.start "github" "next=/a.u_1".toList opening)) :=
      .next .start _ trivial trivial
    have hcallback := hstart.next (.callback "github" (arrives (signInCookie "/a.u_1".toList)))
      (fun cookie hcookie => .inr ⟨_, List.mem_cons_self, Option.some.inj hcookie⟩) trivial
    refine ⟨_, hcallback, fun hbound => ?_, rfl, rfl⟩
    obtain ⟨begun, hbegun, hbinds⟩ := hbound.deeds _ List.mem_cons_self
    have hlink := hbinds.link
    rw [List.mem_singleton.mp hbegun] at hlink
    cases hlink
  · have hstart : Run twoProviders (fun _ _ => True)
        ((⟨[], []⟩ : System).next twoProviders (.start "github" [] opening)) :=
      .next .start _ trivial trivial
    have hcallback := hstart.next (.callback "google" (arrives (signInCookie ['/'])))
      (fun cookie hcookie => .inr ⟨_, List.mem_cons_self, Option.some.inj hcookie⟩) trivial
    refine ⟨_, hcallback, fun hbound => ?_, rfl, rfl⟩
    obtain ⟨begun, hbegun, hbinds⟩ := hbound.deeds _ List.mem_cons_self
    have hprovider := hbinds.provider
    rw [List.mem_singleton.mp hbegun] at hprovider
    exact absurd hprovider (by decide)

end System

end Albedo.OAuth
