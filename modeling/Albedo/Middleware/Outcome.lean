import Albedo.Forge.Statement
import Albedo.Library.Percent
import Albedo.Library.SetCookie
import Albedo.Library.WhatwgUrl

/-!
# What a middleware decided

A middleware returns a JSON value, and only what this decoder makes of it is acted upon: the
headers, where a redirect goes, and which path is served instead. What a browser would make of an
accepted cookie or location is read with a browser's own rules.
-/
namespace Albedo.Middleware
open Json (Value)
open Forge (debugText)
open Fallible WhatwgUrl SetCookie

def brand : String := "__albedo_middleware"

def transportHeaders : List String :=
  ["content-length", "transfer-encoding", "connection", "keep-alive", "upgrade", "te", "trailer"]

def frameworkCookiePrefix : List Char := "__Host-albedo".toList

abbrev Headers := List (String × List String)

def Headers.extend (name : String) (values : List String) : Headers → Headers
  | [] => [(name, values)]
  | (found, had) :: headers =>
      if found = name then (found, had ++ values) :: headers
      else (found, had) :: Headers.extend name values headers

inductive Outcome where
  | next (headers : Headers)
  | redirect (location : String) (status : ℕ) (headers : Headers)
  | rewrite (path : String) (query : Option String) (headers : Headers)
  | respond (status : ℕ) (body : String) (headers : Headers)
  deriving DecidableEq

def Outcome.headers : Outcome → Headers
  | .next headers | .redirect _ _ headers | .rewrite _ _ headers | .respond _ _ headers => headers

/-! ### Decoding -/

def describe : Value → String
  | .null => "null"
  | .bool b => s!"the boolean {b}"
  | .number n => "the number " ++ String.ofList n.text
  | .string s => "the string " ++ debugText s
  | .array _ => "an array"
  | .object _ => "an object"

def isTokenChar (c : Char) : Bool := c.isAlphanum || "!#$%&'*+-.^_`|~".toList.contains c

def isBreak (c : Char) : Bool := c = '\r' || c = '\n' || c = '\x00'

def toAsciiLowercase (text : String) : String := String.ofList (text.toList.map Char.toLower)

def cookieText : Value → Except String String
  | .string text => .ok text
  | item => .error ("every `set-cookie` value must be a string, got " ++ describe item)

/-- The values of one header. Only `set-cookie` repeats. -/
def headerValues (name lower : String) : Value → Except String (List String)
  | .string single => .ok [single]
  | .array items =>
      if lower = "set-cookie" then items.mapM cookieText
      else .error (s!"header `{name}` must be a string, got " ++ describe (.array items))
  | other => .error (s!"header `{name}` must be a string, got " ++ describe other)

def checkValue (name lower value : String) : Except String Unit :=
  if value.toList.any isBreak then
    .error s!"header `{name}` contains a line break, which would split the response"
  else if lower = "set-cookie" ∧
      frameworkCookiePrefix.isPrefixOf (value.toList.dropWhile Trim.isWhitespace) then
    .error "`set-cookie` names a `__Host-albedo…` cookie, which belongs to the framework"
  else .ok ()

def decodeFields : List (String × Value) → Headers → Except String Headers
  | [], headers => .ok headers
  | (name, value) :: fields, headers => do
      let lower := toAsciiLowercase name
      if lower.toList = [] ∨ ¬ lower.toList.all isTokenChar then
        .error s!"`{name}` is not a valid header name"
      else if lower ∈ transportHeaders then
        .error s!"`{name}` is set by the server for every response and cannot be set by middleware"
      else
        let values ← headerValues name lower value
        values.forM (checkValue name lower)
        decodeFields fields (headers.extend lower values)

def decodeHeaders : Option Value → Except String Headers
  | none | some .null => .ok []
  | some (.object fields) => decodeFields fields []
  | some other => .error ("headers must be an object of name → string, got " ++ describe other)

def validateLocation (location : String) : Except String Unit :=
  let text := location.toList
  let lower := text.map Char.toLower
  if text.any isBreak then .error "redirect location contains a line break"
  else if "https://".toList.isPrefixOf lower ∨ "http://".toList.isPrefixOf lower ∨
      ['/'].isPrefixOf text ∧ ¬ ['/', '/'].isPrefixOf text ∧ ¬ ['/', '\\'].isPrefixOf text then
    .ok ()
  else
    .error (s!"redirect location \"{location}\" must be a path starting with `/` or an absolute " ++
      "http(s) URL")

def segments (path : List Char) : List (List Char) := (Percent.percentDecodePath path).splitOn '/'

def isFrameworkPath (decoded : List Char) : Bool :=
  decoded = "/_albedo".toList || "/_albedo/".toList.isPrefixOf decoded

/-- A rewrite target is an in-app path: never another host, never a framework lane, never a
traversal. -/
def validateRewrite (target : String) : Except String (String × Option String) :=
  let (path, query) := cut '?' target.toList
  let decoded := Percent.percentDecodePath path
  if target.toList.any fun c => isBreak c || c = '#' then
    .error s!"rewrite target \"{target}\" contains a character a request path cannot"
  else if ¬ ['/'].isPrefixOf path ∨ ['/', '/'].isPrefixOf path then
    .error (s!"rewrite target \"{target}\" must be a path in this app starting with a single " ++
      "`/`; to send the browser somewhere else, use redirect()")
  else if (segments path).any fun segment =>
      segment = ['.'] || segment = ['.', '.'] || segment.contains '\\' then
    .error s!"rewrite target \"{target}\" contains a `.`, `..` or `\\` segment"
  else if isFrameworkPath decoded then
    .error s!"rewrite target \"{target}\" is under `/_albedo/`, which belongs to the framework"
  else .ok (String.ofList path, query.map String.ofList)

/-- The members of the object a middleware returned. -/
abbrev Fields := List (String × Value)

def stringField (object : Fields) (field call : String) : Except String String :=
  match object.lookup field with
  | some (.string value) =>
      if value = "" then
        .error (call ++ " needs a non-empty string, got " ++ describe (.string value))
      else .ok value
  | some other => .error (call ++ " needs a non-empty string, got " ++ describe other)
  | none => .error (call ++ " needs a non-empty string")

def statusOf (value : Value) (what : String) : Except String ℕ :=
  match value with
  | .number (.int n) =>
      if 0 ≤ n ∧ n < 2 ^ 16 then .ok n.toNat
      else .error (what ++ " must be an integer status code, got " ++ describe value)
  | _ => .error (what ++ " must be an integer status code, got " ++ describe value)

def redirectStatus (object : Fields) : Except String ℕ :=
  match object.lookup "status" with
  | none | some .null => .ok 307
  | some value => do
      let status ← statusOf value "redirect status"
      if status ∈ [301, 302, 303, 307, 308] then return status
      else
        .error (s!"redirect status {status} is not a redirect; use 301, 302, 303, 307 or 308")

def decodeRedirect (object : Fields) (headers : Headers) : Except String Outcome := do
  let location ← stringField object "location" "redirect(location)"
  validateLocation location
  let status ← redirectStatus object
  return .redirect location status headers

def decodeRewrite (object : Fields) (headers : Headers) : Except String Outcome := do
  let target ← stringField object "path" "rewrite(path)"
  let (path, query) ← validateRewrite target
  return .rewrite path query headers

def respondBody (object : Fields) : Except String String :=
  match object.lookup "body" with
  | none | some .null => .ok ""
  | some (.string body) => .ok body
  | some other =>
      .error ("respond body must be a string, got " ++ describe other ++
        "; JSON.stringify an object first")

def decodeRespond (object : Fields) (headers : Headers) : Except String Outcome := do
  let status ← statusOf ((object.lookup "status").getD .null) "respond status"
  if ¬ (200 ≤ status ∧ status ≤ 599) then
    .error (s!"respond status {status} is outside 200–599; an informational status cannot " ++
      "end a request")
  else
    let body ← respondBody object
    return .respond status body headers

def decodeKind (kind : String) (object : Fields) (headers : Headers) : Except String Outcome :=
  if kind = "next" then .ok (.next headers)
  else if kind = "redirect" then decodeRedirect object headers
  else if kind = "rewrite" then decodeRewrite object headers
  else if kind = "respond" then decodeRespond object headers
  else .error s!"unknown middleware outcome `{kind}`"

def kindOf (object : Fields) : Option String :=
  match object.lookup brand with
  | some (.string kind) => some kind
  | _ => none

/-- Lower a middleware's return value. `null` continues. -/
def decode : Value → Except String Outcome
  | .null => .ok (.next [])
  | .object object =>
      match kindOf object with
      | none =>
          .error ("middleware returned a plain object; return nothing to continue, or one of " ++
            "next(), redirect(), rewrite() or respond() from \"albedo/middleware\"")
      | some kind => do
          let headers ← decodeHeaders (object.lookup "headers")
          decodeKind kind object headers
  | other =>
      .error ("middleware returned " ++ describe other ++ "; return nothing to continue, or one " ++
        "of next(), redirect(), rewrite() or respond() from \"albedo/middleware\"")

/-! ### What is safe to send -/

def NamesFramework (value : String) : Prop :=
  ∃ name, storedName value.toList = some name ∧ frameworkCookiePrefix <+: name

structure Headers.Safe (headers : Headers) : Prop where
  names : ∀ entry ∈ headers, entry.1.toList.any isBreak = false ∧ entry.1 ∉ transportHeaders
  values : ∀ entry ∈ headers, ∀ value ∈ entry.2, value.toList.any isBreak = false
  cookies : ∀ entry ∈ headers, entry.1 = "set-cookie" → ∀ value ∈ entry.2, ¬ NamesFramework value

structure RewriteSafe (path : List Char) : Prop where
  rooted : ['/'] <+: path ∧ ¬ ['/', '/'] <+: path
  app : isFrameworkPath (Percent.percentDecodePath path) = false
  plain : ∀ segment ∈ segments path, segment ≠ ['.'] ∧ segment ≠ ['.', '.']

variable {Host : Type}

/-- Beyond its headers, a redirect is sent on by its location, and a rewrite by its path. -/
def Outcome.TargetSafe (parseHost : List Char → Option Host) (page : Url Host) : Outcome → Prop
  | .redirect location _ _ => location.toList.any isBreak = false ∧
      (['/'] <+: location.toList → Stays parseHost page location.toList)
  | .rewrite path _ _ => RewriteSafe path.toList
  | .next _ | .respond _ _ _ => True

structure Outcome.Safe (parseHost : List Char → Option Host) (page : Url Host)
    (outcome : Outcome) : Prop where
  headers : outcome.headers.Safe
  target : outcome.TargetSafe parseHost page

/-! ### What a value asks for -/

def texts : Value → List String
  | .string single => [single]
  | .array items => items.filterMap fun
      | .string text => some text
      | _ => none
  | _ => []

def cookieTexts : Option Value → List String
  | some (.object fields) =>
      fields.flatMap fun field =>
        if toAsciiLowercase field.1 = "set-cookie" then texts field.2 else []
  | _ => []

def cookiesOf : Value → List String
  | .object object => cookieTexts (object.lookup "headers")
  | _ => []

/-- Where a middleware asks the browser to go. -/
def redirectsTo : Value → Option String
  | .object object =>
      if kindOf object = some "redirect" then
        match object.lookup "location" with
        | some (.string location) => some location
        | _ => none
      else none
  | _ => none

/-- A cookie without a name that would be read back under one of the framework's. -/
def Forges (value : String) : Prop :=
  value.toList.any isControl = false ∧
    ∃ rest, namelessValue value.toList = some rest ∧ frameworkCookiePrefix <+: rest

/-- None of the cookies is a nameless one in a framework cookie's place, and a location that is a
path spells no authority for a browser, or one that is refused or the page's own. -/
structure Sendable (parseHost : List Char → Option Host) (page : Url Host) (value : Value) :
    Prop where
  cookies : ∀ text ∈ cookiesOf value, ¬ Forges text
  location : ∀ location, redirectsTo value = some location → ['/'] <+: location.toList →
    ∀ rest, spelledAuthority (clean location.toList) = some rest → OwnAuthority parseHost page rest

/-! ### Headers -/

variable {headers headers' : Headers} {fields : Fields} {name lower value : String}

def Headers.Has (headers : Headers) (name value : String) : Prop :=
  ∃ values, (name, values) ∈ headers ∧ value ∈ values

theorem Headers.has_extend (headers : Headers) (name : String) (values : List String)
    (name' value : String) : (headers.extend name values).Has name' value ↔
      headers.Has name' value ∨ name' = name ∧ value ∈ values := by
  unfold Headers.Has
  induction headers with
  | nil => simp [Headers.extend]
  | cons entry headers ih =>
      obtain ⟨found, had⟩ := entry
      unfold Headers.extend
      by_cases hfound : found = name
      · rw [if_pos hfound]
        subst hfound
        simp only [List.mem_cons, Prod.mk.injEq]
        constructor
        · rintro ⟨values', ⟨rfl, rfl⟩ | hmem, hvalue⟩
          · rcases List.mem_append.mp hvalue with h | h
            · exact Or.inl ⟨had, Or.inl ⟨rfl, rfl⟩, h⟩
            · exact Or.inr ⟨rfl, h⟩
          · exact Or.inl ⟨values', Or.inr hmem, hvalue⟩
        · rintro (⟨values', ⟨rfl, rfl⟩ | hmem, hvalue⟩ | ⟨rfl, hvalue⟩)
          · exact ⟨_, Or.inl ⟨rfl, rfl⟩, List.mem_append_left _ hvalue⟩
          · exact ⟨values', Or.inr hmem, hvalue⟩
          · exact ⟨_, Or.inl ⟨rfl, rfl⟩, List.mem_append_right _ hvalue⟩
      · rw [if_neg hfound]
        simp only [List.mem_cons, or_and_right, exists_or, ih, or_assoc]

structure Checked (headers : Headers) : Prop where
  names : ∀ entry ∈ headers, entry.1.toList.all isTokenChar = true ∧ entry.1 ∉ transportHeaders
  values : ∀ name value, headers.Has name value → value.toList.any isBreak = false ∧
    (name = "set-cookie" →
      ¬ frameworkCookiePrefix <+: value.toList.dropWhile Trim.isWhitespace)

theorem Headers.names_extend (P : String → Prop) (h : ∀ entry ∈ headers, P entry.1) (hname : P name)
    (values : List String) : ∀ entry ∈ headers.extend name values, P entry.1 := by
  induction headers with
  | nil => simpa [Headers.extend] using hname
  | cons entry headers ih =>
      obtain ⟨found, had⟩ := entry
      obtain ⟨hfound, hrest⟩ := List.forall_mem_cons.mp h
      unfold Headers.extend
      split_ifs
      · exact List.forall_mem_cons.mpr ⟨hfound, hrest⟩
      · exact List.forall_mem_cons.mpr ⟨hfound, ih hrest⟩

theorem checkValue_ok {u : Unit} (h : checkValue name lower value = .ok u) :
    value.toList.any isBreak = false ∧ (lower = "set-cookie" →
      ¬ frameworkCookiePrefix <+: value.toList.dropWhile Trim.isWhitespace) := by
  unfold checkValue at h
  split_ifs at h with hbreak hcookie
  refine ⟨Bool.eq_false_iff.mpr hbreak, fun hlower hprefix => hcookie ⟨hlower, ?_⟩⟩
  exact List.isPrefixOf_iff_prefix.mpr hprefix

theorem headerValues_ok {given : Value} {values : List String}
    (h : headerValues name lower given = .ok values) : values = texts given := by
  unfold headerValues at h
  cases given with
  | string single => exact (Except.ok.inj h).symm
  | array items =>
      dsimp only at h
      split_ifs at h
      have hall := mapM_eq_ok.mp h
      unfold texts
      clear h
      induction hall with
      | nil => rfl
      | @cons item text items texts' hitem _ ih =>
          cases item with
          | string single =>
              obtain rfl := Except.ok.inj hitem
              rw [ih]
              rfl
          | _ => cases hitem
  | _ => cases h

theorem decodeFields_ok (hchecked : Checked headers)
    (h : decodeFields fields headers = .ok headers') :
    Checked headers' ∧ ∀ name value, headers'.Has name value ↔ headers.Has name value ∨
      ∃ field ∈ fields, toAsciiLowercase field.1 = name ∧ value ∈ texts field.2 := by
  induction fields generalizing headers with
  | nil =>
      obtain rfl := Except.ok.inj h
      exact ⟨hchecked, fun name value => by simp⟩
  | cons field fields ih =>
      obtain ⟨name, given⟩ := field
      unfold decodeFields at h
      dsimp only at h
      split_ifs at h with hname htransport
      obtain ⟨values, hvalues, h⟩ := bind_eq_ok.mp h
      obtain ⟨u, hforM, h⟩ := bind_eq_ok.mp h
      have hall := forM_eq_ok.mp hforM
      rw [not_or, not_not] at hname
      have hnext : Checked (headers.extend (toAsciiLowercase name) values) := by
        refine ⟨Headers.names_extend (fun name => name.toList.all isTokenChar = true ∧
          name ∉ transportHeaders) hchecked.names ⟨hname.2, htransport⟩ values, ?_⟩
        intro name' value hhas
        rcases (headers.has_extend _ values name' value).mp hhas with hhas | ⟨rfl, hvalue⟩
        · exact hchecked.values name' value hhas
        · exact checkValue_ok (hall value hvalue)
      obtain ⟨hleft, hhas⟩ := ih hnext h
      refine ⟨hleft, fun name' value => ?_⟩
      rw [hhas, headers.has_extend, headerValues_ok hvalues, List.exists_mem_cons_iff, or_assoc,
        eq_comm]

theorem decodeHeaders_ok {given : Option Value} (h : decodeHeaders given = .ok headers) :
    Checked headers ∧ ∀ value, headers.Has "set-cookie" value ↔ value ∈ cookieTexts given := by
  have hempty : Checked [] := by
    refine ⟨fun entry hentry => (nomatch hentry), ?_⟩
    rintro name value ⟨values, hmem, -⟩
    cases hmem
  have hnone : ∀ value, ¬ Headers.Has [] "set-cookie" value := by
    rintro value ⟨values, hmem, -⟩
    cases hmem
  unfold decodeHeaders at h
  split at h
  · obtain rfl := Except.ok.inj h
    exact ⟨hempty, fun value => iff_of_false (hnone value) List.not_mem_nil⟩
  · obtain rfl := Except.ok.inj h
    exact ⟨hempty, fun value => iff_of_false (hnone value) List.not_mem_nil⟩
  · rename_i fields
    obtain ⟨hchecked, hhas⟩ := decodeFields_ok hempty h
    refine ⟨hchecked, fun value => ?_⟩
    rw [hhas, or_iff_right (hnone value)]
    unfold cookieTexts
    rw [List.mem_flatMap]
    refine exists_congr fun field => and_congr_right fun _ => ?_
    by_cases hname : toAsciiLowercase field.1 = "set-cookie"
    · rw [if_pos hname]
      exact and_iff_right hname
    · rw [if_neg hname]
      exact iff_of_false (fun h => hname h.1) List.not_mem_nil
  · cases h

theorem namesFramework_iff_forges
    (h : ¬ frameworkCookiePrefix <+: value.toList.dropWhile Trim.isWhitespace) :
    NamesFramework value ↔ Forges value := by
  have hread : frameworkCookiePrefix <+: readName value.toList ↔
      ∃ rest, namelessValue value.toList = some rest ∧ frameworkCookiePrefix <+: rest :=
    readName_iff_nameless (by decide : Trim.isWhitespace '_' = false)
      (by decide : '=' ∉ '_' :: "_Host-albedo".toList) h
  unfold NamesFramework Forges storedName
  cases hcontrol : value.toList.any isControl with
  | true => simp
  | false =>
      rw [← hread]
      simp

theorem isBreak_of_isTokenChar {c : Char} (h : isTokenChar c = true) : isBreak c = false := by
  by_contra hbreak
  rw [Bool.not_eq_false] at hbreak
  simp only [isBreak, Bool.or_eq_true, decide_eq_true_eq] at hbreak
  rcases hbreak with (rfl | rfl) | rfl <;> cases h

theorem Checked.safe_iff (h : Checked headers) :
    headers.Safe ↔ ∀ value, headers.Has "set-cookie" value → ¬ Forges value := by
  constructor
  · rintro hsafe value ⟨values, hmem, hvalue⟩ hforges
    have hcheck := (h.values "set-cookie" value ⟨values, hmem, hvalue⟩).2 rfl
    exact hsafe.cookies _ hmem rfl value hvalue ((namesFramework_iff_forges hcheck).mpr hforges)
  · intro hforges
    refine ⟨fun entry hentry => ⟨?_, (h.names entry hentry).2⟩, fun entry hentry value hvalue => ?_,
      fun entry hentry hname value hvalue hframework => ?_⟩
    · have htoken := List.all_eq_true.mp (h.names entry hentry).1
      rw [List.any_eq_false]
      exact fun c hc => Bool.eq_false_iff.mp (isBreak_of_isTokenChar (htoken c hc))
    · exact (h.values entry.1 value ⟨entry.2, hentry, hvalue⟩).1
    · have hhas : headers.Has "set-cookie" value := ⟨entry.2, hname ▸ hentry, hvalue⟩
      have hcheck := (h.values _ value hhas).2 rfl
      exact hforges value hhas ((namesFramework_iff_forges hcheck).mp hframework)

/-! ### Targets -/

variable {parseHost : List Char → Option Host} {page : Url Host}

theorem stringField_ok {object : Fields} {field call text : String}
    (h : stringField object field call = .ok text) : object.lookup field = some (.string text) := by
  unfold stringField at h
  split at h
  · rename_i found hfound
    split_ifs at h
    rw [hfound, Except.ok.inj h]
  · cases h
  · cases h

theorem validateLocation_ok {location : String} {u : Unit}
    (h : validateLocation location = .ok u) : location.toList.any isBreak = false := by
  unfold validateLocation at h
  dsimp only at h
  split_ifs at h with hbreak
  exact Bool.eq_false_iff.mpr hbreak

theorem validateRewrite_ok {target path : String} {query : Option String}
    (h : validateRewrite target = .ok (path, query)) : RewriteSafe path.toList := by
  unfold validateRewrite at h
  dsimp only at h
  split_ifs at h with hchars hroot hplain happ
  obtain ⟨rfl, -⟩ := Prod.mk.inj (Except.ok.inj h)
  rw [String.toList_ofList]
  rw [not_or, not_not, List.isPrefixOf_iff_prefix, List.isPrefixOf_iff_prefix] at hroot
  refine ⟨hroot, Bool.eq_false_iff.mpr happ, fun segment hsegment => ?_⟩
  have hseg : ¬ _ := fun hbad => hplain (List.any_eq_true.mpr ⟨segment, hsegment, hbad⟩)
  simp only [Bool.or_eq_true, decide_eq_true_eq, not_or] at hseg
  exact hseg.1

/-- A redirect to a path is sent to the page's origin just when a browser reads no other authority
in it. -/
theorem location_safe_iff {location : String} {status : ℕ}
    (h : location.toList.any isBreak = false) :
    (Outcome.redirect location status headers).TargetSafe parseHost page ↔
      (['/'] <+: location.toList → ∀ rest, spelledAuthority (clean location.toList) = some rest →
        OwnAuthority parseHost page rest) := by
  unfold Outcome.TargetSafe
  dsimp only
  rw [and_iff_right h]
  refine imp_congr_right fun hslash => stays_iff (scheme?_clean_of_slash ?_)
  obtain ⟨rest, hrest⟩ := hslash
  rw [← hrest]
  rfl

theorem decodeKind_targetSafe_iff (parseHost : List Char → Option Host) (page : Url Host)
    {kind : String} {object : Fields} {outcome : Outcome}
    (hkind : kindOf object = some kind) (h : decodeKind kind object headers = .ok outcome) :
    outcome.headers = headers ∧ (outcome.TargetSafe parseHost page ↔
      ∀ location, redirectsTo (.object object) = some location → ['/'] <+: location.toList →
        ∀ rest, spelledAuthority (clean location.toList) = some rest →
          OwnAuthority parseHost page rest) := by
  have hother : kind ≠ "redirect" → redirectsTo (.object object) = none := fun hne => by
    unfold redirectsTo
    dsimp only
    rw [hkind, if_neg fun heq => hne (Option.some.inj heq)]
  unfold decodeKind at h
  split_ifs at h with hnext hredirect hrewrite hrespond
  · obtain rfl := Except.ok.inj h
    rw [hother (hnext ▸ by decide)]
    exact ⟨rfl, iff_of_true trivial fun location hlocation => nomatch hlocation⟩
  · subst hredirect
    obtain ⟨location, hlocation, h⟩ := bind_eq_ok.mp h
    obtain ⟨u, hvalid, h⟩ := bind_eq_ok.mp h
    obtain ⟨status, -, h⟩ := bind_eq_ok.mp h
    obtain rfl := Except.ok.inj h
    have hto : redirectsTo (.object object) = some location := by
      unfold redirectsTo
      dsimp only
      rw [hkind, if_pos rfl, stringField_ok hlocation]
    refine ⟨rfl, (location_safe_iff (validateLocation_ok hvalid)).trans ?_⟩
    rw [hto]
    exact ⟨fun h location' heq => Option.some.inj heq ▸ h, fun h => h location rfl⟩
  · subst hrewrite
    obtain ⟨target, -, h⟩ := bind_eq_ok.mp h
    obtain ⟨⟨path, query⟩, hvalid, h⟩ := bind_eq_ok.mp h
    obtain rfl := Except.ok.inj h
    rw [hother (by decide)]
    exact ⟨rfl, iff_of_true (validateRewrite_ok hvalid) fun location hlocation => nomatch hlocation⟩
  · subst hrespond
    unfold decodeRespond at h
    obtain ⟨status, -, h⟩ := bind_eq_ok.mp h
    split_ifs at h
    obtain ⟨body, -, h⟩ := bind_eq_ok.mp h
    obtain rfl := Except.ok.inj h
    rw [hother (by decide)]
    exact ⟨rfl, iff_of_true trivial fun location hlocation => nomatch hlocation⟩

/-- An outcome that decodes is safe to send just when its value is. -/
theorem decoded_safe_iff (parseHost : List Char → Option Host) (page : Url Host) {given : Value}
    {outcome : Outcome} (h : decode given = .ok outcome) :
    outcome.Safe parseHost page ↔ Sendable parseHost page given := by
  cases given with
  | null =>
      obtain rfl := Except.ok.inj h
      refine iff_of_true ⟨⟨?_, ?_, ?_⟩, trivial⟩ ⟨?_, ?_⟩
      · exact fun entry hentry => nomatch hentry
      · exact fun entry hentry => nomatch hentry
      · exact fun entry hentry => nomatch hentry
      · exact fun text htext => nomatch htext
      · exact fun location hlocation => nomatch hlocation
  | object object =>
      unfold decode at h
      dsimp only at h
      cases hkind : kindOf object with
      | none =>
          rw [hkind] at h
          cases h
      | some kind =>
          rw [hkind] at h
          obtain ⟨headers, hheaders, h⟩ := bind_eq_ok.mp h
          obtain ⟨hchecked, hcookies⟩ := decodeHeaders_ok hheaders
          obtain ⟨hsame, htarget⟩ := decodeKind_targetSafe_iff parseHost page hkind h
          have hsafe : outcome.headers.Safe ↔
              ∀ text ∈ cookiesOf (.object object), ¬ Forges text := by
            rw [hsame, hchecked.safe_iff]
            exact forall_congr' fun value => imp_congr_left (hcookies value)
          constructor
          · exact fun hall => ⟨hsafe.mp hall.headers, htarget.mp hall.target⟩
          · exact fun hall => ⟨hsafe.mpr hall.cookies, htarget.mpr hall.location⟩
  | _ => cases h

def dashboard : Url (List Char) :=
  ⟨"https".toList, "app.example".toList, none, ["dashboard".toList], none, none⟩

/-- A middleware that sends the browser to a place. -/
def redirectTo (location : String) : Value :=
  .object [(brand, .string "redirect"), ("location", .string location)]

theorem decoded_safe_iff_login :
    (Outcome.redirect "/login" 307 []).Safe some dashboard ↔
      Sendable some dashboard (redirectTo "/login") :=
  decoded_safe_iff some dashboard (by decide : decode (redirectTo "/login") = _)

/-- A location with a tab between two slashes decodes, and a browser follows it to another host. -/
theorem location_leaves_the_app : ∃ outcome, decode (redirectTo "/\t/evil.example/") = .ok outcome ∧
    ¬ outcome.Safe some dashboard := by
  refine ⟨.redirect "/\t/evil.example/" 307 [], by decide, fun h => ?_⟩
  have haway : resolve some dashboard "/\t/evil.example/".toList =
      some (.url ⟨"https".toList, "evil.example".toList, none, [[]], none, none⟩) := by
    decide +kernel
  have hown : "evil.example".toList = "app.example".toList :=
    congrArg (fun origin => origin.2.1) (h.target.2 ⟨_, rfl⟩ _ haway : _ = dashboard.origin)
  revert hown
  decide

end Albedo.Middleware
