import Mathlib.Data.List.Sort
import Albedo.Library.KeyedList
import Albedo.Library.Percent
import Mathlib.Data.Char
import Mathlib.Data.List.Lex

/-!
# The router

Route paths are written with brackets, as file names are, and lowered to the patterns of the
tree that matches them. A request path is matched as it arrived; what a pattern captures of
it is decoded afterwards, segment by segment.
-/
namespace Albedo.Routing
open KeyedList Percent

abbrev Text := List Char

inductive HttpMethod where
  | get | post | put | patch | delete | head | options
  deriving DecidableEq

def HttpMethod.all : List HttpMethod := [.get, .post, .put, .patch, .delete, .head, .options]

def HttpMethod.asStr : HttpMethod → String
  | .get => "GET"
  | .post => "POST"
  | .put => "PUT"
  | .patch => "PATCH"
  | .delete => "DELETE"
  | .head => "HEAD"
  | .options => "OPTIONS"

inductive AuthPolicy where
  | optional
  | required
  | role (name : Text)
  deriving DecidableEq

structure RouteSpec where
  name : Text
  method : HttpMethod
  path : Text
  handler : Text
  entryModule : Option Text
  propsLoader : Option Text
  middleware : List Text
  auth : Option AuthPolicy

structure RouteTarget where
  routeName : Text
  handlerId : Text
  entryModule : Option Text
  propsLoader : Option Text
  layoutHandlers : List Text
  middleware : List Text
  auth : Option AuthPolicy
  deriving DecidableEq

inductive RouteError where
  | routeConflict (method : String) (path : Text) (message : String)
  | invalidRoutePath (path : Text) (message : String)
  deriving DecidableEq

/-! ### Route paths -/

/-- A segment of a lowered path: text, a parameter in braces, or a starred one. -/
inductive RoutePart where
  | literal (text : Text)
  | param (name : Text)
  | rest (name : Text)
  deriving DecidableEq

def RoutePart.text : RoutePart → Text
  | .literal text => text
  | .param name => '{' :: name ++ ['}']
  | .rest name => '{' :: '*' :: name ++ ['}']

abbrev Template := List RoutePart

def joinRouteSegments (segments : List Text) : Text :=
  if segments = [] then ['/'] else '/' :: ['/'].intercalate segments

def Template.text (t : Template) : Text := joinRouteSegments (t.map RoutePart.text)

/-- Whether two slashes stand side by side. -/
def doubled : Text → Bool
  | '/' :: '/' :: _ => true
  | _ :: s => doubled s
  | [] => false

def validateRoutePath (path : Text) : Except RouteError Unit :=
  if path.head? ≠ some '/' then
    .error (.invalidRoutePath path "path must start with '/'")
  else if doubled path then
    .error (.invalidRoutePath path "path must not contain consecutive '/' segments")
  else if 1 < path.length ∧ path.getLast? = some '/' then
    .error (.invalidRoutePath path "path must not end with '/' unless it is root '/'")
  else .ok ()

def nameChar (c : Char) : Bool := c.isAlphanum || c = '_'

def validateParamName (path name : Text) (kind : String) : Except RouteError Unit :=
  if name = [] then
    .error (.invalidRoutePath path (kind ++ " segment name must not be empty"))
  else if ¬ name.all nameChar then
    .error (.invalidRoutePath path (kind ++ " segment name '" ++ String.ofList name ++
      "' contains unsupported characters; use [A-Za-z0-9_]"))
  else .ok ()

/-- What a segment of a route path is lowered to: a part, or a catch-all that may be missing. -/
inductive RouteSegment where
  | part (p : RoutePart)
  | optionalCatchAll (name : Text)

def startsWith (opening segment : Text) : Bool := opening.isPrefixOf segment

def endsWith (closing segment : Text) : Bool := closing.isSuffixOf segment

def between (opening closing : ℕ) (segment : Text) : Text :=
  (segment.drop opening).take (segment.length - closing - opening)

def mustBeFinal (path : Text) (kind : String) (isLast : Bool) : Except RouteError Unit :=
  if isLast then .ok ()
  else .error (.invalidRoutePath path (kind ++ " segment must be the final segment in the route path"))

def normalizeSegment (path segment : Text) (isLast : Bool) : Except RouteError RouteSegment :=
  if startsWith ['[', '[', '.', '.', '.'] segment ∧ endsWith [']', ']'] segment then do
    let name := between 5 2 segment
    validateParamName path name "optional catch-all"
    mustBeFinal path "optional catch-all" isLast
    return .optionalCatchAll name
  else if startsWith ['[', '.', '.', '.'] segment ∧ endsWith [']'] segment then do
    let name := between 4 1 segment
    validateParamName path name "catch-all"
    mustBeFinal path "catch-all" isLast
    return .part (.rest name)
  else if startsWith ['['] segment ∧ endsWith [']'] segment then do
    let name := between 1 1 segment
    validateParamName path name "dynamic"
    if startsWith ['.', '.', '.'] name then
      .error (.invalidRoutePath path
        "invalid dynamic segment syntax; use '[...name]' for catch-all")
    else return .part (.param name)
  else if startsWith ['{'] segment ∧ endsWith ['}'] segment then
    let inner := between 1 1 segment
    match inner with
    | '*' :: name => do
        validateParamName path name "legacy catch-all"
        mustBeFinal path "legacy catch-all" isLast
        return .part (.rest name)
    | inner => do
        validateParamName path inner "legacy dynamic"
        return .part (.param inner)
  else if segment.any fun c => c = '[' || c = ']' || c = '{' || c = '}' then
    .error (.invalidRoutePath path ("invalid route segment syntax '" ++ String.ofList segment ++ "'"))
  else if segment = [] then
    .error (.invalidRoutePath path "path contains an empty segment")
  else .ok (.part (.literal segment))

def normalizeSegments (path : Text) : List Text → Except RouteError (Template × Option Text)
  | [] => .ok ([], none)
  | segment :: segments => do
      let lowered ← normalizeSegment path segment segments.isEmpty
      let (parts, catchAll) ← normalizeSegments path segments
      match lowered with
      | .part part => return (part :: parts, catchAll)
      | .optionalCatchAll name => return (parts, some name)

def parseRoutePath (path : Text) : Except RouteError (Template × Option Text) := do
  validateRoutePath path
  if path = ['/'] then return ([], none)
  else normalizeSegments path ((path.dropWhile (· = '/')).splitOn '/')

/-- The lowered paths of a route path: two when its last segment may be missing. -/
def expand : Template × Option Text → List Template
  | (parts, none) => [parts]
  | (parts, some name) => [parts, parts ++ [.rest name]]

def normalizeRoutePaths (path : Text) : Except RouteError (List Template) :=
  (parseRoutePath path).map expand

/-! ### Matching -/

/-- What a lowered path captures of a request path: a parameter one segment that is not empty,
a catch-all the rest of the path, if there is any. -/
def captureParts : Template → Text → Option (List (Text × Text))
  | [], [] => some []
  | .literal text :: parts, '/' :: path =>
      if startsWith text path then captureParts parts (path.drop text.length) else none
  | .param name :: parts, '/' :: path =>
      let value := path.takeWhile (· ≠ '/')
      if value = [] then none
      else (captureParts parts (path.drop value.length)).map ((name, value) :: ·)
  | [.rest name], '/' :: path => if path = [] then none else some [(name, path)]
  | _, _ => none

def capture (t : Template) (path : Text) : Option (List (Text × Text)) :=
  if t = [] then (if path = ['/'] then some [] else none) else captureParts t path

/-- The matching tree of the `matchit` crate: whether it takes one more path, and if not why;
and which of its paths a request path matches, with what it captures. -/
structure MatchIt where
  insert : List Template → Template → Option String
  find : List Template → Text → Option (ℕ × List (Text × Text))

structure CompiledRouter where
  entries : List (Template × List (HttpMethod × RouteTarget))
  deriving DecidableEq

def CompiledRouter.paths (router : CompiledRouter) : List Template := router.entries.map Prod.fst

def RouteSpec.target (route : RouteSpec) : RouteTarget where
  routeName := route.name
  handlerId := route.handler
  entryModule := route.entryModule
  propsLoader := route.propsLoader
  layoutHandlers := []
  middleware := route.middleware
  auth := route.auth

abbrev Grouped := List (Template × List (HttpMethod × RouteTarget))

def addPath (route : RouteSpec) (grouped : Grouped) (t : Template) : Except RouteError Grouped :=
  let perPath := (valueOf t grouped).getD []
  match perPath.lookup route.method with
  | some _ =>
      .error (.routeConflict route.method.asStr t.text
        ("duplicate method/path pair from route path '" ++ String.ofList route.path ++ "'"))
  | none => .ok (put t (put route.method route.target perPath) grouped)

def addRoute (grouped : Grouped) (route : RouteSpec) : Except RouteError Grouped := do
  let paths ← normalizeRoutePaths route.path
  paths.foldlM (addPath route) grouped

def MatchIt.insertAll (m : MatchIt) (before : List Template) : List Template → Except RouteError Unit
  | [] => .ok ()
  | t :: ts =>
      match m.insert before t with
      | some message => .error (.invalidRoutePath t.text message)
      | none => m.insertAll (before ++ [t]) ts

def RouteSpec.before (left right : RouteSpec) : Prop :=
  left.path < right.path ∨ left.path = right.path ∧
    (HttpMethod.all.idxOf left.method < HttpMethod.all.idxOf right.method ∨
      left.method = right.method ∧ left.name ≤ right.name)

instance : DecidableRel RouteSpec.before := fun _ _ => inferInstanceAs (Decidable (_ ∨ _))

def CompiledRouter.fromRouteSpecs (m : MatchIt) (routeSpecs : List RouteSpec) :
    Except RouteError CompiledRouter := do
  let grouped ← (routeSpecs.insertionSort RouteSpec.before).foldlM addRoute []
  let entries := grouped.insertionSort fun e f => e.1.text ≤ f.1.text
  m.insertAll [] (entries.map Prod.fst)
  return ⟨entries⟩

def decodeRouteParam (raw : Text) : Option Text :=
  ((raw.splitOn '/').mapM fun segment => Utf8.decode (percentDecode segment)).map
    (['/'].intercalate ·)

inductive RouteMatch where
  | matched (target : RouteTarget) (params : List (Text × Text))
  | methodNotAllowed (allowed : List HttpMethod)
  | undecodableParam (name : Text)
  | notFound
  deriving DecidableEq

def decodeParams : List (Text × Text) → List (Text × Text) → Except Text (List (Text × Text))
  | params, [] => .ok params
  | params, (name, value) :: captured =>
      match decodeRouteParam value with
      | none => .error name
      | some decoded => decodeParams (put name decoded params) captured

def CompiledRouter.matchRoute (m : MatchIt) (router : CompiledRouter) (method : HttpMethod)
    (path : Text) : RouteMatch :=
  match m.find router.paths path with
  | none => .notFound
  | some (i, captured) =>
      match router.entries[i]? with
      | none => .notFound
      | some (_, methods) =>
          match methods.lookup method with
          | none => .methodNotAllowed (HttpMethod.all.filter fun allowed =>
              (methods.lookup allowed).isSome)
          | some target =>
              match decodeParams [] captured with
              | .error name => .undecodableParam name
              | .ok params => .matched target params

section Found

variable {m : MatchIt} {router : CompiledRouter} {method : HttpMethod} {path : Text} {i : ℕ}
  {captured : List (Text × Text)} {t : Template} {methods : List (HttpMethod × RouteTarget)}
  {target : RouteTarget}

theorem CompiledRouter.matchRoute_not_allowed (hfind : m.find router.paths path = some (i, captured))
    (hentry : router.entries[i]? = some (t, methods)) (hlookup : methods.lookup method = none) :
    router.matchRoute m method path =
      .methodNotAllowed (HttpMethod.all.filter fun allowed => (methods.lookup allowed).isSome) := by
  unfold matchRoute
  rw [hfind]
  simp only [hentry, hlookup]

theorem CompiledRouter.matchRoute_undecodable (hfind : m.find router.paths path = some (i, captured))
    (hentry : router.entries[i]? = some (t, methods)) (hlookup : methods.lookup method = some target)
    {name : Text} (hparams : decodeParams [] captured = .error name) :
    router.matchRoute m method path = .undecodableParam name := by
  unfold matchRoute
  rw [hfind]
  simp only [hentry, hlookup, hparams]

theorem CompiledRouter.matchRoute_matched (hfind : m.find router.paths path = some (i, captured))
    (hentry : router.entries[i]? = some (t, methods)) (hlookup : methods.lookup method = some target)
    {params : List (Text × Text)} (hparams : decodeParams [] captured = .ok params) :
    router.matchRoute m method path = .matched target params := by
  unfold matchRoute
  rw [hfind]
  simp only [hentry, hlookup, hparams]

end Found

end Albedo.Routing
