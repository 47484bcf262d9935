import Albedo.Library.KeyedList
import Albedo.Runtime.Broadcast
import Albedo.Runtime.Topics
import Mathlib.Data.List.Sort

/-!
# Modules, what they export and what they declare

A module's top level, read twice: by the language, which exports a name from
wherever it is bound, and by the build, which reads the constants that are
declared in the module's own file.
-/
namespace Albedo.Actions
open Broadcast KeyedList Topics

/-! ### The top level of a module -/

/-- What initialises a top-level name: a plain string, a call of the framework's
`action` on a function, a function (with the events its markup handles), or any
other expression, with the string it evaluates to where that is one. -/
inductive Init where
  | text (value : String)
  | action
  | function (events : List String)
  | other (value : Option String)
  deriving DecidableEq

def Init.value : Init → Option String
  | .text value => some value
  | .other value => value
  | .action | .function _ => none

inductive Declarator where
  | ident (name : String) (init : Option Init)
  | pattern (bound : List (String × Option String))
  deriving DecidableEq

inductive Item where
  | imports (source : String) (names : List (String × String))
  | vars (exported : Bool) (decls : List Declarator)
  | function (exported : Bool) (name : String) (events : List String)
  | exportDefault (name : Option String) (events : List String)
  | exportNamed (source : Option String) (names : List (String × String))
  | exportAll (source : String)
  deriving DecidableEq

abbrev Sources := List (String × List Item)

/-! ### What the language exports -/

def Declarator.bindings : Declarator → List (String × Option String)
  | .ident name (some init) => [(name, init.value)]
  | .ident _ none => []
  | .pattern bound => bound

def Item.bindings : Item → List (String × Option String)
  | .vars _ decls => decls.flatMap Declarator.bindings
  | _ => []

def boundText (items : List Item) (name : String) : Option String :=
  ((items.flatMap Item.bindings).reverse.lookup name).join

def Item.exportedNames : Item → List String
  | .vars true decls => (decls.flatMap Declarator.bindings).map Prod.fst
  | .function true name _ => [name]
  | .exportNamed _ names => names.map Prod.snd
  | .exportDefault _ _ => ["default"]
  | _ => []

inductive Scope where
  | inside
  | exported

inductive Reads (sources : Sources) : Scope → String → String → String → Prop where
  | declared {spec name text : String} {items : List Item} (hmodule : (spec, items) ∈ sources)
      (htext : boundText items name = some text) : Reads sources .inside spec name text
  | imported {spec name text source original : String} {items : List Item}
      {names : List (String × String)} (hmodule : (spec, items) ∈ sources)
      (hitem : .imports source names ∈ items) (hname : (name, original) ∈ names)
      (hread : Reads sources .exported source original text) : Reads sources .inside spec name text
  | inPlace {spec name text : String} {items : List Item} {decls : List Declarator}
      (hmodule : (spec, items) ∈ sources) (hitem : .vars true decls ∈ items)
      (hname : name ∈ (decls.flatMap Declarator.bindings).map Prod.fst)
      (hread : Reads sources .inside spec name text) : Reads sources .exported spec name text
  | renamed {spec name text original : String} {items : List Item}
      {names : List (String × String)} (hmodule : (spec, items) ∈ sources)
      (hitem : .exportNamed none names ∈ items) (hname : (original, name) ∈ names)
      (hread : Reads sources .inside spec original text) : Reads sources .exported spec name text
  | reexported {spec name text source original : String} {items : List Item}
      {names : List (String × String)} (hmodule : (spec, items) ∈ sources)
      (hitem : .exportNamed (some source) names ∈ items) (hname : (original, name) ∈ names)
      (hread : Reads sources .exported source original text) : Reads sources .exported spec name text
  | star {spec name text source : String} {items : List Item} (hmodule : (spec, items) ∈ sources)
      (hitem : .exportAll source ∈ items) (hdefault : name ≠ "default")
      (hown : name ∉ items.flatMap Item.exportedNames)
      (hread : Reads sources .exported source name text) : Reads sources .exported spec name text

/-! ### What the build reads -/

structure ParsedModule where
  functions : List (String × List String)
  moduleConstants : List (String × Init)
  actionDeclarations : List String

def collectVarFunctions (decls : List Declarator) (out : List (String × List String)) :
    List (String × List String) :=
  decls.foldl (fun out decl =>
    match decl with
    | .ident name (some (.function events)) => put name events out
    | _ => out) out

def collectVarConstants (decls : List Declarator) : List (String × Init) :=
  decls.filterMap fun decl =>
    match decl with
    | .ident _ (some (.function _)) => none
    | .ident name (some init) => some (name, init)
    | _ => none

structure DuplicateActionName where
  name : String

/-- The constants that call `action`, each name once. -/
def extractActionDeclarations :
    List (String × Init) → List String → Except DuplicateActionName (List String)
  | [], out => .ok out
  | (name, .action) :: rest, out =>
    if name ∈ out then .error ⟨name⟩ else extractActionDeclarations rest (out ++ [name])
  | _ :: rest, out => extractActionDeclarations rest out

def Item.functions (out : List (String × List String)) : Item → List (String × List String)
  | .vars _ decls => collectVarFunctions decls out
  | .function _ name events => put name events out
  | .exportDefault name events => put (name.getD "__default_0") events out
  | _ => out

def Item.constants : Item → List (String × Init)
  | .vars _ decls => collectVarConstants decls
  | _ => []

/-- Only what the module's own file declares is read; what it imports, renames on
the way out or re-exports is not followed. -/
def parseModule (items : List Item) : Except DuplicateActionName ParsedModule := do
  let constants := items.flatMap Item.constants
  let actions ← extractActionDeclarations constants []
  return ⟨items.foldl Item.functions [], constants, actions⟩

abbrev Modules := List (String × ParsedModule)

def parseProject (sources : Sources) : Except DuplicateActionName Modules :=
  sources.mapM fun source => do return (source.1, ← parseModule source.2)

/-! ### The handlers of a project -/

structure ResolvedHandler where
  moduleSpec : String
  functionName : String
  eventName : String
  handlerIdx : ℕ

def utf8 (text : String) : List UInt8 := text.toList.flatMap String.utf8EncodeChar

def allocateFormActionId (actionName : String) : UInt32 := fnv1a32 (utf8 actionName)

def allocateProxyId (handler : ResolvedHandler) : UInt32 :=
  fnv1a32 (utf8 (handler.moduleSpec ++ "::" ++ handler.functionName ++ "::" ++ handler.eventName ++
    "#" ++ toString handler.handlerIdx))

def eventHandlers (spec : String) (module : ParsedModule) : List ResolvedHandler :=
  module.functions.flatMap fun function =>
    function.2.zipIdx.map fun event => ⟨spec, function.1, event.1, event.2⟩

def actionHandler (spec name : String) : ResolvedHandler := ⟨spec, "__action__" ++ name, "action", 0⟩

/-- The table a project dispatches by: every event handler, then every action, a
later one over an earlier one of the same number. -/
def handlerTable (modules : Modules) : List (UInt32 × ResolvedHandler) :=
  let events := modules.flatMap fun m =>
    (eventHandlers m.1 m.2).map fun handler => (allocateProxyId handler, handler)
  let actions := modules.flatMap fun m =>
    m.2.actionDeclarations.map fun name => (allocateFormActionId name, actionHandler m.1 name)
  (events ++ actions).foldl (fun table entry => put entry.1 entry.2 table) []

end Albedo.Actions
