import Albedo.Library.Separator
import Mathlib.Data.List.Basic

/-!
# Import specifiers

A module is known by its path, made of the parts that name something. A specifier that begins with
`./` or `../` names the first file of the project among some candidates, seen from the directory of
the file that imports it.
-/
namespace Albedo.Scan
open Separator

abbrev PathText := List Char

local instance lawfulBEq_part : LawfulBEq (List Char) := inferInstance

/-- `Path::components`, of which the root and `.` have no part in a module's path. -/
def pathComponents (path : PathText) : List (List Char) :=
  (path.splitOnP (· = '/')).filter fun part => part ≠ [] ∧ part ≠ ['.']

def normalizeSlashes (value : List Char) : List Char := value.map fun c => if c = '\\' then '/' else c

/-- What is left of some parts of a path once `..` has taken away what is before it. -/
def normalizeParts (parts : List (List Char)) : PathText :=
  normalizeSlashes (['/'].intercalate (parts.foldl
    (fun kept part => if part = ['.', '.'] then kept.dropLast else kept ++ [part]) []))

def normalizeSpecifier (path : PathText) : PathText := normalizeParts (pathComponents path)

def moduleExtensions : List (List Char) := ["jsx".toList, "tsx".toList, "js".toList, "ts".toList]

/-- `Path::extension`. -/
def pathExtension (path : PathText) : Option (List Char) :=
  match (pathComponents path).getLast? with
  | none => none
  | some name =>
      if name = ['.', '.'] then none
      else match rsplitOnce '.' name with
        | none => none
        | some (stem, extension) => if stem = [] then none else some extension

def importCandidates (base : PathText) : List PathText :=
  let extended := moduleExtensions.map (fun extension => base ++ '.' :: extension) ++
    moduleExtensions.map fun extension => base ++ "/index.".toList ++ extension
  match pathExtension base with
  | none => extended
  | some extension => if extension ∈ moduleExtensions then [base] else base :: extended

/-- `resolve_import_to_id`, for what is known under the paths of the project's modules. -/
def resolveImport {β : Type*} (importerFilePath : PathText) (source : List Char)
    (known : PathText → Option β) : Option β :=
  if "./".toList <+: source ∨ "../".toList <+: source then
    let importerDir := (pathComponents importerFilePath).dropLast
    let base := normalizeParts (importerDir ++ pathComponents source)
    (importCandidates base).findSome? known
  else none

theorem resolveImport_some {β : Type*} {importer : PathText} {source : List Char}
    {known : PathText → Option β} {b : β} (h : resolveImport importer source known = some b) :
    ∃ path, known path = some b := by
  unfold resolveImport at h
  split_ifs at h
  obtain ⟨path, -, hpath⟩ := List.exists_of_findSome?_eq_some h
  exact ⟨path, hpath⟩

theorem findSome_bind {β : Type*} {paths : List PathText} {known : PathText → Option β}
    (hknown : ∀ path, (known path).isSome ↔ path ∈ paths) (candidates : List PathText) :
    candidates.findSome? known =
      (candidates.findSome? fun path => if path ∈ paths then some path else none).bind known := by
  induction candidates with
  | nil => rfl
  | cons path candidates ih =>
      rw [List.findSome?_cons, List.findSome?_cons]
      by_cases hpath : path ∈ paths
      · obtain ⟨b, hb⟩ := Option.isSome_iff_exists.mp ((hknown path).mpr hpath)
        rw [if_pos hpath, hb]
        exact hb.symm
      · have hnone : known path = none := by
          rw [← Option.not_isSome_iff_eq_none, hknown]
          exact hpath
        rw [if_neg hpath, hnone]
        exact ih

theorem resolveImport_bind {β : Type*} (importer : PathText) (source : List Char)
    {paths : List PathText} {known : PathText → Option β}
    (hknown : ∀ path, (known path).isSome ↔ path ∈ paths) :
    resolveImport importer source known =
      (resolveImport importer source fun path => if path ∈ paths then some path else none).bind
        known := by
  unfold resolveImport
  by_cases hrelative : "./".toList <+: source ∨ "../".toList <+: source
  · rw [if_pos hrelative, if_pos hrelative]
    exact findSome_bind hknown _
  · rw [if_neg hrelative, if_neg hrelative]
    rfl

end Albedo.Scan
