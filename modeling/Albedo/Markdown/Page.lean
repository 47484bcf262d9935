import Albedo.Library.Ascii
import Albedo.Library.Words
import Albedo.Runtime.Broadcast
import Albedo.Scan.Specifier
import Mathlib.Data.List.DropRight

/-!
# Markdown pages and their names

A Markdown page is served at a route that its path gives, and the component it lowers to is named
after that route: the letters and digits of the route in camel case, and a hash of the route where
it has a character that a name cannot say.
-/
namespace Albedo.Markdown
open Scan Separator

local instance lawfulBEq_text : LawfulBEq (List Char) := inferInstance

/-- A page that cannot be lowered, as `path:line: message`. -/
structure MarkdownError where
  path : PathText
  line : ℕ
  message : List Char
  deriving DecidableEq

def errorAt (file : PathText) (line : ℕ) (message : List Char) : MarkdownError :=
  ⟨file, line, message⟩

/-! ### Routes -/

def conventionStems : List (List Char) := ["layout".toList, "error".toList, "loading".toList]

/-- `Path::file_stem`. -/
def fileStem (path : PathText) : Option (List Char) :=
  match (pathComponents path).getLast? with
  | none => none
  | some name =>
      if name = ['.', '.'] then none
      else match rsplitOnce '.' name with
        | none => some name
        | some (stem, _) => if stem = [] then some name else some stem

/-- `Path::with_extension("")`, for a path that ends with the name of its file. -/
def withoutExtension (path : PathText) : PathText :=
  match pathExtension path with
  | none => path
  | some extension => path.take (path.length - (extension.length + 1))

/-- A `.md` file with a `routes` directory among its ancestors, whose name begins with no `_`. -/
def isMarkdownPage (path : PathText) : Bool :=
  pathExtension path = some "md".toList && !((fileStem path).any fun stem => ['_'].isPrefixOf stem) &&
    "routes".toList ∈ (pathComponents path).dropLast

def afterFirst (pattern : List Char) : List Char → Option (List Char)
  | [] => none
  | c :: rest =>
      if pattern.isPrefixOf (c :: rest) then some ((c :: rest).drop pattern.length)
      else afterFirst pattern rest

def trimSlashes (text : List Char) : List Char := (text.dropWhile (· = '/')).rdropWhile (· = '/')

/-- `trim_end_matches`, with as many rounds as the text has characters. -/
def trimEndMatches (pattern : List Char) : ℕ → List Char → List Char
  | 0, text => text
  | fuel + 1, text =>
      if pattern.isSuffixOf text then
        trimEndMatches pattern fuel (text.take (text.length - pattern.length))
      else text

def routePathFromComponent (filePath : PathText) : Option (List Char) := do
  let normalized := normalizeSlashes filePath
  let routeHint ← match afterFirst "/routes/".toList normalized with
    | some tail => some tail
    | none =>
        if "routes/".toList.isPrefixOf normalized then some (normalized.drop 7) else none
  let stripped := normalizeSlashes (withoutExtension routeHint)
  if (stripped.splitOn '/').getLast?.getD [] ∈ conventionStems then none
  else
    let route := trimSlashes stripped
    let route := if "/index".toList.isSuffixOf route then
        trimSlashes (trimEndMatches "/index".toList route.length route)
      else route
    if route = [] ∨ route = "index".toList ∨ route = "home".toList ∨ route = "app".toList then
      some ['/']
    else some ('/' :: route)

def pageRoute (file : PathText) : Except MarkdownError (List Char) :=
  let stem := (fileStem file).getD []
  if stem.map Char.toLower ∈ conventionStems then
    .error (errorAt file 1 ("`".toList ++ stem ++
      "` wraps other routes, so it must be a component (`".toList ++ stem ++
      ".tsx`); a Markdown page is only ever a leaf.".toList))
  else match routePathFromComponent file with
    | none => .error (errorAt file 1 "a Markdown page must sit under `routes/`.".toList)
    | some route =>
        if '[' ∈ route then
          .error (errorAt file 1 ("a Markdown page is fixed text, so it cannot sit at a dynamic " ++
            "segment (`[slug]`). Make this route a `.tsx` component.").toList)
        else .ok route

/-! ### Names -/

def words (route : List Char) : List (List Char) :=
  Words.words (fun c => !c.isAlphanum) route

def capitalize : List Char → List Char
  | [] => []
  | first :: rest => first.toUpper :: rest

/-- The letters and digits of a route in camel case, and `Index` where it has none. -/
def camelCase (route : List Char) : List Char :=
  let name := (words route).flatMap capitalize
  if name = [] then "Index".toList else name

/-- Whether a route has a character other than letters, digits and the usual separators. -/
def isLossy (route : List Char) : Bool :=
  route.any fun c => !(c.isAlphanum || c = '/' || c = '-' || c = '_' || c = '.')

def hexDigit (n : ℕ) : Char := "0123456789abcdef".toList.getD n '0'

/-- `{:08x}`. -/
def hex8 (n : ℕ) : List Char :=
  [n / 16 ^ 7 % 16, n / 16 ^ 6 % 16, n / 16 ^ 5 % 16, n / 16 ^ 4 % 16, n / 16 ^ 3 % 16,
    n / 16 ^ 2 % 16, n / 16 % 16, n % 16].map hexDigit

def routeHash (route : List Char) : UInt32 :=
  Broadcast.fnv1a32 (route.flatMap String.utf8EncodeChar)

def componentName (route : List Char) : List Char :=
  let name := "Md".toList ++ camelCase route
  if isLossy route then name ++ '_' :: hex8 (routeHash route).toNat else name

def pageName (path : PathText) : Except MarkdownError (List Char) :=
  (pageRoute (normalizeSlashes path)).map componentName

variable {route route' : List Char}

theorem isAlphanum_camelCase {c : Char} (hc : c ∈ camelCase route) : c.isAlphanum = true := by
  unfold camelCase at hc
  dsimp only at hc
  split_ifs at hc with hempty
  · exact Ascii.forall_mem_of_all (p := fun c => c.isAlphanum = true) (by decide) c hc
  · obtain ⟨word, hword, hc⟩ := List.mem_flatMap.mp hc
    have hletters : ∀ a ∈ word, a.isAlphanum = true := fun a ha => by
      simpa using Words.not_mem_of_mem_splitOnP (List.mem_of_mem_filter hword) a ha
    cases word with
    | nil => cases hc
    | cons first rest =>
        rcases List.mem_cons.mp hc with rfl | hc
        · exact Ascii.isAlphanum_toUpper (hletters first List.mem_cons_self)
        · exact hletters c (List.mem_cons_of_mem _ hc)

theorem isAlphanum_hexDigit {n : ℕ} (h : n < 16) : (hexDigit n).isAlphanum = true := by
  revert n
  decide

theorem hexDigit_inj {m n : ℕ} (hm : m < 16) (hn : n < 16) (h : hexDigit m = hexDigit n) : m = n := by
  have hall : ∀ m < 16, ∀ n < 16, hexDigit m = hexDigit n → m = n := by decide
  exact hall m hm n hn h

theorem hex8_inj {m n : ℕ} (hm : m < 2 ^ 32) (hn : n < 2 ^ 32) (h : hex8 m = hex8 n) : m = n := by
  simp only [hex8, List.map_cons, List.map_nil, List.cons.injEq, and_true] at h
  obtain ⟨h7, h6, h5, h4, h3, h2, h1, h0⟩ := h
  have hdigits : ∀ a b, hexDigit (a % 16) = hexDigit (b % 16) → a / 16 = b / 16 → a = b := by
    intro a b hdigit hrest
    have hmod := hexDigit_inj (Nat.mod_lt a (by decide)) (Nat.mod_lt b (by decide)) hdigit
    rw [← Nat.div_add_mod a 16, ← Nat.div_add_mod b 16, hmod, hrest]
  have hup : ∀ k, hexDigit (m / 16 ^ k % 16) = hexDigit (n / 16 ^ k % 16) →
      m / 16 ^ (k + 1) = n / 16 ^ (k + 1) → m / 16 ^ k = n / 16 ^ k := by
    intro k hdigit hrest
    rw [pow_succ, ← Nat.div_div_eq_div_mul, ← Nat.div_div_eq_div_mul] at hrest
    exact hdigits _ _ hdigit hrest
  have h8 : m / 16 ^ 8 = n / 16 ^ 8 := by
    rw [Nat.div_eq_of_lt (show m < 16 ^ 8 from hm), Nat.div_eq_of_lt (show n < 16 ^ 8 from hn)]
  have h2 := hup 2 h2 (hup 3 h3 (hup 4 h4 (hup 5 h5 (hup 6 h6 (hup 7 h7 h8)))))
  have h1 := hup 1 (by rwa [pow_one]) h2
  exact hdigits m n h0 (by rwa [pow_one] at h1)

/-- A route spells another one's name: the same letters and digits in camel case, and the same
hash where it has one. -/
structure Spells (route route' : List Char) : Prop where
  letters : camelCase route = camelCase route'
  lossy : isLossy route = isLossy route'
  hash : isLossy route = true → routeHash route = routeHash route'

theorem componentName_eq_iff : componentName route = componentName route' ↔ Spells route route' := by
  have hfree : ∀ route, '_' ∉ "Md".toList ++ camelCase route := by
    intro route hmem
    rcases List.mem_append.mp hmem with hmem | hmem
    · revert hmem
      decide
    · exact absurd (isAlphanum_camelCase hmem) (by decide)
  unfold componentName
  dsimp only
  constructor
  · intro h
    split_ifs at h with hlossy hlossy' hlossy'
    · obtain ⟨hletters, hhex⟩ := append_separator_inj (hfree route) (hfree route') h
      refine ⟨List.append_cancel_left hletters, hlossy.trans hlossy'.symm, fun _ => ?_⟩
      exact UInt32.toNat_inj.mp (hex8_inj (UInt32.toNat_lt _) (UInt32.toNat_lt _) hhex)
    · exact absurd (h ▸ by simp) (hfree route')
    · exact absurd (h ▸ by simp) (hfree route)
    · have hsame : isLossy route = isLossy route' := by simp_all
      exact ⟨List.append_cancel_left h, hsame, fun hl => absurd hl hlossy⟩
  · intro h
    rw [h.letters, ← h.lossy]
    split_ifs with hlossy
    · rw [h.hash hlossy]
    · rfl

def IsComponentName (name : List Char) : Prop :=
  (∃ c ∈ name.head?, c.isUpper = true) ∧ ∀ c ∈ name, c.isAlphanum = true ∨ c = '_'

theorem isComponentName_componentName (route : List Char) : IsComponentName (componentName route) := by
  have hhex : ∀ n, ∀ c ∈ hex8 n, c.isAlphanum = true := by
    intro n c hc
    obtain ⟨digit, hdigit, rfl⟩ := List.mem_map.mp hc
    refine isAlphanum_hexDigit ?_
    simp only [List.mem_cons, List.not_mem_nil, or_false] at hdigit
    omega
  have hname : ∀ c ∈ "Md".toList ++ camelCase route, c.isAlphanum = true := by
    intro c hc
    rcases List.mem_append.mp hc with hc | hc
    · exact Ascii.forall_mem_of_all (p := fun c => c.isAlphanum = true) (by decide) c hc
    · exact isAlphanum_camelCase hc
  unfold componentName
  dsimp only
  split_ifs
  · refine ⟨⟨'M', rfl, by decide⟩, fun c hc => ?_⟩
    rcases List.mem_append.mp hc with hc | hc
    · exact Or.inl (hname c hc)
    · exact (List.mem_cons.mp hc).symm.imp (hhex _ c) id
  · exact ⟨⟨'M', rfl, by decide⟩, fun c hc => Or.inl (hname c hc)⟩

/-- Two pages of different routes have names of their own, and these may be names. -/
def NamedApart (file file' : PathText) : Prop :=
  ∀ route route' name name', pageRoute (normalizeSlashes file) = .ok route →
    pageRoute (normalizeSlashes file') = .ok route' → route ≠ route' →
    pageName file = .ok name → pageName file' = .ok name' →
    name ≠ name' ∧ IsComponentName name ∧ IsComponentName name'

/-- Two pages have names of their own exactly when neither route spells the other's name. -/
theorem named_apart_iff (file file' : PathText) : NamedApart file file' ↔
    ∀ route route', pageRoute (normalizeSlashes file) = .ok route →
      pageRoute (normalizeSlashes file') = .ok route' → route ≠ route' → ¬ Spells route route' := by
  unfold NamedApart pageName
  constructor
  · intro h route route' hroute hroute' hne hspells
    refine (h route route' (componentName route) (componentName route') hroute hroute' hne ?_ ?_).1
      (componentName_eq_iff.mpr hspells)
    · rw [hroute]; rfl
    · rw [hroute']; rfl
  · intro h route route' name name' hroute hroute' hne hname hname'
    rw [hroute] at hname
    rw [hroute'] at hname'
    obtain rfl := Except.ok.inj hname
    obtain rfl := Except.ok.inj hname'
    exact ⟨fun heq => h route route' hroute hroute' hne (componentName_eq_iff.mp heq),
      isComponentName_componentName route, isComponentName_componentName route'⟩

/-- A page at `/a-b` and one at `/a/b` are one component. -/
theorem dash_and_slash_share_a_name :
    isMarkdownPage "routes/a-b.md".toList = true ∧ isMarkdownPage "routes/a/b.md".toList = true ∧
      ¬ NamedApart "routes/a-b.md".toList "routes/a/b.md".toList := by
  refine ⟨by decide +kernel, by decide +kernel, fun h => ?_⟩
  exact (h "/a-b".toList "/a/b".toList "MdAB".toList "MdAB".toList (by decide +kernel)
    (by decide +kernel) (by decide) (by decide +kernel) (by decide +kernel)).1 rfl

end Albedo.Markdown
