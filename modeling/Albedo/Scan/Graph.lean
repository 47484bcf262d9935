import Albedo.Library.DepthFirst
import Albedo.Scan.Specifier

/-!
# The component graph

A node for each parsed component, under the number it was added as, and an edge to each node one
of its imports is taken for. A component is looked up by its name, where the last of a name is
found, and a module by its path.
-/
namespace Albedo.Scan

abbrev ComponentId := ℕ

/-- What the parser finds: one component of a file, and the file's imports. All else that is known
of it is its attributes. -/
structure ParsedComponent (A : Type*) where
  name : String
  filePath : PathText
  imports : List String
  importSources : List (List Char)
  attributes : A

structure Component (A : Type*) where
  name : String
  filePath : PathText
  attributes : A
  /-- Nothing writes these once the component is made. -/
  dependencies : Finset ComponentId

structure ComponentGraph (A : Type*) where
  components : List (Component A)
  dependencies : ComponentId → Finset ComponentId

variable {A : Type*}

def ComponentGraph.empty : ComponentGraph A := ⟨[], fun _ => ∅⟩

def ComponentGraph.addComponent (graph : ComponentGraph A) (component : Component A) :
    ComponentGraph A × ComponentId :=
  (⟨graph.components ++ [component],
    Function.update graph.dependencies graph.components.length ∅⟩, graph.components.length)

inductive CompilerError
  | componentNotFound (id : ComponentId)
  | circularDependency (back : ComponentId × ComponentId)

def ComponentGraph.addDependency (graph : ComponentGraph A) (fromId toId : ComponentId) :
    Except CompilerError (ComponentGraph A) :=
  if graph.components.length ≤ fromId then .error (.componentNotFound fromId)
  else if graph.components.length ≤ toId then .error (.componentNotFound toId)
  else .ok { graph with
    dependencies :=
      Function.update graph.dependencies fromId (insert toId (graph.dependencies fromId)) }

/-- An order in which the nodes and the ends of their edges come out of their tables. -/
structure HashOrder (graph : ComponentGraph A) where
  ids : List ComponentId
  next : ComponentId → List ComponentId
  mem_ids : ∀ i, i ∈ ids ↔ i < graph.components.length
  mem_next : ∀ i j, j ∈ next i ↔ j ∈ graph.dependencies i

/-- `validate`; the search goes no deeper than there are nodes. -/
def ComponentGraph.validate (graph : ComponentGraph A) (order : HashOrder graph) :
    Option (Except CompilerError Unit) :=
  (DepthFirst.searchAll order.next graph.components.length order.ids ⟨∅, ∅⟩).map fun found =>
    match found.1 with
    | some back => .error (.circularDependency back)
    | none => .ok ()

/-! ### `build_compiler` -/

def toComponent (parsed : ParsedComponent A) : Component A :=
  ⟨parsed.name, parsed.filePath, parsed.attributes, ∅⟩

abbrev IdMap (κ : Type*) := κ → Option ComponentId

def addParsed (state : ComponentGraph A × IdMap String) (parsed : ParsedComponent A) :
    ComponentGraph A × IdMap String :=
  let (graph, id) := state.1.addComponent (toComponent parsed)
  (graph, Function.update state.2 parsed.name (some id))

def moduleOf (parsed : ParsedComponent A) : PathText := normalizeSpecifier parsed.filePath

def addPath (componentMap : IdMap String) (pathMap : IdMap PathText) (parsed : ParsedComponent A) :
    IdMap PathText :=
  match componentMap parsed.name with
  | some id => Function.update pathMap (moduleOf parsed) (some id)
  | none => pathMap

/-- `add_dependency(..).ok()`. -/
def ComponentGraph.tryDependency (graph : ComponentGraph A) (fromId toId : ComponentId) :
    ComponentGraph A :=
  match graph.addDependency fromId toId with
  | .ok graph => graph
  | .error _ => graph

def wireSource (pathMap : IdMap PathText) (filePath : PathText) (fromId : ComponentId)
    (graph : ComponentGraph A) (source : List Char) : ComponentGraph A :=
  match resolveImport filePath source pathMap with
  | some toId => if toId ≠ fromId then graph.tryDependency fromId toId else graph
  | none => graph

def wireName (componentMap : IdMap String) (fromId : ComponentId) (graph : ComponentGraph A)
    (name : String) : ComponentGraph A :=
  match componentMap name with
  | some toId => graph.tryDependency fromId toId
  | none => graph

def wire (componentMap : IdMap String) (pathMap : IdMap PathText) (graph : ComponentGraph A)
    (parsed : ParsedComponent A) : ComponentGraph A :=
  match componentMap parsed.name with
  | none => graph
  | some fromId =>
      let graph := parsed.importSources.foldl (wireSource pathMap parsed.filePath fromId) graph
      parsed.imports.foldl (wireName componentMap fromId) graph

def addAll (components : List (ParsedComponent A)) : ComponentGraph A × IdMap String :=
  components.foldl addParsed (.empty, fun _ => none)

def componentMapOf (components : List (ParsedComponent A)) : IdMap String := (addAll components).2

def pathMapOf (components : List (ParsedComponent A)) : IdMap PathText :=
  components.foldl (addPath (componentMapOf components)) fun _ => none

def buildCompiler (components : List (ParsedComponent A)) : ComponentGraph A :=
  components.foldl (wire (componentMapOf components) (pathMapOf components)) (addAll components).1

/-! ### The tables -/

def IsLast {α κ : Type*} (f : α → κ) (l : List α) (k : κ) (i : ℕ) : Prop :=
  (∃ a, l[i]? = some a ∧ f a = k) ∧ ∀ j a, i < j → l[j]? = some a → f a ≠ k

def LastNamed (components : List (ParsedComponent A)) : String → ComponentId → Prop :=
  IsLast ParsedComponent.name components

def LastIn (components : List (ParsedComponent A)) : PathText → ComponentId → Prop :=
  IsLast moduleOf components

section Last

variable {α κ : Type*} {f : α → κ} {l : List α} {a : α} {k : κ} {i j : ℕ}

theorem not_isLast_nil : ¬ IsLast f [] k i := by
  intro h
  obtain ⟨a, ha, -⟩ := h.1
  simp at ha

theorem isLast_snoc_self (h : f a = k) : IsLast f (l ++ [a]) k i ↔ i = l.length := by
  constructor
  · intro hlast
    obtain ⟨⟨b, hb, -⟩, hlater⟩ := hlast
    have hi : i < l.length + 1 := by
      have hlt := (List.getElem?_eq_some_iff.mp hb).choose
      rwa [List.length_append, List.length_singleton] at hlt
    have hend : (l ++ [a])[l.length]? = some a := List.getElem?_concat_length
    by_contra hne
    exact hlater l.length a (by omega) hend h
  · intro hi
    subst hi
    refine ⟨⟨a, List.getElem?_concat_length, h⟩, ?_⟩
    intro j b hj hb
    have hlt := (List.getElem?_eq_some_iff.mp hb).choose
    rw [List.length_append, List.length_singleton] at hlt
    omega

theorem isLast_snoc_of_ne (h : f a ≠ k) : IsLast f (l ++ [a]) k i ↔ IsLast f l k i := by
  have hsplit : ∀ (j : ℕ) (b : α), (l ++ [a])[j]? = some b ∧ f b = k ↔ l[j]? = some b ∧ f b = k := by
    intro j b
    by_cases hj : j < l.length
    · rw [List.getElem?_append_left hj]
    · have hnone : l[j]? = none := List.getElem?_eq_none (by omega)
      rw [List.getElem?_append_right (by omega), hnone]
      constructor
      · intro hb
        have hmem := List.mem_of_getElem? hb.1
        rw [List.mem_singleton.mp hmem] at hb
        exact absurd hb.2 h
      · intro hb
        cases hb.1
  have hlater : (∀ (j : ℕ) (b : α), i < j → (l ++ [a])[j]? = some b → f b ≠ k) ↔
      ∀ (j : ℕ) (b : α), i < j → l[j]? = some b → f b ≠ k := by
    constructor
    · intro hall j b hj hb hk
      have hin := (hsplit j b).mpr ⟨hb, hk⟩
      exact hall j b hj hin.1 hk
    · intro hall j b hj hb hk
      have hin := (hsplit j b).mp ⟨hb, hk⟩
      exact hall j b hj hin.1 hk
  unfold IsLast
  rw [hlater]
  simp only [hsplit]

theorem exists_isLast (ha : a ∈ l) : ∃ i, IsLast f l (f a) i := by
  induction l using List.reverseRecOn with
  | nil => cases ha
  | append_singleton l b ih =>
      by_cases hb : f b = f a
      · exact ⟨l.length, (isLast_snoc_self hb).mpr rfl⟩
      · have hin : a ∈ l := by
          rcases List.mem_append.mp ha with hl | hab
          · exact hl
          · rw [List.mem_singleton.mp hab] at hb
            exact absurd rfl hb
        obtain ⟨i, hi⟩ := ih hin
        exact ⟨i, (isLast_snoc_of_ne hb).mpr hi⟩

end Last

theorem addAll_snoc (components : List (ParsedComponent A)) (p : ParsedComponent A) :
    addAll (components ++ [p]) = addParsed (addAll components) p := by
  simp [addAll, List.foldl_append]

theorem components_addAll (components : List (ParsedComponent A)) :
    (addAll components).1.components = components.map toComponent := by
  induction components using List.reverseRecOn with
  | nil => rfl
  | append_singleton components p ih =>
      rw [addAll_snoc, List.map_append]
      exact congrArg (· ++ [toComponent p]) ih

theorem dependencies_addAll (components : List (ParsedComponent A)) (i : ComponentId) :
    (addAll components).1.dependencies i = ∅ := by
  induction components using List.reverseRecOn with
  | nil => rfl
  | append_singleton components p ih =>
      rw [addAll_snoc]
      by_cases hi : i = (addAll components).1.components.length
      · rw [hi]
        exact Function.update_self _ _ _
      · exact (Function.update_of_ne hi _ _).trans ih

theorem componentMapOf_eq_some {components : List (ParsedComponent A)} {name : String}
    {i : ComponentId} :
    componentMapOf components name = some i ↔ LastNamed components name i := by
  induction components using List.reverseRecOn with
  | nil =>
      constructor
      · intro h
        cases h
      · exact fun h => absurd h not_isLast_nil
  | append_singleton components p ih =>
      have hlength : (addAll components).1.components.length = components.length := by
        rw [components_addAll, List.length_map]
      have hmap : componentMapOf (components ++ [p]) =
          Function.update (componentMapOf components) p.name (some components.length) := by
        rw [componentMapOf, addAll_snoc, ← hlength]
        rfl
      rw [hmap]
      by_cases hname : p.name = name
      · subst hname
        rw [Function.update_self, Option.some.injEq, eq_comm]
        exact (isLast_snoc_self rfl).symm
      · rw [Function.update_of_ne (Ne.symm hname), ih]
        exact (isLast_snoc_of_ne hname).symm

theorem pathMapOf_eq_some {components : List (ParsedComponent A)} {path : PathText}
    {j : ComponentId} :
    pathMapOf components path = some j ↔
      ∃ k p, LastIn components path k ∧ components[k]? = some p ∧ LastNamed components p.name j := by
  -- along the list, with the table of names that the whole list gives
  have hrun : ∀ (l : List (ParsedComponent A)) (names : IdMap String),
      (∀ p ∈ l, (names p.name).isSome) →
      (l.foldl (addPath names) (fun _ => none) path = some j ↔
        ∃ k p, LastIn l path k ∧ l[k]? = some p ∧ names p.name = some j) := by
    intro l names
    induction l using List.reverseRecOn with
    | nil =>
        intro _
        constructor
        · intro h
          cases h
        · intro h
          obtain ⟨k, p, hlast, -⟩ := h
          exact absurd hlast not_isLast_nil
    | append_singleton l p ih =>
        intro hnames
        obtain ⟨id, hid⟩ := Option.isSome_iff_exists.mp (hnames p (by simp))
        have hrest := ih fun q hq => hnames q (List.mem_append_left _ hq)
        rw [List.foldl_append, List.foldl_cons, List.foldl_nil, addPath, hid]
        dsimp only
        by_cases hmodule : moduleOf p = path
        · rw [hmodule, Function.update_self]
          constructor
          · intro h
            exact ⟨l.length, p, (isLast_snoc_self hmodule).mpr rfl, List.getElem?_concat_length,
              hid.trans h⟩
          · intro h
            obtain ⟨k, q, hlast, hq, hname⟩ := h
            rw [(isLast_snoc_self hmodule).mp hlast, List.getElem?_concat_length] at hq
            cases hq
            exact hid.symm.trans hname
        · rw [Function.update_of_ne (Ne.symm hmodule), hrest]
          have hinside : ∀ k q, LastIn (l ++ [p]) path k ∧ (l ++ [p])[k]? = some q ↔
              LastIn l path k ∧ l[k]? = some q := by
            intro k q
            rw [LastIn, isLast_snoc_of_ne hmodule]
            refine and_congr_right fun hlast => ?_
            obtain ⟨b, hb, -⟩ := hlast.1
            rw [List.getElem?_append_left (List.getElem?_eq_some_iff.mp hb).choose]
          simp only [← and_assoc, hinside]
  have hnames : ∀ p ∈ components, (componentMapOf components p.name).isSome := by
    intro p hp
    obtain ⟨i, hi⟩ := exists_isLast (f := ParsedComponent.name) hp
    rw [componentMapOf_eq_some.mpr hi]
    rfl
  rw [pathMapOf, hrun components _ hnames]
  simp only [componentMapOf_eq_some]

end Albedo.Scan
