import Albedo.Scan.Graph

/-!
# The edges of the component graph

The graph is to have an edge between two components exactly where the file of one imports the file
of the other. It has an edge where an import of a component that shares its name is taken for the
other, and not all that a file holds is found by its path.
-/
namespace Albedo.Scan

variable {A : Type*} {components : List (ParsedComponent A)}

local instance lawfulBEq_pathText : LawfulBEq PathText := inferInstance

/-! ### Which edges there are -/

theorem ComponentGraph.components_tryDependency (graph : ComponentGraph A)
    (fromId toId : ComponentId) : (graph.tryDependency fromId toId).components = graph.components := by
  unfold tryDependency addDependency
  split_ifs <;> rfl

theorem ComponentGraph.mem_tryDependency {graph : ComponentGraph A} {fromId toId i j : ComponentId}
    (hfrom : fromId < graph.components.length) (hto : toId < graph.components.length) :
    j ∈ (graph.tryDependency fromId toId).dependencies i ↔
      j ∈ graph.dependencies i ∨ i = fromId ∧ j = toId := by
  unfold tryDependency addDependency
  rw [if_neg (Nat.not_le_of_lt hfrom), if_neg (Nat.not_le_of_lt hto)]
  dsimp only
  by_cases hi : i = fromId
  · subst hi
    rw [Function.update_self, Finset.mem_insert]
    constructor
    · intro h
      cases h with
      | inl heq => exact Or.inr ⟨rfl, heq⟩
      | inr hin => exact Or.inl hin
    · intro h
      cases h with
      | inl hin => exact Or.inr hin
      | inr heq => exact Or.inl heq.2
  · rw [Function.update_of_ne hi]
    constructor
    · exact Or.inl
    · intro h
      cases h with
      | inl hin => exact hin
      | inr heq => exact absurd heq.1 hi

theorem mem_foldl {β : Type*} {step : ComponentGraph A → β → ComponentGraph A}
    {R : β → ComponentId → ComponentId → Prop} {nodes : List (Component A)}
    (l : List β) (hstep : ∀ x ∈ l, ∀ graph : ComponentGraph A, graph.components = nodes →
      (step graph x).components = nodes ∧
        ∀ i j, j ∈ (step graph x).dependencies i ↔ j ∈ graph.dependencies i ∨ R x i j)
    (graph : ComponentGraph A) (hgraph : graph.components = nodes) :
    (l.foldl step graph).components = nodes ∧ ∀ i j,
      j ∈ (l.foldl step graph).dependencies i ↔ j ∈ graph.dependencies i ∨ ∃ x ∈ l, R x i j := by
  induction l generalizing graph with
  | nil => simp [hgraph]
  | cons x l ih =>
      rw [List.forall_mem_cons] at hstep
      obtain ⟨hnodes, hedges⟩ := hstep.1 graph hgraph
      obtain ⟨hnodes', hedges'⟩ := ih hstep.2 (step graph x) hnodes
      refine ⟨hnodes', ?_⟩
      intro i j
      rw [List.foldl_cons, hedges', hedges, List.exists_mem_cons_iff, or_assoc]

theorem lt_of_componentMapOf {name : String} {i : ComponentId}
    (h : componentMapOf components name = some i) : i < components.length := by
  obtain ⟨⟨p, hp, -⟩, -⟩ := componentMapOf_eq_some.mp h
  exact (List.getElem?_eq_some_iff.mp hp).choose

theorem lt_of_pathMapOf {path : PathText} {j : ComponentId}
    (h : pathMapOf components path = some j) : j < components.length := by
  obtain ⟨k, p, -, -, hlast⟩ := pathMapOf_eq_some.mp h
  exact lt_of_componentMapOf (componentMapOf_eq_some.mpr hlast)

def Wires (components : List (ParsedComponent A)) (p : ParsedComponent A) (i j : ComponentId) :
    Prop :=
  componentMapOf components p.name = some i ∧
    ((∃ source ∈ p.importSources,
      resolveImport p.filePath source (pathMapOf components) = some j ∧ j ≠ i) ∨
    ∃ name ∈ p.imports, componentMapOf components name = some j)

section Wire

variable {nodes : List (Component A)} {fromId : ComponentId}

theorem mem_wireSource (hnodes : nodes.length = components.length) (hfrom : fromId < nodes.length)
    (filePath : PathText) (source : List Char) (graph : ComponentGraph A)
    (hgraph : graph.components = nodes) :
    (wireSource (pathMapOf components) filePath fromId graph source).components = nodes ∧ ∀ i j,
      j ∈ (wireSource (pathMapOf components) filePath fromId graph source).dependencies i ↔
        j ∈ graph.dependencies i ∨
          i = fromId ∧ resolveImport filePath source (pathMapOf components) = some j ∧ j ≠ fromId := by
  unfold wireSource
  cases hresolve : resolveImport filePath source (pathMapOf components) with
  | none => simp [hgraph]
  | some toId =>
      obtain ⟨path, hpath⟩ := resolveImport_some hresolve
      have hto : toId < graph.components.length := by
        rw [hgraph, hnodes]
        exact lt_of_pathMapOf hpath
      rw [← hgraph] at hfrom
      dsimp only
      by_cases hself : toId ≠ fromId
      · rw [if_pos hself, graph.components_tryDependency]
        refine ⟨hgraph, ?_⟩
        intro i j
        rw [ComponentGraph.mem_tryDependency hfrom hto, Option.some.injEq]
        refine or_congr_right (and_congr_right fun _ => ?_)
        constructor
        · intro hj
          subst hj
          exact ⟨rfl, hself⟩
        · exact fun hj => hj.1.symm
      · rw [if_neg hself]
        refine ⟨hgraph, ?_⟩
        intro i j
        rw [not_not] at hself
        subst hself
        simp [eq_comm]

theorem mem_wireName (hnodes : nodes.length = components.length) (hfrom : fromId < nodes.length)
    (name : String) (graph : ComponentGraph A) (hgraph : graph.components = nodes) :
    (wireName (componentMapOf components) fromId graph name).components = nodes ∧ ∀ i j,
      j ∈ (wireName (componentMapOf components) fromId graph name).dependencies i ↔
        j ∈ graph.dependencies i ∨ i = fromId ∧ componentMapOf components name = some j := by
  unfold wireName
  cases hname : componentMapOf components name with
  | none => simp [hgraph]
  | some toId =>
      have hto : toId < graph.components.length := by
        rw [hgraph, hnodes]
        exact lt_of_componentMapOf hname
      rw [← hgraph] at hfrom
      dsimp only
      rw [graph.components_tryDependency]
      refine ⟨hgraph, ?_⟩
      intro i j
      rw [ComponentGraph.mem_tryDependency hfrom hto, Option.some.injEq, @eq_comm _ toId]

theorem mem_wire (hnodes : nodes.length = components.length) (p : ParsedComponent A)
    (graph : ComponentGraph A) (hgraph : graph.components = nodes) :
    (wire (componentMapOf components) (pathMapOf components) graph p).components = nodes ∧
      ∀ i j, j ∈ (wire (componentMapOf components) (pathMapOf components) graph p).dependencies i ↔
        j ∈ graph.dependencies i ∨ Wires components p i j := by
  unfold wire Wires
  cases hname : componentMapOf components p.name with
  | none => simp [hgraph]
  | some id =>
      have hid : id < nodes.length := hnodes ▸ lt_of_componentMapOf hname
      obtain ⟨hkept, hedges⟩ := mem_foldl p.importSources
        (fun source _ => mem_wireSource hnodes hid p.filePath source) graph hgraph
      obtain ⟨hkept', hedges'⟩ := mem_foldl p.imports
        (fun name _ => mem_wireName hnodes hid name) _ hkept
      refine ⟨hkept', ?_⟩
      intro i j
      dsimp only
      rw [hedges', hedges, or_assoc, Option.some.injEq]
      refine or_congr_right ?_
      constructor
      · intro h
        rcases h with ⟨source, hsource, hi, hj⟩ | ⟨name, hin, hi, hj⟩
        · exact ⟨hi.symm, Or.inl ⟨source, hsource, hj.1, hi ▸ hj.2⟩⟩
        · exact ⟨hi.symm, Or.inr ⟨name, hin, hj⟩⟩
      · intro h
        obtain ⟨hi, hj⟩ := h
        subst hi
        rcases hj with ⟨source, hsource, hj⟩ | ⟨name, hin, hj⟩
        · exact Or.inl ⟨source, hsource, rfl, hj⟩
        · exact Or.inr ⟨name, hin, rfl, hj⟩

end Wire

/-! ### Which edges there are to be -/

def modules (components : List (ParsedComponent A)) : List PathText := components.map moduleOf

def resolveModule (components : List (ParsedComponent A)) (importer : ParsedComponent A)
    (source : List Char) : Option PathText :=
  resolveImport importer.filePath source fun path =>
    if path ∈ modules components then some path else none

def Imports (components : List (ParsedComponent A)) (f g : PathText) : Prop :=
  ∃ p ∈ components, moduleOf p = f ∧ ∃ source ∈ p.importSources,
    resolveModule components p source = some g

def ImportsFile (components : List (ParsedComponent A)) (i j : ComponentId) : Prop :=
  ∃ p q, components[i]? = some p ∧ components[j]? = some q ∧
    Imports components (moduleOf p) (moduleOf q)

def moduleAt (components : List (ParsedComponent A)) (i : ComponentId) : PathText :=
  ((components[i]?).map moduleOf).getD []

theorem moduleAt_eq {i : ComponentId} {p : ParsedComponent A} (hp : components[i]? = some p) :
    moduleAt components i = moduleOf p := by
  rw [moduleAt, hp, Option.map_some, Option.getD_some]

/-- The component a module's path stands for: the last with the name of its last. -/
def StandsFor (components : List (ParsedComponent A)) (path : PathText) (j : ComponentId) : Prop :=
  ∃ k p, LastIn components path k ∧ components[k]? = some p ∧ LastNamed components p.name j

/-- One of the components with this name has an import that is taken for the node. -/
def TakenFor (components : List (ParsedComponent A)) (name : String) (i j : ComponentId) : Prop :=
  ∃ p ∈ components, p.name = name ∧
    ((∃ source ∈ p.importSources, ∃ path, resolveModule components p source = some path ∧
      StandsFor components path j ∧ j ≠ i) ∨
    ∃ bound ∈ p.imports, LastNamed components bound j)

theorem isSome_pathMapOf {path : PathText} :
    (pathMapOf components path).isSome ↔ path ∈ modules components := by
  rw [Option.isSome_iff_exists]
  constructor
  · intro h
    obtain ⟨j, hj⟩ := h
    obtain ⟨k, p, ⟨⟨q, hq, hpath⟩, -⟩, -⟩ := pathMapOf_eq_some.mp hj
    exact List.mem_map.mpr ⟨q, List.mem_of_getElem? hq, hpath⟩
  · intro h
    obtain ⟨p, hp, rfl⟩ := List.mem_map.mp h
    obtain ⟨k, hk⟩ := exists_isLast (f := moduleOf) hp
    obtain ⟨q, hq, -⟩ := hk.1
    obtain ⟨j, hj⟩ := exists_isLast (f := ParsedComponent.name) (List.mem_of_getElem? hq)
    exact ⟨j, pathMapOf_eq_some.mpr ⟨k, q, hk, hq, hj⟩⟩

theorem resolveImport_pathMapOf (p : ParsedComponent A) (source : List Char) (j : ComponentId) :
    resolveImport p.filePath source (pathMapOf components) = some j ↔
      ∃ path, resolveModule components p source = some path ∧ StandsFor components path j := by
  rw [resolveImport_bind p.filePath source fun _ => isSome_pathMapOf, Option.bind_eq_some_iff]
  refine exists_congr fun path => and_congr_right fun _ => pathMapOf_eq_some

/-- The graph has an edge from a component that is the last of its name, to what an import of a
component with that name is taken for. -/
theorem mem_dependencies (i j : ComponentId) :
    j ∈ (buildCompiler components).dependencies i ↔
      ∃ p, components[i]? = some p ∧ LastNamed components p.name i ∧
        TakenFor components p.name i j := by
  have hnodes : (addAll components).1.components.length = components.length := by
    rw [components_addAll, List.length_map]
  obtain ⟨-, hedges⟩ := mem_foldl components (fun p _ => mem_wire hnodes p) (addAll components).1 rfl
  rw [buildCompiler, hedges, dependencies_addAll]
  constructor
  · intro h
    rcases h with hnone | ⟨q, hq, hname, htaken⟩
    · exact absurd hnone (Finset.notMem_empty j)
    · have hlast := componentMapOf_eq_some.mp hname
      obtain ⟨p, hp, hsame⟩ := hlast.1
      refine ⟨p, hp, hsame ▸ hlast, q, hq, hsame.symm, ?_⟩
      rcases htaken with ⟨source, hsource, hresolve, hne⟩ | ⟨bound, hbound, hnamed⟩
      · obtain ⟨path, hpath, hstands⟩ := (resolveImport_pathMapOf q source j).mp hresolve
        exact Or.inl ⟨source, hsource, path, hpath, hstands, hne⟩
      · exact Or.inr ⟨bound, hbound, componentMapOf_eq_some.mp hnamed⟩
  · intro h
    obtain ⟨p, hp, hlast, q, hq, hname, htaken⟩ := h
    refine Or.inr ⟨q, hq, componentMapOf_eq_some.mpr (hname ▸ hlast), ?_⟩
    rcases htaken with ⟨source, hsource, path, hpath, hstands, hne⟩ | ⟨bound, hbound, hnamed⟩
    · exact Or.inl ⟨source, hsource,
        (resolveImport_pathMapOf q source j).mpr ⟨path, hpath, hstands⟩, hne⟩
    · exact Or.inr ⟨bound, hbound, componentMapOf_eq_some.mpr hnamed⟩

/-! ### Where they are the same -/

/-- The edges are the imports, and files that import each other without a cycle are accepted, in
whatever order the tables give nodes and edges. -/
structure Exact (components : List (ParsedComponent A)) : Prop where
  edges : ∀ i j, j ∈ (buildCompiler components).dependencies i ↔ ImportsFile components i j
  accepted : (∀ f, ¬ Relation.TransGen (Imports components) f f) →
    ∀ order : HashOrder (buildCompiler components),
      (buildCompiler components).validate order = some (.ok ())

structure Unconfused (components : List (ParsedComponent A)) : Prop where
  /-- A component whose file imports a module has the last use of its name. -/
  importers : ∀ i j p, ImportsFile components i j → components[i]? = some p →
    LastNamed components p.name i
  /-- What is imported is the component its module's path stands for, or its name is bound. -/
  found : ∀ i j p, ImportsFile components i j → components[i]? = some p →
    TakenFor components p.name i j
  /-- What a specifier is taken for is in a file that the last of the importer's name imports. -/
  specifiers : ∀ p ∈ components, ∀ source ∈ p.importSources, ∀ path i j,
    LastNamed components p.name i → resolveModule components p source = some path →
    StandsFor components path j → j ≠ i → ImportsFile components i j
  /-- So is a component whose name an import binds. -/
  names : ∀ p ∈ components, ∀ bound ∈ p.imports, ∀ i j, LastNamed components p.name i →
    LastNamed components bound j → ImportsFile components i j

theorem ComponentGraph.searchAll_ends (graph : ComponentGraph A)
    (hrange : ∀ i j, j ∈ graph.dependencies i → j < graph.components.length)
    (order : HashOrder graph) : ∃ found,
      DepthFirst.searchAll order.next graph.components.length order.ids ⟨∅, ∅⟩ = some found := by
  have hclosed : ∀ a ∈ Finset.range graph.components.length, ∀ b ∈ order.next a,
      b ∈ Finset.range graph.components.length := by
    intro a _ b hb
    exact Finset.mem_range.mpr (hrange a b ((order.mem_next a b).mp hb))
  have hroots : ∀ a ∈ order.ids, a ∈ Finset.range graph.components.length := by
    intro a ha
    exact Finset.mem_range.mpr ((order.mem_ids a).mp ha)
  have hfuel : (Finset.range graph.components.length).card ≤ graph.components.length := by
    rw [Finset.card_range]
  exact DepthFirst.searchAll_ends hclosed hfuel order.ids hroots ⟨∅, ∅⟩

theorem validate_ok (graph : ComponentGraph A)
    (hrange : ∀ i j, j ∈ graph.dependencies i → j < graph.components.length)
    (hacyclic : ∀ i, ¬ Relation.TransGen (fun a b => b ∈ graph.dependencies a) i i)
    (order : HashOrder graph) : graph.validate order = some (.ok ()) := by
  obtain ⟨found, hfound⟩ := graph.searchAll_ends hrange order
  have hcloses := DepthFirst.searchAll_closes _ order.ids ⟨∅, ∅⟩ found rfl hfound
  have hnone : found.1 = none := by
    cases hback : found.1 with
    | none => rfl
    | some back =>
        obtain ⟨hedge, hpath⟩ := hcloses back.1 back.2 hback
        have hedges : DepthFirst.Edge order.next = fun a b => b ∈ graph.dependencies a := by
          funext a b
          exact propext (order.mem_next a b)
        rw [hedges] at hedge hpath
        exact absurd (Relation.TransGen.head' hedge hpath) (hacyclic back.1)
  rw [ComponentGraph.validate, hfound, Option.map_some, hnone]

theorem nodes_buildCompiler (components : List (ParsedComponent A)) :
    (buildCompiler components).components = components.map toComponent := by
  have hnodes : (addAll components).1.components.length = components.length := by
    rw [components_addAll, List.length_map]
  obtain ⟨hkept, -⟩ := mem_foldl components (fun p _ => mem_wire hnodes p) (addAll components).1 rfl
  rw [buildCompiler, hkept, components_addAll]

theorem components_buildCompiler (components : List (ParsedComponent A)) :
    (buildCompiler components).components.length = components.length := by
  rw [nodes_buildCompiler, List.length_map]

theorem dependencies_lt {i j : ComponentId} (h : j ∈ (buildCompiler components).dependencies i) :
    j < (buildCompiler components).components.length := by
  rw [components_buildCompiler]
  obtain ⟨p, hp, hname, q, hq, hsame, htaken⟩ := (mem_dependencies i j).mp h
  rcases htaken with ⟨source, hsource, path, hpath, ⟨k, r, hin, hr, hlast⟩, hne⟩ | ⟨bound, hbound, hlast⟩
  · exact lt_of_componentMapOf (componentMapOf_eq_some.mpr hlast)
  · exact lt_of_componentMapOf (componentMapOf_eq_some.mpr hlast)

/-- The edges of a graph are exactly the project's imports where no import is taken for what it is
not and all that is imported is found, and only there. -/
theorem exact_iff_unconfused (components : List (ParsedComponent A)) :
    Exact components ↔ Unconfused components := by
  constructor
  · intro h
    have htaken : ∀ p ∈ components, ∀ i j, LastNamed components p.name i →
        TakenFor components p.name i j → ImportsFile components i j := by
      intro p hp i j hlast htaken
      obtain ⟨q, hq, hname⟩ := hlast.1
      exact (h.edges i j).mp ((mem_dependencies i j).mpr ⟨q, hq, hname ▸ hlast, hname ▸ htaken⟩)
    have hedge : ∀ i j p, ImportsFile components i j → components[i]? = some p →
        LastNamed components p.name i ∧ TakenFor components p.name i j := by
      intro i j p himports hp
      obtain ⟨q, hq, hlast, htaken⟩ := (mem_dependencies i j).mp ((h.edges i j).mpr himports)
      obtain rfl := Option.some.inj (hp.symm.trans hq)
      exact ⟨hlast, htaken⟩
    refine ⟨fun i j p hi hp => (hedge i j p hi hp).1, fun i j p hi hp => (hedge i j p hi hp).2, ?_, ?_⟩
    · intro p hp source hsource path i j hlast hpath hstands hne
      exact htaken p hp i j hlast ⟨p, hp, rfl, Or.inl ⟨source, hsource, path, hpath, hstands, hne⟩⟩
    · intro p hp bound hbound i j hlast hnamed
      exact htaken p hp i j hlast ⟨p, hp, rfl, Or.inr ⟨bound, hbound, hnamed⟩⟩
  · intro h
    have hedges : ∀ i j, j ∈ (buildCompiler components).dependencies i ↔
        ImportsFile components i j := by
      intro i j
      rw [mem_dependencies]
      constructor
      · intro hedge
        obtain ⟨p, hp, hlast, q, hq, hname, htaken⟩ := hedge
        rcases htaken with ⟨source, hsource, path, hpath, hstands, hne⟩ | ⟨bound, hbound, hnamed⟩
        · exact h.specifiers q hq source hsource path i j (hname ▸ hlast) hpath hstands hne
        · exact h.names q hq bound hbound i j (hname ▸ hlast) hnamed
      · intro himports
        obtain ⟨p, q, hp, hq, hfile⟩ := himports
        have himports : ImportsFile components i j := ⟨p, q, hp, hq, hfile⟩
        exact ⟨p, hp, h.importers i j p himports hp, h.found i j p himports hp⟩
    refine ⟨hedges, ?_⟩
    intro hacyclic order
    apply validate_ok _ fun i j => dependencies_lt
    · intro i hcycle
      -- a cycle of edges is one of files
      have himports : ∀ a b, b ∈ (buildCompiler components).dependencies a →
          Imports components (moduleAt components a) (moduleAt components b) := by
        intro a b hab
        obtain ⟨p, q, hp, hq, hfile⟩ := (hedges a b).mp hab
        rw [moduleAt_eq hp, moduleAt_eq hq]
        exact hfile
      exact hacyclic _ (hcycle.lift (moduleAt components) himports)

/-- Two files with a component of one name, the first of which imports a third. -/
def twoButtons : List (ParsedComponent Unit) :=
  [⟨"Button", "src/a.tsx".toList, ["format"], ["./util".toList], ()⟩,
    ⟨"Button", "src/b.tsx".toList, [], [], ()⟩,
    ⟨"__module__util", "src/util.ts".toList, [], [], ()⟩]

/-- The import is credited to the second, which has none. -/
theorem twoButtons_confused : ¬ Exact twoButtons := by
  intro h
  have himports : ImportsFile twoButtons 0 2 :=
    ⟨_, _, rfl, rfl, _, List.mem_cons_self, rfl, _, List.mem_cons_self, by decide⟩
  have hedge := (h.edges 0 2).mpr himports
  revert hedge
  decide

end Albedo.Scan
