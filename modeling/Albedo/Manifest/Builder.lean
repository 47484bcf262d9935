import Albedo.Library.Separator
import Albedo.Library.Walks
import Mathlib.Data.List.Sort

/-!
# Route manifests

What `build_route_manifest` makes of one route: the static markup of its root, a node for each
deferred component it comes to, and the holes those nodes are to fill. Of markup only the holes are
kept, one for each dependency that is rendered; the order numbers, the bundles and the props of a
node are left out.
-/
namespace Albedo.Manifest

open Separator Walks

abbrev ComponentId := ℕ

inductive Tier
  | a
  | b
  | c
  deriving DecidableEq

/-- The components of a build and what is known of each. No component depends on itself, directly
or through others. -/
structure Project where
  /-- In the order the table of components yields them. -/
  ids : List ComponentId
  name : ComponentId → String
  tier : ComponentId → Tier
  isModuleOnly : ComponentId → Bool
  dependencies : ComponentId → List ComponentId
  registered : ∀ id, ∀ child ∈ dependencies id, child ∈ ids
  rank : ComponentId → ℕ
  acyclic : ∀ id, ∀ child ∈ dependencies id, rank child < rank id

def slugChar (ch : Char) : Option Char :=
  if ch.isAlphanum then some ch.toLower else if ch = '_' ∨ ch = '-' then some '_' else none

def slugify (value : String) : String :=
  let out := value.toList.filterMap slugChar
  if out = [] then "component" else String.ofList out

/-- A component's name to the id of the hole it leaves. -/
abbrev InlineMap := String → Option String

structure RenderedNode where
  componentId : String
  placeholderId : String
  /-- The holes in it. -/
  html : List String
  parentPlaceholder : Option String
  deriving DecidableEq

structure TierBNode where
  componentId : String
  placeholderId : String
  tierAChildren : List RenderedNode
  parentPlaceholder : Option String
  initialHtml : List String

structure TierCNode where
  componentId : String
  placeholderId : String
  parentPlaceholder : Option String

def layoutIslandParent : String := "__albedo_layout_island__"

def routeIslandParent : String := "__albedo_route_island__"

inductive ShellPlaceholder
  | slot (placeholderId : String)
  | element (placeholderId : String) (tier : Tier)

namespace Project

variable (p : Project)

def sortedChildren (id : ComponentId) : List ComponentId :=
  ((p.dependencies id).filter fun child => !p.isModuleOnly child).insertionSort (· ≤ ·)

theorem rank_sortedChildren {id child : ComponentId} (h : child ∈ p.sortedChildren id) :
    p.rank child < p.rank id :=
  p.acyclic id child (List.mem_of_mem_filter ((List.mem_insertionSort _).mp h))

theorem sortedChildren_registered {id child : ComponentId} (h : child ∈ p.sortedChildren id) :
    child ∈ p.ids :=
  p.registered id child (List.mem_of_mem_filter ((List.mem_insertionSort _).mp h))

def placeholderId (letter : String) (id : ComponentId) : String :=
  numbered '_' ("__" ++ letter ++ "_" ++ slugify (p.name id)) id

/-! ### Static markup -/

def deferredComponentNames : List String :=
  (p.ids.filter fun id => p.tier id ≠ .a).map p.name

inductive Occurrence
  | inlined
  | hole (placeholderId : String)
  | nothing

def occurrence (map : InlineMap) (child : ComponentId) : Occurrence :=
  if p.name child ∈ p.deferredComponentNames then
    match map (p.name child) with
    | some placeholderId => .hole placeholderId
    | none => .nothing
  else .inlined

def renderHoles (map : InlineMap) : ℕ → ComponentId → List String
  | 0, _ => []
  | fuel + 1, id => (p.sortedChildren id).flatMap fun child =>
      match p.occurrence map child with
      | .inlined => renderHoles map fuel child
      | .hole placeholderId => [placeholderId]
      | .nothing => []

def staticHtml (map : InlineMap) (id : ComponentId) : List String :=
  p.renderHoles map (p.rank id + 1) id

def renderStatic (map : InlineMap) (id : ComponentId) (parentPlaceholder : Option String) :
    RenderedNode :=
  ⟨p.name id, p.placeholderId "a" id, p.staticHtml map id, parentPlaceholder⟩

/-! ### The walk from the root -/

def collectTierAChildren (map : InlineMap) (parentPlaceholder : String) :
    ℕ → ComponentId → List RenderedNode
  | 0, _ => []
  | fuel + 1, root => (p.sortedChildren root).flatMap fun child =>
      match p.tier child with
      | .a => p.renderStatic map child (some parentPlaceholder) ::
          collectTierAChildren map parentPlaceholder fuel child
      | .b | .c => []

def buildTierBNode (map : InlineMap) (id : ComponentId) (parentPlaceholder : Option String) :
    TierBNode where
  componentId := p.name id
  placeholderId := p.placeholderId "b" id
  tierAChildren := p.collectTierAChildren map (p.placeholderId "b" id) (p.rank id + 1) id
  parentPlaceholder := parentPlaceholder
  initialHtml := p.staticHtml map id

def buildTierCNode (id : ComponentId) (parentPlaceholder : Option String) : TierCNode :=
  ⟨p.name id, p.placeholderId "c" id, parentPlaceholder⟩

structure Nodes where
  tierARoot : List RenderedNode
  tierB : List TierBNode
  tierC : List TierCNode

/-- Nothing remembers where the walk has been. The fuel is more than the rank of the component. -/
def traverse (map : InlineMap) : ℕ → ComponentId → Option String → Bool → Nodes → Nodes
  | 0, _, _, _, nodes => nodes
  | fuel + 1, id, parentPlaceholder, inlined, nodes =>
      match p.tier id with
      | .a =>
          let nodes := if inlined then nodes else { nodes with
            tierARoot := nodes.tierARoot ++ [p.renderStatic map id parentPlaceholder] }
          (p.sortedChildren id).foldl (fun nodes child =>
            traverse map fuel child parentPlaceholder (inlined || p.tier child = .a) nodes) nodes
      | .b =>
          let nodes := { nodes with
            tierB := nodes.tierB ++ [p.buildTierBNode map id parentPlaceholder] }
          (p.sortedChildren id).foldl (fun nodes child =>
            if p.tier child = .a then nodes
            else traverse map fuel child (some (p.placeholderId "b" id)) false nodes) nodes
      | .c => { nodes with tierC := nodes.tierC ++ [p.buildTierCNode id parentPlaceholder] }

/-! ### The walks that place holes -/

def inlining : Dag ComponentId where
  next id := if p.tier id = .a then p.sortedChildren id else []
  rank := p.rank
  descends id child h := by
    split at h
    · exact p.rank_sortedChildren h
    · cases h

def reaching : Dag ComponentId where
  next id := if p.tier id = .c then [] else p.sortedChildren id
  rank := p.rank
  descends id child h := by
    split at h
    · cases h
    · exact p.rank_sortedChildren h

def anchorDeferred (id : ComponentId) (map : InlineMap) : InlineMap :=
  match p.tier id with
  | .a => map
  | .b => Function.update map (p.name id) (some (p.placeholderId "b" id))
  | .c => Function.update map (p.name id) (some (p.placeholderId "c" id))

def collectRouteIslandPlaceholders (root : ComponentId) : InlineMap :=
  (p.inlining.sweep p.anchorDeferred (p.sortedChildren root).reverse ([root], fun _ => none)).2

structure LayoutIslands where
  nodes : List TierCNode
  map : InlineMap
  emitted : List ComponentId

def emitIsland (id : ComponentId) (islands : LayoutIslands) : LayoutIslands :=
  match p.tier id with
  | .a | .b => islands
  | .c =>
      if id ∈ islands.emitted then islands
      else {
        nodes := islands.nodes ++ [p.buildTierCNode id (some layoutIslandParent)]
        map := Function.update islands.map (p.name id) (some (p.placeholderId "c" id))
        emitted := id :: islands.emitted }

def findComponent (name : String) : Option ComponentId := p.ids.find? fun id => p.name id = name

def collectLayoutIslands (layoutChain : List String) : List ComponentId × LayoutIslands :=
  layoutChain.foldl (fun s layoutName =>
    match p.findComponent layoutName with
    | none => s
    | some layoutId => p.reaching.sweep p.emitIsland (p.sortedChildren layoutId).reverse s)
    ([], ⟨[], fun _ => none, []⟩)

/-- The markup of the layouts that are found, the innermost first. -/
def wrapInLayouts (map : InlineMap) (layoutChain : List String) : List String :=
  (layoutChain.reverse.filterMap p.findComponent).flatMap (p.staticHtml map)

end Project

def collectShellPlaceholders (tierARoot : List RenderedNode) (tierB : List TierBNode)
    (tierC : List TierCNode) : List ShellPlaceholder :=
  (tierARoot.filter fun node => node.parentPlaceholder = none).map
      (fun node => .slot node.placeholderId) ++
    (tierB.filter fun node => node.parentPlaceholder = none).map
      (fun node => .element node.placeholderId .b) ++
    (tierC.filter fun node => node.parentPlaceholder = none).map
      (fun node => .element node.placeholderId .c)

structure RouteManifest where
  tierARoot : List RenderedNode
  tierB : List TierBNode
  tierC : List TierCNode
  shell : List ShellPlaceholder
  layoutHtml : List String
  /-- The maps the renderer was handed: for the route, and for its layouts. -/
  routeMap : InlineMap
  layoutMap : InlineMap

def anchoredParent (map : InlineMap) (componentId : String) (parentPlaceholder : Option String) :
    Option String :=
  if parentPlaceholder = none ∧ (map componentId).isSome then some routeIslandParent
  else parentPlaceholder

def Project.buildRouteManifest (p : Project) (root : ComponentId) (layoutChain : List String) :
    RouteManifest :=
  let routeMap := p.collectRouteIslandPlaceholders root
  let nodes := p.traverse routeMap (p.rank root + 1) root none false ⟨[], [], []⟩
  let tierC := nodes.tierC.map fun node => { node with
    parentPlaceholder := anchoredParent routeMap node.componentId node.parentPlaceholder }
  let tierB := nodes.tierB.map fun node => { node with
    parentPlaceholder := anchoredParent routeMap node.componentId node.parentPlaceholder }
  let islands := (p.collectLayoutIslands layoutChain).2
  let tierC := tierC ++ islands.nodes
  { tierARoot := nodes.tierARoot
    tierB := tierB
    tierC := tierC
    shell := collectShellPlaceholders nodes.tierARoot tierB tierC
    layoutHtml := p.wrapInLayouts islands.map layoutChain
    routeMap := routeMap
    layoutMap := islands.map }

end Albedo.Manifest
