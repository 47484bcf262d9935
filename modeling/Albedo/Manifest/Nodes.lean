import Albedo.Manifest.Islands
import Mathlib.Data.List.Count

/-!
# The nodes of a route

Which nodes a manifest lists, where each is anchored, and which holes its markup shows.
-/
namespace Albedo.Manifest

open Walks

def RouteManifest.nodes (m : RouteManifest) : List (String × Option String) :=
  m.tierARoot.map (fun node => (node.placeholderId, node.parentPlaceholder)) ++
    (m.tierB.map (fun node => (node.placeholderId, node.parentPlaceholder)) ++
      m.tierC.map fun node => (node.placeholderId, node.parentPlaceholder))

def RouteManifest.deferredIds (m : RouteManifest) : List String :=
  m.tierB.map TierBNode.placeholderId ++ m.tierC.map TierCNode.placeholderId

/-- The holes in the static markup of the route, its Tier-B components and its layouts. -/
def RouteManifest.holes (m : RouteManifest) : List String :=
  m.tierARoot.flatMap RenderedNode.html ++
    m.tierB.flatMap (fun node =>
      node.initialHtml ++ node.tierAChildren.flatMap RenderedNode.html) ++ m.layoutHtml

def ShellPlaceholder.placeholderId : ShellPlaceholder → String
  | .slot placeholderId => placeholderId
  | .element placeholderId _ => placeholderId

/-- In how many places a node is anchored: in the shell, inline, and in a parent node. -/
def RouteManifest.anchors (m : RouteManifest) (node : String × Option String) : ℕ :=
  (m.shell.map ShellPlaceholder.placeholderId).count node.1 + m.holes.count node.1 +
    if node.2 ∈ m.tierB.map (fun parent => some parent.placeholderId) then 1 else 0

namespace Project

variable {p : Project} {root : ComponentId} {layouts : List ComponentId} {x y : ComponentId}
  {u : Option String} {name q : String}

def manifest (p : Project) (root : ComponentId) (layouts : List ComponentId) : RouteManifest :=
  p.buildRouteManifest root (layouts.map p.name)

def Found (p : Project) (layouts : List ComponentId) : Prop :=
  ∀ layout ∈ layouts, p.findComponent (p.name layout) = some layout

def Island (p : Project) (layouts : List ComponentId) (id : ComponentId) : Prop :=
  p.tier id = .c ∧ p.BelowLayouts layouts id

theorem Found.chain (h : p.Found layouts) :
    (layouts.map p.name).filterMap p.findComponent = layouts := by
  induction layouts with
  | nil => rfl
  | cons layout layouts ih =>
      unfold Found at h
      rw [List.forall_mem_cons] at h
      rw [List.map_cons, List.filterMap_cons, h.1, ih h.2]

/-! ### The maps -/

theorem routeMap_some (h : (p.manifest root layouts).routeMap name = some q) :
    ∃ y, p.Occurs root y ∧ p.Deferred y ∧ p.name y = name ∧ p.placeholder y = q := by
  obtain ⟨found, hmem, hmap⟩ := p.routeMap_eq root
  have hroute : (p.manifest root layouts).routeMap = p.entered found := hmap
  rw [hroute] at h
  obtain ⟨y, hy, hname, hq⟩ := entered_some h
  exact ⟨y, ((hmem y).mp hy).1, ((hmem y).mp hy).2, hname, hq⟩

variable (layouts) in
theorem routeMap_of_occurs (hy : p.Occurs root y) (hdeferred : p.Deferred y) :
    ∃ z, p.Occurs root z ∧ p.Deferred z ∧ p.name z = p.name y ∧
      (p.manifest root layouts).routeMap (p.name y) = some (p.placeholder z) := by
  obtain ⟨found, hmem, hmap⟩ := p.routeMap_eq root
  have hroute : (p.manifest root layouts).routeMap = p.entered found := hmap
  obtain ⟨z, hz, hname, hsome⟩ := entered_of_mem ((hmem y).mpr ⟨hy, hdeferred⟩)
  exact ⟨z, ((hmem z).mp hz).1, ((hmem z).mp hz).2, hname, hroute ▸ hsome⟩

section Layouts

variable (hfound : p.Found layouts)

include hfound

variable (root) in
theorem islands_eq : ∃ found, found.Nodup ∧ (∀ y, y ∈ found ↔ p.Island layouts y) ∧
    (p.collectLayoutIslands (layouts.map p.name)).2.nodes =
      found.map (fun y => p.buildTierCNode y (some layoutIslandParent)) ∧
    (p.manifest root layouts).layoutMap = p.entered found := by
  obtain ⟨found, hnodup, hmem, hnodes, hmap⟩ := p.collectLayoutIslands_eq (layouts.map p.name)
  rw [hfound.chain] at hmem
  exact ⟨found, hnodup, hmem, hnodes, hmap⟩

theorem layoutMap_some (h : (p.manifest root layouts).layoutMap name = some q) :
    ∃ y, p.Island layouts y ∧ p.name y = name ∧ p.placeholder y = q := by
  obtain ⟨found, -, hmem, -, hmap⟩ := islands_eq root hfound
  rw [hmap] at h
  obtain ⟨y, hy, hrest⟩ := entered_some h
  exact ⟨y, (hmem y).mp hy, hrest⟩

variable (root) in
theorem layoutMap_of_island (hy : p.Island layouts y) :
    ∃ z, p.Island layouts z ∧ p.name z = p.name y ∧
      (p.manifest root layouts).layoutMap (p.name y) = some (p.placeholder z) := by
  obtain ⟨found, -, hmem, -, hmap⟩ := islands_eq root hfound
  obtain ⟨z, hz, hname, hsome⟩ := entered_of_mem ((hmem y).mpr hy)
  exact ⟨z, (hmem z).mp hz, hname, hmap ▸ hsome⟩

theorem layoutHtml_eq : (p.manifest root layouts).layoutHtml =
    layouts.reverse.flatMap (p.staticHtml (p.manifest root layouts).layoutMap) := by
  have hchain : ((layouts.map p.name).reverse.filterMap p.findComponent) = layouts.reverse := by
    rw [List.filterMap_reverse, hfound.chain]
  simp only [manifest, buildRouteManifest, wrapInLayouts, hchain]

end Layouts

/-! ### The nodes -/

/-- What the walk from the root comes to, with the parents it gives. -/
def seen (p : Project) (root : ComponentId) : List (ComponentId × Option String) :=
  p.visits.unfold (root, none)

theorem map_fst_seen (root : ComponentId) : (p.seen root).map Prod.fst = p.walk.unfold root :=
  map_fst_visits (root, none)

theorem traverse_root (map : InlineMap) (root : ComponentId) :
    p.traverse map (p.rank root + 1) root none false ⟨[], [], []⟩ = {
      tierARoot := if p.tier root = .a then [p.renderStatic map root none] else []
      tierB := ((p.seen root).filter fun visit => p.tier visit.1 = .b).map
        fun visit => p.buildTierBNode map visit.1 visit.2
      tierC := ((p.seen root).filter fun visit => p.tier visit.1 = .c).map
        fun visit => p.buildTierCNode visit.1 visit.2 } := by
  rw [traverse_eq (Nat.lt_succ_self _)]
  by_cases h : p.tier root = .a
  · rw [if_pos ⟨h, rfl⟩, if_pos h]
    rfl
  · rw [if_neg (fun hand => h hand.1), if_neg h]
    rfl

theorem manifest_tierARoot : (p.manifest root layouts).tierARoot =
    if p.tier root = .a then [p.renderStatic (p.manifest root layouts).routeMap root none]
    else [] := by
  simp only [manifest, buildRouteManifest, traverse_root]

def tierBNode (p : Project) (map : InlineMap) (visit : ComponentId × Option String) : TierBNode :=
  { p.buildTierBNode map visit.1 visit.2 with
    parentPlaceholder := anchoredParent map (p.name visit.1) visit.2 }

def tierCNode (p : Project) (map : InlineMap) (visit : ComponentId × Option String) : TierCNode :=
  { p.buildTierCNode visit.1 visit.2 with
    parentPlaceholder := anchoredParent map (p.name visit.1) visit.2 }

theorem manifest_tierB : (p.manifest root layouts).tierB =
    ((p.seen root).filter fun visit => p.tier visit.1 = .b).map
      (p.tierBNode (p.manifest root layouts).routeMap) := by
  simp only [manifest, buildRouteManifest, traverse_root, List.map_map]
  rfl

theorem manifest_tierC : (p.manifest root layouts).tierC =
    ((p.seen root).filter fun visit => p.tier visit.1 = .c).map
        (p.tierCNode (p.manifest root layouts).routeMap) ++
      (p.collectLayoutIslands (layouts.map p.name)).2.nodes := by
  simp only [manifest, buildRouteManifest, traverse_root, List.map_map]
  rfl

theorem nodes_ids : (p.manifest root layouts).nodes.map Prod.fst =
    (if p.tier root = .a then [p.placeholder root] else []) ++
      (p.manifest root layouts).deferredIds := by
  rw [RouteManifest.nodes, manifest_tierARoot]
  simp only [List.map_append, List.map_map, Function.comp_def, RouteManifest.deferredIds]
  congr 1
  by_cases h : p.tier root = .a
  · rw [if_pos h, if_pos h]
    simp [renderStatic, placeholder, h, Tier.letter]
  · rw [if_neg h, if_neg h]
    rfl

theorem shell_ids : (p.manifest root layouts).shell.map ShellPlaceholder.placeholderId =
    ((p.manifest root layouts).nodes.filter fun node => node.2 = none).map Prod.fst := by
  have hshell : (p.manifest root layouts).shell = collectShellPlaceholders
      (p.manifest root layouts).tierARoot (p.manifest root layouts).tierB
      (p.manifest root layouts).tierC := rfl
  rw [hshell, collectShellPlaceholders, RouteManifest.nodes]
  simp only [List.map_append, List.map_map, List.filter_append, List.filter_map, Function.comp_def,
    List.append_assoc, ShellPlaceholder.placeholderId]

theorem mem_seen : (∃ u, (x, u) ∈ p.seen root) ↔ p.walk.Reaches root x := by
  rw [← Dag.mem_unfold, ← map_fst_seen]
  simp

/-- What the walk comes to without passing a Tier-B component occurs in the root's markup; else the
last one it passed is the parent, and what it holds is deferred. -/
theorem seen_parent (h : (x, u) ∈ p.seen root) :
    (u = none ∧ (x = root ∨ p.tier root = .a ∧ p.Occurs root x)) ∨
      ∃ b, p.walk.Reaches root b ∧ p.tier b = .b ∧ u = some (p.placeholder b) ∧
        x ∈ p.sortedChildren b ∧ p.Deferred x := by
  rw [seen, Dag.mem_unfold] at h
  obtain ⟨visit, hvisit⟩ : ∃ visit, visit = (x, u) := ⟨_, rfl⟩
  rw [← hvisit] at h
  induction h generalizing x u with
  | refl =>
      cases hvisit
      exact Or.inl ⟨rfl, Or.inl rfl⟩
  | @tail before after hreach hedge ih =>
      subst hvisit
      obtain ⟨child, hchild, heq⟩ := List.mem_map.mp hedge
      cases heq
      have hwalk : p.walk.Reaches root before.1 := by
        rw [← mem_seen]
        exact ⟨before.2, Dag.mem_unfold _ |>.mpr hreach⟩
      cases htier : p.tier before.1 with
      | a =>
          have hmem := mem_sortedChildren_of_walked hchild
          rw [holder, htier, if_neg (by decide)]
          rcases ih (x := before.1) (u := before.2) rfl with ⟨hu, hwhere⟩ | ⟨b, -, -, -, -, hdeferred⟩
          · refine Or.inl ⟨hu, Or.inr ?_⟩
            rcases hwhere with hroot | ⟨hroot, d, hd, hinlined⟩
            · rw [← hroot]
              exact ⟨htier, x, hmem, Relation.ReflTransGen.refl⟩
            · exact ⟨hroot, d, hd, hinlined.tail ((inlining_next htier).symm ▸ hmem)⟩
          · exact absurd htier hdeferred
      | b =>
          refine Or.inr ⟨before.1, hwalk, htier, ?_, mem_sortedChildren_of_walked hchild, ?_⟩
          · rw [holder, htier, if_pos rfl, placeholder, htier]
            rfl
          · rw [walked, htier] at hchild
            exact of_decide_eq_true (List.mem_filter.mp hchild).2
      | c =>
          rw [walked, htier] at hchild
          cases hchild

theorem walked_inlined (h : p.tier x = .a) : p.walked x = p.sortedChildren x := by
  rw [walked, h]

theorem seen_of_occurs (hroot : p.tier root = .a) (h : p.Occurs root x) :
    (x, none) ∈ p.seen root := by
  rw [seen, Dag.mem_unfold]
  obtain ⟨child, hchild, hreach⟩ := h
  have hstep : ∀ {v w : ComponentId}, p.tier v = .a → w ∈ p.sortedChildren v →
      (w, none) ∈ p.visits.next (v, none) := by
    intro v w htier hw
    refine List.mem_map.mpr ⟨w, walked_inlined htier ▸ hw, ?_⟩
    rw [holder, htier, if_neg (by decide)]
  induction hreach with
  | refl => exact Relation.ReflTransGen.single (hstep hroot hchild)
  | @tail before after _ hedge ih =>
      by_cases htier : p.tier before = .a
      · rw [inlining_next htier] at hedge
        exact ih.tail (hstep htier hedge)
      · rw [inlining_next_deferred htier] at hedge
        cases hedge

theorem seen_of_held (hreach : p.walk.Reaches root x) (htier : p.tier x = .b)
    (hy : y ∈ p.sortedChildren x) (hdeferred : p.Deferred y) :
    (y, some (p.placeholder x)) ∈ p.seen root := by
  obtain ⟨u, hu⟩ := mem_seen.mpr hreach
  rw [seen, Dag.mem_unfold] at hu ⊢
  refine hu.tail (List.mem_map.mpr ⟨y, ?_, ?_⟩)
  · rw [walked, htier]
    exact List.mem_filter.mpr ⟨hy, decide_eq_true hdeferred⟩
  · rw [holder, htier, if_pos rfl, placeholder, htier]
    rfl

theorem eq_of_count_fst {α β : Type*} [DecidableEq α] {l : List (α × β)} {a : α} {u v : β}
    (h : (l.map Prod.fst).count a = 1) (hu : (a, u) ∈ l) (hv : (a, v) ∈ l) : u = v := by
  induction l with
  | nil => cases hu
  | cons e l ih =>
      have hmore : ∀ w, (a, w) ∈ l → 0 < (l.map Prod.fst).count a := fun w hw =>
        List.count_pos_iff.mpr (List.mem_map.mpr ⟨_, hw, rfl⟩)
      rw [List.map_cons, List.count_cons] at h
      rcases List.mem_cons.mp hu with rfl | hu'
      · rcases List.mem_cons.mp hv with hv' | hv'
        · cases hv'
          rfl
        · have hpos := hmore v hv'
          simp at h
          omega
      · have hpos := hmore u hu'
        rcases List.mem_cons.mp hv with rfl | hv'
        · simp at h
          omega
        · exact ih (by omega) hu' hv'

theorem seen_unique (h : p.walk.ways root x = 1) {v : Option String} (hu : (x, u) ∈ p.seen root)
    (hv : (x, v) ∈ p.seen root) : u = v := by
  refine eq_of_count_fst ?_ hu hv
  rw [map_fst_seen]
  exact h

theorem map_fst_filter_seen (tier : Tier) :
    ((p.seen root).filter fun visit => p.tier visit.1 = tier).map Prod.fst =
      (p.walk.unfold root).filter fun id => p.tier id = tier := by
  rw [← map_fst_seen, List.filter_map]
  rfl

variable (root) in
theorem deferredIds_eq (hfound : p.Found layouts) :
    ∃ found, found.Nodup ∧ (∀ y, y ∈ found ↔ p.Island layouts y) ∧
      (p.manifest root layouts).deferredIds =
        (((p.walk.unfold root).filter fun id => p.tier id = .b) ++
          (((p.walk.unfold root).filter fun id => p.tier id = .c) ++ found)).map p.placeholder := by
  obtain ⟨found, hnodup, hmem, hnodes, -⟩ := islands_eq root hfound
  refine ⟨found, hnodup, hmem, ?_⟩
  have hletter : ∀ (tier : Tier), ∀ id ∈ (p.walk.unfold root).filter (fun id => p.tier id = tier),
      p.placeholderId tier.letter id = p.placeholder id := by
    intro tier id hid
    rw [placeholder, of_decide_eq_true (List.mem_filter.mp hid).2]
  rw [RouteManifest.deferredIds, manifest_tierB, manifest_tierC, hnodes]
  simp only [List.map_append, List.map_map, Function.comp_def, tierBNode, tierCNode, buildTierBNode,
    buildTierCNode]
  congr 1
  · rw [← List.map_congr_left (hletter .b), ← map_fst_filter_seen, List.map_map]
    rfl
  · congr 1
    · rw [← List.map_congr_left (hletter .c), ← map_fst_filter_seen, List.map_map]
      rfl
    · refine List.map_congr_left fun y hy => ?_
      rw [placeholder, ((hmem y).mp hy).1]
      rfl

variable (root) in
theorem count_deferredIds (hfound : p.Found layouts) (hx : p.Deferred x) :
    (p.Island layouts x → (p.manifest root layouts).deferredIds.count (p.placeholder x) =
      p.walk.ways root x + 1) ∧
    (¬ p.Island layouts x → (p.manifest root layouts).deferredIds.count (p.placeholder x) =
      p.walk.ways root x) := by
  obtain ⟨found, hnodup, hmem, hids⟩ := deferredIds_eq root hfound
  have hways : ((p.walk.unfold root).filter fun id => p.tier id = .b).count x +
      ((p.walk.unfold root).filter fun id => p.tier id = .c).count x = p.walk.ways root x := by
    have hother : ∀ tier : Tier, p.tier x ≠ tier →
        ((p.walk.unfold root).filter fun id => p.tier id = tier).count x = 0 := by
      intro tier hne
      rw [List.count_eq_zero, List.mem_filter]
      exact fun h => hne (of_decide_eq_true h.2)
    have hsame : ∀ tier : Tier, p.tier x = tier →
        ((p.walk.unfold root).filter fun id => p.tier id = tier).count x = p.walk.ways root x :=
      fun tier heq => List.count_filter (decide_eq_true heq)
    cases htier : p.tier x with
    | a => exact absurd htier hx
    | b => rw [hsame .b htier, hother .c (by simp [htier]), Nat.add_zero]
    | c => rw [hsame .c htier, hother .b (by simp [htier]), Nat.zero_add]
  rw [hids, List.count_map_of_injective _ _ p.placeholder_injective, List.count_append,
    List.count_append]
  constructor
  · intro hisland
    rw [List.count_eq_one_of_mem hnodup ((hmem x).mpr hisland)]
    omega
  · intro hisland
    rw [List.count_eq_zero.mpr fun h => hisland ((hmem x).mp h)]
    omega

theorem mem_nodes (hfound : p.Found layouts) {node : String × Option String} :
    node ∈ (p.manifest root layouts).nodes ↔
      (p.tier root = .a ∧ node = (p.placeholder root, none)) ∨
      (∃ x u, (x, u) ∈ p.seen root ∧ p.Deferred x ∧ node = (p.placeholder x,
        anchoredParent (p.manifest root layouts).routeMap (p.name x) u)) ∨
      ∃ x, p.Island layouts x ∧ node = (p.placeholder x, some layoutIslandParent) := by
  obtain ⟨found, -, hmem, hnodes, -⟩ := islands_eq root hfound
  rw [RouteManifest.nodes, manifest_tierARoot, manifest_tierB, manifest_tierC, hnodes]
  simp only [List.mem_append, List.map_append, List.map_map]
  constructor
  · rintro (hroot | hb | hc | hisland)
    · split_ifs at hroot with htier
      · refine Or.inl ⟨htier, ?_⟩
        rw [List.mem_singleton.mp hroot, placeholder, htier]
        rfl
      · cases hroot
    · obtain ⟨visit, hvisit, rfl⟩ := List.mem_map.mp hb
      obtain ⟨hseen, htier⟩ := List.mem_filter.mp hvisit
      have htier : p.tier visit.1 = .b := of_decide_eq_true htier
      refine Or.inr (Or.inl ⟨visit.1, visit.2, hseen, by simp [Deferred, htier], ?_⟩)
      rw [placeholder, htier]
      rfl
    · obtain ⟨visit, hvisit, rfl⟩ := List.mem_map.mp hc
      obtain ⟨hseen, htier⟩ := List.mem_filter.mp hvisit
      have htier : p.tier visit.1 = .c := of_decide_eq_true htier
      refine Or.inr (Or.inl ⟨visit.1, visit.2, hseen, by simp [Deferred, htier], ?_⟩)
      rw [placeholder, htier]
      rfl
    · obtain ⟨y, hy, rfl⟩ := List.mem_map.mp hisland
      refine Or.inr (Or.inr ⟨y, (hmem y).mp hy, ?_⟩)
      rw [placeholder, ((hmem y).mp hy).1]
      rfl
  · rintro (⟨htier, rfl⟩ | ⟨x, u, hseen, hdeferred, rfl⟩ | ⟨x, hx, rfl⟩)
    · refine Or.inl ?_
      rw [if_pos htier, placeholder, htier]
      exact List.mem_singleton_self _
    · cases htier : p.tier x with
      | a => exact absurd htier hdeferred
      | b =>
          refine Or.inr (Or.inl (List.mem_map.mpr
            ⟨(x, u), List.mem_filter.mpr ⟨hseen, decide_eq_true htier⟩, ?_⟩))
          rw [placeholder, htier]
          rfl
      | c =>
          refine Or.inr (Or.inr (Or.inl (List.mem_map.mpr
            ⟨(x, u), List.mem_filter.mpr ⟨hseen, decide_eq_true htier⟩, ?_⟩)))
          rw [placeholder, htier]
          rfl
    · refine Or.inr (Or.inr (Or.inr (List.mem_map.mpr ⟨x, (hmem x).mpr hx, ?_⟩)))
      rw [placeholder, hx.1]
      rfl

variable (layouts) in
theorem mem_parents {s : String} :
    some s ∈ (p.manifest root layouts).tierB.map (fun parent => some parent.placeholderId) ↔
      ∃ b, p.walk.Reaches root b ∧ p.tier b = .b ∧ s = p.placeholder b := by
  rw [manifest_tierB, List.map_map]
  constructor
  · intro h
    obtain ⟨visit, hvisit, hs⟩ := List.mem_map.mp h
    obtain ⟨hseen, htier⟩ := List.mem_filter.mp hvisit
    have htier : p.tier visit.1 = .b := of_decide_eq_true htier
    refine ⟨visit.1, mem_seen.mp ⟨visit.2, hseen⟩, htier, ?_⟩
    rw [placeholder, htier]
    exact (Option.some.inj hs).symm
  · rintro ⟨b, hreach, htier, rfl⟩
    obtain ⟨u, hu⟩ := mem_seen.mpr hreach
    refine List.mem_map.mpr ⟨(b, u), List.mem_filter.mpr ⟨hu, decide_eq_true htier⟩, ?_⟩
    rw [placeholder, htier]
    rfl

/-! ### The holes -/

def heldHoles (p : Project) (map : InlineMap) (id : ComponentId) : List String :=
  p.staticHtml map id ++
    (p.collectTierAChildren map (p.placeholderId "b" id) (p.rank id + 1) id).flatMap
      RenderedNode.html

theorem holes_eq : (p.manifest root layouts).holes =
    (if p.tier root = .a then p.staticHtml (p.manifest root layouts).routeMap root else []) ++
      ((p.walk.unfold root).filter fun id => p.tier id = .b).flatMap
        (p.heldHoles (p.manifest root layouts).routeMap) ++
      (p.manifest root layouts).layoutHtml := by
  rw [RouteManifest.holes, manifest_tierARoot, manifest_tierB, ← map_fst_filter_seen]
  congr 1
  congr 1
  · split_ifs
    · simp [renderStatic]
    · rfl
  · rw [List.flatMap_map, List.flatMap_map]
    rfl

theorem count_le_flatMap {α β : Type*} [DecidableEq β] {l : List α} {f : α → List β} {a : α} {b : β}
    (h : a ∈ l) : (f a).count b ≤ (l.flatMap f).count b :=
  (List.sublist_flatten_of_mem (List.mem_map_of_mem h)).count_le b

variable (layouts) in
theorem count_heldHoles_le {b : ComponentId} (hreach : p.walk.Reaches root b) (htier : p.tier b = .b)
    (q : String) : (p.heldHoles (p.manifest root layouts).routeMap b).count q ≤
      (p.manifest root layouts).holes.count q := by
  have hmem : b ∈ (p.walk.unfold root).filter fun id => p.tier id = .b :=
    List.mem_filter.mpr ⟨Dag.mem_unfold _ |>.mpr hreach, decide_eq_true htier⟩
  have hle := count_le_flatMap (f := p.heldHoles (p.manifest root layouts).routeMap) (b := q) hmem
  rw [holes_eq, List.count_append, List.count_append]
  omega

theorem mem_staticHtml {map : InlineMap} {holder : ComponentId}
    (hinlined : ∀ c, p.Occurs holder c → p.tier c = .a → p.occurrence map c = .inlined)
    (hx : p.Occurs holder x) (hdeferred : p.Deferred x)
    (hsent : map (p.name x) = some q) : q ∈ p.staticHtml map holder := by
  rw [staticHtml_eq hinlined, List.mem_flatMap]
  refine ⟨x, List.mem_filter.mpr ⟨mem_tags.mpr hx, decide_eq_true hdeferred⟩, ?_⟩
  rw [sent, hsent]
  exact List.mem_singleton_self q

theorem staticHtml_map {map : InlineMap} {holder : ComponentId}
    (hinlined : ∀ c, p.Occurs holder c → p.tier c = .a → p.occurrence map c = .inlined)
    (hsent : ∀ c, p.Occurs holder c → p.Deferred c → map (p.name c) = some (p.placeholder c)) :
    p.staticHtml map holder = (p.places holder).map p.placeholder := by
  rw [staticHtml_eq hinlined, ← List.flatMap_singleton' ((p.places holder).map p.placeholder),
    List.flatMap_map]
  refine List.flatMap_congr fun c hc => ?_
  obtain ⟨htag, hdeferred⟩ := List.mem_filter.mp hc
  rw [sent, hsent c (mem_tags.mp htag) (of_decide_eq_true hdeferred)]
  rfl

theorem count_places (hx : p.Deferred x) (holder : ComponentId) :
    (p.places holder).count x = (p.tags holder).count x :=
  List.count_filter (decide_eq_true hx)

theorem count_tags_le (hroot : p.tier root = .a) : (p.tags root).count x ≤ p.walk.ways root x := by
  have hsub : ∀ id, (p.inlining.next id).Sublist (p.walk.next id) := by
    intro id
    cases htier : p.tier id with
    | a =>
        have hwalk : p.walk.next id = p.sortedChildren id := walked_inlined htier
        rw [inlining_next htier, hwalk]
    | b => simp [inlining, htier]
    | c => simp [inlining, htier]
  have hunfold := (Dag.unfold_sublist hsub root).count_le x
  rw [unfold_inlined hroot, List.count_cons] at hunfold
  unfold Dag.ways
  omega

end Project

end Albedo.Manifest
