import Albedo.Manifest.Nodes

/-!
# One node and one hole

When each deferred component of a route has one node, and that node one hole. It takes more than an
acyclic graph: the walk from the root keeps no account of where it has been, and the maps go by
name.
-/
namespace Albedo.Manifest.Project

open Walks

variable {p : Project} {root : ComponentId} {layouts : List ComponentId} {x y : ComponentId}

/-- The deferred components of a route: those reached from its root or a layout without passing
below a Tier-C component. -/
def Required (p : Project) (root : ComponentId) (layouts : List ComponentId) (id : ComponentId) :
    Prop :=
  p.Deferred id ∧ (p.reaching.Reaches root id ∨ ∃ layout ∈ layouts, p.reaching.Reaches layout id)

structure OneNodeOneHole (p : Project) (root : ComponentId) (layouts : List ComponentId) :
    Prop where
  listed : ∀ x, p.Required root layouts x →
    (p.manifest root layouts).deferredIds.count (p.placeholder x) = 1
  distinct : ((p.manifest root layouts).nodes.map Prod.fst).Nodup
  anchored : ∀ node ∈ (p.manifest root layouts).nodes, (p.manifest root layouts).anchors node = 1
  /-- A tag leaves the hole of its own component, unless that component's node hangs below the
  node of the markup the tag is in. -/
  sent : ∀ holder, p.reaching.Reaches root holder → ∀ child ∈ p.reaching.next holder,
    p.Deferred child →
      p.occurrence (p.manifest root layouts).routeMap child = .hole (p.placeholder child) ∨
      p.occurrence (p.manifest root layouts).routeMap child = .nothing ∧
        (p.placeholder child, some (p.placeholder holder)) ∈ (p.manifest root layouts).nodes
  sentInLayout : ∀ layout ∈ layouts, ∀ child, p.Occurs layout child → p.Deferred child →
    p.occurrence (p.manifest root layouts).layoutMap child = .hole (p.placeholder child)
  inlined : ∀ holder, p.reaching.Reaches root holder → ∀ child ∈ p.reaching.next holder,
    p.tier child = .a → p.occurrence (p.manifest root layouts).routeMap child = .inlined
  inlinedInLayout : ∀ layout ∈ layouts, ∀ child, p.Occurs layout child → p.tier child = .a →
    p.occurrence (p.manifest root layouts).layoutMap child = .inlined
  /-- The markup of each layout is that layout's. -/
  found : p.Found layouts
  rootSlot : (p.manifest root layouts).tierARoot.map RenderedNode.placeholderId =
    if p.tier root = .a then [p.placeholder root] else []
  /-- The slots of a Tier-B component are the Tier-A components it holds itself. -/
  slots : ∀ x, ∀ node ∈ (p.manifest root layouts).tierB, node.placeholderId = p.placeholder x →
    node.tierAChildren.map RenderedNode.placeholderId =
      (p.holding.next x).map p.placeholder

/-- When it does. -/
structure Apart (p : Project) (root : ComponentId) (layouts : List ComponentId) : Prop where
  found : p.Found layouts
  /-- There is one way to each deferred component, by the walk from the root or as an island. -/
  once : ∀ x, p.Required root layouts x →
    (p.walk.ways root x = 1 ∧ ¬ p.Island layouts x) ∨
      (p.walk.ways root x = 0 ∧ p.Island layouts x)
  /-- A Tier-B root holds nothing deferred. -/
  rootHolds : p.tier root = .b → ∀ child ∈ p.sortedChildren root, p.tier child = .a
  /-- What is in a slot holds nothing. -/
  bare : ∀ x, p.walk.Reaches root x → p.tier x = .b → ∀ child ∈ p.sortedChildren x,
    p.tier child = .a → p.sortedChildren child = []
  names : ∀ x, p.Deferred x → p.reaching.Reaches root x → ∀ y, p.Deferred y → p.Occurs root y →
    p.name y = p.name x → y = x
  layoutTier : ∀ layout ∈ layouts, ∀ child, p.Occurs layout child → p.tier child ≠ .b
  layoutNames : ∀ x y, p.Island layouts x → p.Island layouts y → p.name x = p.name y → x = y
  layoutOnce : ∀ x, p.Island layouts x → (layouts.flatMap p.tags).count x = 1
  tierANames : ∀ holder, p.reaching.Reaches root holder → ∀ child ∈ p.reaching.next holder,
    p.tier child = .a → p.name child ∉ p.deferredComponentNames
  tierANamesInLayout : ∀ layout ∈ layouts, ∀ child, p.Occurs layout child → p.tier child = .a →
    p.name child ∉ p.deferredComponentNames

/-! ### Reaching and occurring -/

theorem occurrence_inlined_iff (map : InlineMap) (id : ComponentId) :
    p.occurrence map id = .inlined ↔ p.name id ∉ p.deferredComponentNames := by
  unfold occurrence
  split_ifs with h
  · cases map (p.name id) <;> simp [h]
  · simp [h]

theorem occurrence_hole_iff {map : InlineMap} (hid : x ∈ p.ids) (hx : p.Deferred x) {q : String} :
    p.occurrence map x = .hole q ↔ map (p.name x) = some q := by
  rw [occurrence_deferred hid hx]
  cases map (p.name x) <;> simp

theorem reaching_next (h : p.tier x ≠ .c) : p.reaching.next x = p.sortedChildren x := if_neg h

theorem mem_sortedChildren_of_reaching (h : y ∈ p.reaching.next x) : y ∈ p.sortedChildren x := by
  unfold reaching at h
  dsimp only at h
  split_ifs at h
  · cases h
  · exact h

theorem reaching_of_walk (h : p.walk.Reaches x y) : p.reaching.Reaches x y := by
  refine h.mono fun a b hedge => ?_
  have hmem := mem_sortedChildren_of_walked hedge
  by_cases htier : p.tier a = .c
  · have hnone : b ∈ p.walked a := hedge
    rw [walked, htier] at hnone
    cases hnone
  · rw [reaching_next htier]
    exact hmem

theorem reaching_of_inlining (h : p.inlining.Reaches x y) : p.reaching.Reaches x y := by
  refine h.mono fun a b hedge => ?_
  unfold inlining at hedge
  dsimp only at hedge
  split_ifs at hedge with htier
  · rw [reaching_next (by simp [htier])]
    exact hedge
  · cases hedge

theorem Occurs.holder (h : p.Occurs x y) (hx : p.tier x ≠ .c) :
    ∃ holder, p.reaching.Reaches x holder ∧ y ∈ p.reaching.next holder := by
  obtain ⟨child, hchild, hreach⟩ := h
  have hstep : child ∈ p.reaching.next x := by rwa [reaching_next hx]
  rcases Relation.ReflTransGen.cases_tail hreach with rfl | ⟨before, hbefore, hedge⟩
  · exact ⟨x, Relation.ReflTransGen.refl, hstep⟩
  · refine ⟨before, (Relation.ReflTransGen.single hstep).trans (reaching_of_inlining hbefore), ?_⟩
    unfold inlining at hedge
    dsimp only at hedge
    split_ifs at hedge with htier
    · rwa [reaching_next (by simp [htier])]
    · cases hedge

theorem Occurs.reaching (h : p.Occurs x y) (hx : p.tier x ≠ .c) : p.reaching.Reaches x y := by
  obtain ⟨holder, hreach, hmem⟩ := h.holder hx
  exact hreach.tail hmem

theorem Occurs.below {layout : ComponentId} (hlayout : layout ∈ layouts) (h : p.Occurs layout y) :
    p.BelowLayouts layouts y := by
  obtain ⟨child, hchild, hreach⟩ := h
  exact ⟨layout, hlayout, child, hchild, reaching_of_inlining hreach⟩

theorem occurs_of_below {layout child : ComponentId}
    (htier : ∀ c, p.Occurs layout c → p.tier c ≠ .b) (hchild : child ∈ p.sortedChildren layout)
    (h : p.reaching.Reaches child y) : p.Occurs layout y := by
  induction h with
  | refl => exact ⟨child, hchild, Relation.ReflTransGen.refl⟩
  | @tail before after _ hedge ih =>
      have hmem := mem_sortedChildren_of_reaching hedge
      cases hbefore : p.tier before with
      | a =>
          obtain ⟨d, hd, hreach⟩ := ih
          exact ⟨d, hd, hreach.tail ((inlining_next hbefore).symm ▸ hmem)⟩
      | b => exact absurd hbefore (htier before ih)
      | c =>
          unfold Project.reaching at hedge
          dsimp only at hedge
          rw [if_pos hbefore] at hedge
          cases hedge

/-! ### What a manifest shows -/

theorem mem_renderHoles {map : InlineMap} {fuel : ℕ} {id : ComponentId} {q : String}
    (h : q ∈ p.renderHoles map fuel id) : ∃ name, map name = some q := by
  induction fuel generalizing id with
  | zero => cases h
  | succ fuel ih =>
      obtain ⟨child, -, hq⟩ := List.mem_flatMap.mp h
      unfold occurrence at hq
      split_ifs at hq
      · cases hsome : map (p.name child) with
        | none =>
            rw [hsome] at hq
            cases hq
        | some q' =>
            rw [hsome] at hq
            obtain rfl := List.mem_singleton.mp hq
            exact ⟨_, hsome⟩
      · exact ih hq

theorem mem_holes (hfound : p.Found layouts) {q : String}
    (h : q ∈ (p.manifest root layouts).holes) :
    (∃ name, (p.manifest root layouts).routeMap name = some q) ∨
      ∃ name, (p.manifest root layouts).layoutMap name = some q := by
  rw [holes_eq, List.mem_append, List.mem_append] at h
  rcases h with (hroot | hheld) | hlayout
  · split_ifs at hroot
    · exact Or.inl (mem_renderHoles hroot)
    · cases hroot
  · obtain ⟨b, -, hb⟩ := List.mem_flatMap.mp hheld
    rcases List.mem_append.mp hb with hown | hslots
    · exact Or.inl (mem_renderHoles hown)
    · rw [collectTierAChildren_eq (Nat.lt_succ_self _)] at hslots
      obtain ⟨node, hnode, hq⟩ := List.mem_flatMap.mp hslots
      obtain ⟨child, -, rfl⟩ := List.mem_map.mp hnode
      exact Or.inl (mem_renderHoles hq)
  · rw [layoutHtml_eq hfound] at hlayout
    obtain ⟨layout, -, hq⟩ := List.mem_flatMap.mp hlayout
    exact Or.inr (mem_renderHoles hq)

theorem count_layoutHtml (hfound : p.Found layouts) (hx : p.Deferred x)
    (hinlined : ∀ layout ∈ layouts, ∀ c, p.Occurs layout c → p.tier c = .a →
      p.occurrence (p.manifest root layouts).layoutMap c = .inlined)
    (hsent : ∀ layout ∈ layouts, ∀ c, p.Occurs layout c → p.Deferred c →
      (p.manifest root layouts).layoutMap (p.name c) = some (p.placeholder c)) :
    (p.manifest root layouts).layoutHtml.count (p.placeholder x) =
      (layouts.flatMap p.tags).count x := by
  have hhtml : (p.manifest root layouts).layoutHtml =
      (layouts.reverse.flatMap p.places).map p.placeholder := by
    rw [layoutHtml_eq hfound, List.map_flatMap]
    refine List.flatMap_congr fun layout hlayout => ?_
    have hmem := List.mem_reverse.mp hlayout
    exact staticHtml_map (hinlined layout hmem) (hsent layout hmem)
  have hplaces : ∀ ids : List ComponentId,
      (ids.flatMap p.places).count x = (ids.flatMap p.tags).count x := by
    intro ids
    rw [List.count_flatMap, List.count_flatMap]
    exact congrArg List.sum (List.map_congr_left fun id _ => count_places hx id)
  rw [hhtml, List.count_map_of_injective _ _ p.placeholder_injective, hplaces]
  exact (List.Perm.flatMap_right _ (List.reverse_perm layouts)).count_eq x

theorem count_shell (hdistinct : ((p.manifest root layouts).nodes.map Prod.fst).Nodup)
    {node : String × Option String} (hnode : node ∈ (p.manifest root layouts).nodes) :
    ((p.manifest root layouts).shell.map ShellPlaceholder.placeholderId).count node.1 =
      if node.2 = none then 1 else 0 := by
  rw [shell_ids]
  split_ifs with hnone
  · refine List.count_eq_one_of_mem (hdistinct.sublist (List.Sublist.map _ List.filter_sublist)) ?_
    exact List.mem_map_of_mem (List.mem_filter.mpr ⟨hnode, decide_eq_true hnone⟩)
  · rw [List.count_eq_zero]
    intro hmem
    obtain ⟨other, hother, hid⟩ := List.mem_map.mp hmem
    obtain ⟨hin, hparent⟩ := List.mem_filter.mp hother
    obtain rfl := List.inj_on_of_nodup_map hdistinct hin hnode hid
    exact hnone (of_decide_eq_true hparent)

theorem not_parent_of_getLast {s : String} (h : s.toList.getLast? = some '_') :
    some s ∉ (p.manifest root layouts).tierB.map fun parent => some parent.placeholderId := by
  rw [mem_parents layouts]
  rintro ⟨b, -, -, rfl⟩
  exact placeholderId_ne_of_getLast h rfl

theorem exists_node (hcount :
    (p.manifest root layouts).deferredIds.count (p.placeholder x) = 1) :
    ∃ u, (p.placeholder x, u) ∈ (p.manifest root layouts).nodes := by
  have hmem : p.placeholder x ∈ (p.manifest root layouts).nodes.map Prod.fst := by
    rw [nodes_ids]
    exact List.mem_append_right _ (List.count_pos_iff.mp (by omega))
  obtain ⟨node, hnode, hid⟩ := List.mem_map.mp hmem
  exact ⟨node.2, by rwa [← hid]⟩

/-! ### The conditions are needed -/

namespace OneNodeOneHole

variable {holder child : ComponentId} (h : OneNodeOneHole p root layouts)

include h

theorem once (hx : p.Required root layouts x) :
    (p.walk.ways root x = 1 ∧ ¬ p.Island layouts x) ∨
      (p.walk.ways root x = 0 ∧ p.Island layouts x) := by
  have hlisted := h.listed x hx
  obtain ⟨hisland, hother⟩ := count_deferredIds root h.found hx.1
  by_cases hin : p.Island layouts x
  · rw [hisland hin] at hlisted
    exact Or.inr ⟨by omega, hin⟩
  · rw [hother hin] at hlisted
    exact Or.inl ⟨hlisted, hin⟩

theorem routeMap_cases (hholder : p.reaching.Reaches root holder)
    (hchild : child ∈ p.reaching.next holder) (hdeferred : p.Deferred child) :
    (p.manifest root layouts).routeMap (p.name child) = some (p.placeholder child) ∨
      (p.manifest root layouts).routeMap (p.name child) = none ∧
        (p.placeholder child, some (p.placeholder holder)) ∈ (p.manifest root layouts).nodes := by
  have hid := p.sortedChildren_registered (mem_sortedChildren_of_reaching hchild)
  rcases h.sent holder hholder child hchild hdeferred with hhole | ⟨hnothing, hnode⟩
  · exact Or.inl ((occurrence_hole_iff hid hdeferred).mp hhole)
  · refine Or.inr ⟨?_, hnode⟩
    rw [occurrence_deferred hid hdeferred] at hnothing
    cases hmap : (p.manifest root layouts).routeMap (p.name child) with
    | none => rfl
    | some q =>
        rw [hmap] at hnothing
        cases hnothing

theorem routeMap_of_occurs (hroot : p.tier root ≠ .c) (hy : p.Occurs root y)
    (hdeferred : p.Deferred y) :
    (p.manifest root layouts).routeMap (p.name y) = some (p.placeholder y) := by
  obtain ⟨holder, hholder, hmem⟩ := hy.holder hroot
  rcases h.routeMap_cases hholder hmem hdeferred with hsome | ⟨hnone, -⟩
  · exact hsome
  · obtain ⟨z, -, -, -, hsome⟩ := Project.routeMap_of_occurs layouts hy hdeferred
    rw [hnone] at hsome
    cases hsome

theorem inlined_of_occurs (hholder : p.reaching.Reaches root holder) (htier : p.tier holder ≠ .c)
    (hy : p.Occurs holder y) (hinlined : p.tier y = .a) :
    p.occurrence (p.manifest root layouts).routeMap y = .inlined := by
  obtain ⟨between, hbetween, hmem⟩ := hy.holder htier
  exact h.inlined between (hholder.trans hbetween) y hmem hinlined

theorem hole_shown (hholder : p.walk.Reaches root holder) (htier : p.tier holder = .b)
    (hy : p.Occurs holder y) (hdeferred : p.Deferred y)
    (hmap : (p.manifest root layouts).routeMap (p.name y) = some (p.placeholder y)) :
    p.placeholder y ∈ p.staticHtml (p.manifest root layouts).routeMap holder :=
  mem_staticHtml (fun _ hc => h.inlined_of_occurs (reaching_of_walk hholder) (by simp [htier]) hc)
    hy hdeferred hmap

theorem anchors_eq {node : String × Option String}
    (hnode : node ∈ (p.manifest root layouts).nodes) :
    (if node.2 = none then 1 else 0) + (p.manifest root layouts).holes.count node.1 +
      (if node.2 ∈ (p.manifest root layouts).tierB.map (fun parent => some parent.placeholderId)
        then 1 else 0) = 1 := by
  rw [← count_shell h.distinct hnode]
  exact h.anchored node hnode

theorem count_holes_le (hx : p.Required root layouts x) :
    (p.manifest root layouts).holes.count (p.placeholder x) ≤ 1 := by
  obtain ⟨u, hnode⟩ := exists_node (h.listed x hx)
  have hanchors := h.anchors_eq hnode
  dsimp only at hanchors
  omega

theorem rootHolds (hroot : p.tier root = .b) (hchild : child ∈ p.sortedChildren root) :
    p.tier child = .a := by
  by_contra hdeferred
  have hoccurs : p.Occurs root child := ⟨child, hchild, Relation.ReflTransGen.refl⟩
  have hself : p.walk.Reaches root root := Relation.ReflTransGen.refl
  have hmap := h.routeMap_of_occurs (by simp [hroot]) hoccurs hdeferred
  have hshown := h.hole_shown hself hroot hoccurs hdeferred hmap
  have hnode : (p.placeholder child, some (p.placeholder root)) ∈
      (p.manifest root layouts).nodes :=
    (mem_nodes h.found).mpr (Or.inr (Or.inl
      ⟨child, _, seen_of_held hself hroot hchild hdeferred, hdeferred, rfl⟩))
  have hanchors := h.anchors_eq hnode
  have hparent := (mem_parents layouts).mpr ⟨root, hself, hroot, rfl⟩
  have hcount := count_heldHoles_le layouts hself hroot (p.placeholder child)
  have hpos := List.count_pos_iff.mpr hshown
  rw [heldHoles, List.count_append] at hcount
  dsimp only at hanchors
  rw [if_pos hparent] at hanchors
  omega

theorem bare (hx : p.walk.Reaches root x) (htier : p.tier x = .b)
    (hchild : child ∈ p.sortedChildren x) (hinlined : p.tier child = .a) :
    p.sortedChildren child = [] := by
  rw [List.eq_nil_iff_forall_not_mem]
  intro c hc
  have hheld : child ∈ p.holding.next x :=
    List.mem_filter.mpr ⟨hchild, decide_eq_true hinlined⟩
  have hreach := reaching_of_walk hx
  have hstep : child ∈ p.reaching.next x := by rwa [reaching_next (by simp [htier])]
  have hbelow : c ∈ p.reaching.next child := by rwa [reaching_next (by simp [hinlined])]
  by_cases hdeferred : p.Deferred c
  · -- the hole would be both in the component's own markup and in the slot's
    have hmap : (p.manifest root layouts).routeMap (p.name c) = some (p.placeholder c) := by
      refine (h.routeMap_cases (hreach.tail hstep) hbelow hdeferred).resolve_right fun hnode => ?_
      rcases (mem_nodes h.found).mp hnode.2 with ⟨-, heq⟩ | ⟨y, u, hseen, -, heq⟩ | ⟨y, -, heq⟩
      · cases congrArg Prod.snd heq
      · have hparent : some (p.placeholder child) =
            anchoredParent (p.manifest root layouts).routeMap (p.name y) u := congrArg Prod.snd heq
        unfold anchoredParent at hparent
        split_ifs at hparent
        · exact placeholderId_ne_of_getLast (by decide) (Option.some.inj hparent)
        · rcases seen_parent hseen with ⟨hnone, -⟩ | ⟨b, -, hb, hsome, -⟩
          · rw [hnone] at hparent
            cases hparent
          · rw [hsome] at hparent
            rw [p.placeholder_injective (Option.some.inj hparent), hb] at hinlined
            cases hinlined
      · exact placeholderId_ne_of_getLast (by decide) (Option.some.inj (congrArg Prod.snd heq))
    have hown := h.hole_shown hx htier
      ⟨child, hchild, Relation.ReflTransGen.single ((inlining_next hinlined).symm ▸ hc)⟩
      hdeferred hmap
    have hslot : p.placeholder c ∈ p.staticHtml (p.manifest root layouts).routeMap child :=
      mem_staticHtml (fun _ hy => h.inlined_of_occurs (hreach.tail hstep) (by simp [hinlined]) hy)
        ⟨c, hc, Relation.ReflTransGen.refl⟩ hdeferred hmap
    have hcount := count_heldHoles_le layouts hx htier (p.placeholder c)
    have hfirst := List.count_pos_iff.mpr hown
    have hsecond : 0 < ((p.collectTierAChildren (p.manifest root layouts).routeMap
        (p.placeholderId "b" x) (p.rank x + 1) x).flatMap RenderedNode.html).count
          (p.placeholder c) := by
      rw [List.count_pos_iff, collectTierAChildren_eq (Nat.lt_succ_self _), List.flatMap_map]
      refine List.mem_flatMap.mpr ⟨child, ?_, hslot⟩
      exact List.mem_flatMap.mpr ⟨child, hheld, Dag.mem_unfold _ |>.mpr Relation.ReflTransGen.refl⟩
    have hle := h.count_holes_le ⟨hdeferred, Or.inl ((hreach.tail hstep).tail hbelow)⟩
    rw [heldHoles, List.count_append] at hcount
    omega
  · have htierA : p.tier c = .a := not_not.mp hdeferred
    obtain ⟨u, hu⟩ := mem_seen.mpr hx
    have hnode : p.tierBNode (p.manifest root layouts).routeMap (x, u) ∈
        (p.manifest root layouts).tierB := by
      rw [manifest_tierB]
      exact List.mem_map_of_mem (List.mem_filter.mpr ⟨hu, decide_eq_true htier⟩)
    have hid : (p.tierBNode (p.manifest root layouts).routeMap (x, u)).placeholderId =
        p.placeholder x := by
      rw [placeholder, htier]
      rfl
    have hslots := (slots_eq_iff (p.manifest root layouts).routeMap x u).mp
      (h.slots x (p.tierBNode (p.manifest root layouts).routeMap (x, u)) hnode hid) child hheld
    have hmem : c ∈ p.holding.next child := List.mem_filter.mpr ⟨hc, decide_eq_true htierA⟩
    rw [hslots] at hmem
    cases hmem

theorem names (hx : p.Deferred x) (hreach : p.reaching.Reaches root x) (hy : p.Deferred y)
    (hoccurs : p.Occurs root y) (hname : p.name y = p.name x) : y = x := by
  rcases Relation.ReflTransGen.cases_tail hreach with rfl | ⟨holder, hholder, hmem⟩
  · -- the root itself would be kept out of the shell for a hole that is not its own
    exfalso
    obtain ⟨z, -, -, -, hsome⟩ := Project.routeMap_of_occurs layouts hoccurs hy
    have hseen : (x, none) ∈ p.seen x := Dag.mem_unfold _ |>.mpr Relation.ReflTransGen.refl
    have hparent : anchoredParent (p.manifest x layouts).routeMap (p.name x) none =
        some routeIslandParent := by
      rw [hname] at hsome
      rw [anchoredParent, hsome, if_pos ⟨rfl, rfl⟩]
    have hnode : (p.placeholder x, some routeIslandParent) ∈ (p.manifest x layouts).nodes :=
      (mem_nodes h.found).mpr (Or.inr (Or.inl ⟨x, none, hseen, hx, by rw [hparent]⟩))
    have hanchors := h.anchors_eq hnode
    dsimp only at hanchors
    rw [if_neg (by simp), if_neg (not_parent_of_getLast (by decide))] at hanchors
    have hhole : p.placeholder x ∈ (p.manifest x layouts).holes :=
      List.count_pos_iff.mp (by omega)
    rcases mem_holes h.found hhole with ⟨name, hmap⟩ | ⟨name, hmap⟩
    · obtain ⟨z, hz, -, -, hid⟩ := routeMap_some hmap
      obtain rfl := p.placeholder_injective hid
      exact absurd hz.rank_lt (Nat.lt_irrefl _)
    · obtain ⟨z, hz, -, hid⟩ := layoutMap_some h.found hmap
      obtain rfl := p.placeholder_injective hid
      rcases h.once ⟨hx, Or.inl Relation.ReflTransGen.refl⟩ with ⟨-, hisland⟩ | ⟨hways, -⟩
      · exact hisland hz
      · exact (Dag.ways_eq_zero _).mp hways Relation.ReflTransGen.refl
  · have hroot : p.tier root ≠ .c := by
      intro htier
      have hnone : p.reaching.next root = [] := if_pos htier
      rcases Relation.ReflTransGen.cases_head hholder with rfl | ⟨first, hfirst, -⟩
      · rw [hnone] at hmem
        cases hmem
      · rw [hnone] at hfirst
        cases hfirst
    have hsome := h.routeMap_of_occurs hroot hoccurs hy
    rw [hname] at hsome
    rcases h.routeMap_cases hholder hmem hx with hown | ⟨hnone, -⟩
    · rw [hown] at hsome
      exact (p.placeholder_injective (Option.some.inj hsome)).symm
    · rw [hnone] at hsome
      cases hsome

theorem layoutMap_of_occurs {layout : ComponentId} (hlayout : layout ∈ layouts)
    (hchild : p.Occurs layout child) (hdeferred : p.Deferred child) :
    (p.manifest root layouts).layoutMap (p.name child) = some (p.placeholder child) :=
  (occurrence_hole_iff hchild.registered hdeferred).mp
    (h.sentInLayout layout hlayout child hchild hdeferred)

theorem layoutTier {layout : ComponentId} (hlayout : layout ∈ layouts)
    (hchild : p.Occurs layout child) : p.tier child ≠ .b := by
  intro htier
  have hmap := h.layoutMap_of_occurs hlayout hchild (by simp [Deferred, htier])
  obtain ⟨y, hy, -, hid⟩ := layoutMap_some h.found hmap
  have htierC := hy.1
  rw [p.placeholder_injective hid, htier] at htierC
  cases htierC

theorem shown_of_island (hx : p.Island layouts x) :
    ∃ layout ∈ layouts, p.Occurs layout x := by
  obtain ⟨layout, hlayout, child, hchild, hreach⟩ := hx.2
  exact ⟨layout, hlayout,
    occurs_of_below (fun _ hc => h.layoutTier hlayout hc) hchild hreach⟩

theorem layoutNames (hx : p.Island layouts x) (hy : p.Island layouts y)
    (hname : p.name x = p.name y) : x = y := by
  obtain ⟨layout, hlayout, hoccurs⟩ := h.shown_of_island hx
  obtain ⟨layout', hlayout', hoccurs'⟩ := h.shown_of_island hy
  have hmap := h.layoutMap_of_occurs hlayout hoccurs (by simp [Deferred, hx.1])
  have hmap' := h.layoutMap_of_occurs hlayout' hoccurs' (by simp [Deferred, hy.1])
  rw [hname, hmap'] at hmap
  exact (p.placeholder_injective (Option.some.inj hmap)).symm

theorem layoutOnce (hx : p.Island layouts x) : (layouts.flatMap p.tags).count x = 1 := by
  have hdeferred : p.Deferred x := by simp [Deferred, hx.1]
  have hnode : (p.placeholder x, some layoutIslandParent) ∈ (p.manifest root layouts).nodes :=
    (mem_nodes h.found).mpr (Or.inr (Or.inr ⟨x, hx, rfl⟩))
  have hanchors := h.anchors_eq hnode
  dsimp only at hanchors
  rw [if_neg (by simp), if_neg (not_parent_of_getLast (by decide))] at hanchors
  have hcount := count_layoutHtml h.found hdeferred h.inlinedInLayout
    fun layout hlayout c hc hd => h.layoutMap_of_occurs hlayout hc hd
  have hsplit : (p.manifest root layouts).layoutHtml.count (p.placeholder x) ≤
      (p.manifest root layouts).holes.count (p.placeholder x) := by
    rw [holes_eq, List.count_append]
    omega
  obtain ⟨layout, hlayout, hoccurs⟩ := h.shown_of_island hx
  have hpos : 0 < (layouts.flatMap p.tags).count x :=
    List.count_pos_iff.mpr (List.mem_flatMap.mpr ⟨layout, hlayout, mem_tags.mpr hoccurs⟩)
  omega

theorem apart : Apart p root layouts where
  found := h.found
  once _ hx := h.once hx
  rootHolds hroot _ hchild := h.rootHolds hroot hchild
  bare _ hx htier _ hchild hinlined := h.bare hx htier hchild hinlined
  names _ hx hreach _ hy hoccurs hname := h.names hx hreach hy hoccurs hname
  layoutTier _ hlayout _ hchild := h.layoutTier hlayout hchild
  layoutNames _ _ hx hy hname := h.layoutNames hx hy hname
  layoutOnce _ hx := h.layoutOnce hx
  tierANames holder hholder child hchild htier :=
    (occurrence_inlined_iff _ child).mp (h.inlined holder hholder child hchild htier)
  tierANamesInLayout layout hlayout child hchild htier :=
    (occurrence_inlined_iff _ child).mp (h.inlinedInLayout layout hlayout child hchild htier)

end OneNodeOneHole

end Albedo.Manifest.Project
