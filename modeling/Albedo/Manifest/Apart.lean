import Albedo.Manifest.Holes

/-!
# The conditions are enough

Where there is one way to each deferred component, and names and slots do not interfere, each has
one node and that node one hole.
-/
namespace Albedo.Manifest.Project

open Walks

variable {p : Project} {root : ComponentId} {layouts : List ComponentId} {x y : ComponentId}
  {u : Option String}

theorem occurs_of_inlined (hreach : p.walk.Reaches root x) (htier : p.tier x = .a) :
    p.tier root = .a ∧ (x = root ∨ p.Occurs root x) := by
  obtain ⟨u, hu⟩ := mem_seen.mpr hreach
  rcases seen_parent hu with ⟨-, rfl | ⟨hroot, hoccurs⟩⟩ | ⟨b, -, -, -, -, hdeferred⟩
  · exact ⟨htier, Or.inl rfl⟩
  · exact ⟨hroot, Or.inr hoccurs⟩
  · exact absurd htier hdeferred

namespace Apart

variable {holder child : ComponentId} (h : Apart p root layouts)

include h

/-! ### Ways -/

theorem ways_eq_one (hx : p.Deferred x) (hreach : p.walk.Reaches root x) :
    p.walk.ways root x = 1 ∧ ¬ p.Island layouts x := by
  refine (h.once x ⟨hx, Or.inl (reaching_of_walk hreach)⟩).resolve_right fun hnone => ?_
  exact (Dag.ways_eq_zero _).mp hnone.1 hreach

theorem not_reaches_of_island (hx : p.Island layouts x) : ¬ p.walk.Reaches root x := fun hreach =>
  (h.ways_eq_one (by simp [Deferred, hx.1]) hreach).2 hx

theorem seen_unique (hx : p.Deferred x) {v : Option String} (hu : (x, u) ∈ p.seen root)
    (hv : (x, v) ∈ p.seen root) : u = v :=
  Project.seen_unique (h.ways_eq_one hx (mem_seen.mp ⟨u, hu⟩)).1 hu hv

theorem walked_or_held (hreach : p.reaching.Reaches root x) :
    p.walk.Reaches root x ∨
      ∃ b, p.walk.Reaches root b ∧ p.tier b = .b ∧ x ∈ p.sortedChildren b ∧ p.tier x = .a := by
  induction hreach with
  | refl => exact Or.inl Relation.ReflTransGen.refl
  | @tail before after _ hedge ih =>
      have hmem := mem_sortedChildren_of_reaching hedge
      rcases ih with hwalk | ⟨b, hb, htier, hheld, hinlined⟩
      · cases htier : p.tier before with
        | a =>
            have hwalked : p.walk.next before = p.sortedChildren before := walked_inlined htier
            exact Or.inl (hwalk.tail (hwalked ▸ hmem))
        | b =>
            by_cases hafter : p.tier after = .a
            · exact Or.inr ⟨before, hwalk, htier, hmem, hafter⟩
            · have hwalked : p.walk.next before = (p.sortedChildren before).filter p.Deferred := by
                simp only [walk, walked, htier]
              refine Or.inl (hwalk.tail ?_)
              rw [hwalked]
              exact List.mem_filter.mpr ⟨hmem, decide_eq_true hafter⟩
        | c =>
            unfold Project.reaching at hedge
            dsimp only at hedge
            rw [if_pos htier] at hedge
            cases hedge
      · rw [h.bare b hb htier before hheld hinlined] at hmem
        cases hmem

/-! ### The maps -/

theorem routeMap_of_occurs (hroot : p.tier root ≠ .c) (hy : p.Occurs root y)
    (hdeferred : p.Deferred y) :
    (p.manifest root layouts).routeMap (p.name y) = some (p.placeholder y) := by
  obtain ⟨z, hz, hzd, hname, hsome⟩ := Project.routeMap_of_occurs layouts hy hdeferred
  obtain rfl := h.names y hdeferred (hy.reaching hroot) z hzd hz hname
  exact hsome

theorem routeMap_of_held (hholder : p.walk.Reaches root holder) (htier : p.tier holder = .b)
    (hchild : child ∈ p.sortedChildren holder) (hdeferred : p.Deferred child) :
    (p.manifest root layouts).routeMap (p.name child) = none := by
  have hseen := seen_of_held hholder htier hchild hdeferred
  cases hmap : (p.manifest root layouts).routeMap (p.name child) with
  | none => rfl
  | some q =>
      exfalso
      obtain ⟨y, hy, hyd, hname, -⟩ := routeMap_some hmap
      obtain rfl := h.names child hdeferred (reaching_of_walk (mem_seen.mp ⟨_, hseen⟩)) y hyd hy hname
      cases hroot : p.tier root with
      | a => cases h.seen_unique hdeferred hseen (seen_of_occurs hroot hy)
      | b =>
          obtain ⟨d, hd, hreach⟩ := hy
          have hinlined := h.rootHolds hroot d hd
          rcases Relation.ReflTransGen.cases_head hreach with rfl | ⟨first, hfirst, -⟩
          · exact hdeferred hinlined
          · rw [inlining_next hinlined,
              h.bare root Relation.ReflTransGen.refl hroot d hd hinlined] at hfirst
            cases hfirst
      | c =>
          rcases Relation.ReflTransGen.cases_head hholder with rfl | ⟨first, hfirst, -⟩
          · rw [hroot] at htier
            cases htier
          · have hwalked : first ∈ p.walked root := hfirst
            rw [walked, hroot] at hwalked
            cases hwalked

theorem layoutMap_of_occurs {layout : ComponentId} (hlayout : layout ∈ layouts)
    (hchild : p.Occurs layout child) (hdeferred : p.Deferred child) :
    (p.manifest root layouts).layoutMap (p.name child) = some (p.placeholder child) := by
  have hisland : p.Island layouts child := by
    refine ⟨?_, hchild.below hlayout⟩
    have hnot := h.layoutTier layout hlayout child hchild
    cases htier : p.tier child with
    | a => exact absurd htier hdeferred
    | b => exact absurd htier hnot
    | c => rfl
  obtain ⟨z, hz, hname, hsome⟩ := layoutMap_of_island root h.found hisland
  obtain rfl := h.layoutNames z child hz hisland hname
  exact hsome

/-! ### The holes -/

theorem inlined_of_occurs (hholder : p.reaching.Reaches root holder) (htier : p.tier holder ≠ .c)
    (hy : p.Occurs holder y) (hinlined : p.tier y = .a) :
    p.occurrence (p.manifest root layouts).routeMap y = .inlined := by
  obtain ⟨between, hbetween, hmem⟩ := hy.holder htier
  exact (occurrence_inlined_iff _ y).mpr
    (h.tierANames between (hholder.trans hbetween) y hmem hinlined)

theorem inlinedInLayout {layout : ComponentId} (hlayout : layout ∈ layouts)
    (hy : p.Occurs layout y) (hinlined : p.tier y = .a) :
    p.occurrence (p.manifest root layouts).layoutMap y = .inlined :=
  (occurrence_inlined_iff _ y).mpr (h.tierANamesInLayout layout hlayout y hy hinlined)

theorem heldHoles_eq (hx : p.walk.Reaches root x) (htier : p.tier x = .b) :
    p.heldHoles (p.manifest root layouts).routeMap x = [] := by
  have hdirect : ∀ y, p.Occurs x y → y ∈ p.sortedChildren x := by
    rintro y ⟨d, hd, hreach⟩
    rcases Relation.ReflTransGen.cases_head hreach with rfl | ⟨first, hfirst, -⟩
    · exact hd
    · exfalso
      unfold inlining at hfirst
      dsimp only at hfirst
      split_ifs at hfirst with hinlined
      · rw [h.bare x hx htier d hd hinlined] at hfirst
        cases hfirst
      · cases hfirst
  have hown : p.staticHtml (p.manifest root layouts).routeMap x = [] := by
    rw [staticHtml_eq fun y hy => h.inlined_of_occurs (reaching_of_walk hx) (by simp [htier]) hy,
      List.flatMap_eq_nil_iff]
    intro y hy
    obtain ⟨htag, hdeferred⟩ := List.mem_filter.mp hy
    rw [sent, h.routeMap_of_held hx htier (hdirect y (mem_tags.mp htag))
      (of_decide_eq_true hdeferred)]
    rfl
  rw [heldHoles, hown, List.nil_append, collectTierAChildren_eq (Nat.lt_succ_self _),
    List.flatMap_map, List.flatMap_eq_nil_iff]
  intro y hy
  obtain ⟨child, hchild, hreach⟩ := List.mem_flatMap.mp hy
  obtain ⟨hmem, hinlined⟩ := List.mem_filter.mp hchild
  have hbare := h.bare x hx htier child hmem (of_decide_eq_true hinlined)
  have hself : y = child := by
    rw [Dag.unfold_eq, holding] at hreach
    simpa [hbare] using hreach
  rw [hself, renderStatic, staticHtml, renderHoles, hbare]
  rfl

theorem count_holes (hx : p.Deferred x) :
    (p.manifest root layouts).holes.count (p.placeholder x) =
      (if p.tier root = .a then (p.tags root).count x else 0) +
        (layouts.flatMap p.tags).count x := by
  have hheld : ((p.walk.unfold root).filter fun id => p.tier id = .b).flatMap
      (p.heldHoles (p.manifest root layouts).routeMap) = [] := by
    rw [List.flatMap_eq_nil_iff]
    intro b hb
    obtain ⟨hreach, htier⟩ := List.mem_filter.mp hb
    exact h.heldHoles_eq (Dag.mem_unfold _ |>.mp hreach) (of_decide_eq_true htier)
  rw [holes_eq, hheld, List.append_nil, List.count_append, count_layoutHtml h.found hx
    (fun _ hlayout _ hc => h.inlinedInLayout hlayout hc)
    (fun _ hlayout _ hc => h.layoutMap_of_occurs hlayout hc)]
  congr 1
  split_ifs with hroot
  · have hnot : p.tier root ≠ .c := by simp [hroot]
    rw [staticHtml_map (fun c hc => h.inlined_of_occurs Relation.ReflTransGen.refl hnot hc)
      (fun c hc => h.routeMap_of_occurs hnot hc),
      List.count_map_of_injective _ _ p.placeholder_injective, count_places hx]
  · rfl

theorem island_of_tag (hx : p.Deferred x) (hmem : x ∈ layouts.flatMap p.tags) :
    p.Island layouts x := by
  obtain ⟨layout, hlayout, htag⟩ := List.mem_flatMap.mp hmem
  have hoccurs := mem_tags.mp htag
  refine ⟨?_, hoccurs.below hlayout⟩
  have hnot := h.layoutTier layout hlayout x hoccurs
  cases htier : p.tier x with
  | a => exact absurd htier hx
  | b => exact absurd htier hnot
  | c => rfl

/-! ### The claims -/

theorem listed (hx : p.Required root layouts x) :
    (p.manifest root layouts).deferredIds.count (p.placeholder x) = 1 := by
  obtain ⟨hisland, hother⟩ := count_deferredIds root h.found hx.1
  rcases h.once x hx with ⟨hways, hnot⟩ | ⟨hways, hin⟩
  · rw [hother hnot, hways]
  · rw [hisland hin, hways]

theorem count_le_one (hx : p.Deferred x) :
    (p.manifest root layouts).deferredIds.count (p.placeholder x) ≤ 1 := by
  obtain ⟨hisland, hother⟩ := count_deferredIds root h.found hx
  by_cases hin : p.Island layouts x
  · have hways := (Dag.ways_eq_zero _).mpr (h.not_reaches_of_island hin)
    rw [hisland hin, hways]
  · rw [hother hin]
    by_cases hreach : p.walk.Reaches root x
    · rw [(h.ways_eq_one hx hreach).1]
    · rw [(Dag.ways_eq_zero _).mpr hreach]
      exact Nat.zero_le 1

theorem distinct : ((p.manifest root layouts).nodes.map Prod.fst).Nodup := by
  obtain ⟨found, -, hmem, hids⟩ := deferredIds_eq root h.found
  have hdeferred : ∀ q ∈ (p.manifest root layouts).deferredIds,
      ∃ x, p.Deferred x ∧ q = p.placeholder x := by
    intro q hq
    rw [hids] at hq
    obtain ⟨x, hx, rfl⟩ := List.mem_map.mp hq
    refine ⟨x, ?_, rfl⟩
    simp only [List.mem_append, List.mem_filter, decide_eq_true_eq, hmem] at hx
    rcases hx with ⟨-, htier⟩ | ⟨-, htier⟩ | hisland
    · simp [Deferred, htier]
    · simp [Deferred, htier]
    · simp [Deferred, hisland.1]
  have hnodup : (p.manifest root layouts).deferredIds.Nodup := by
    rw [List.nodup_iff_count_le_one]
    intro q
    by_cases hq : q ∈ (p.manifest root layouts).deferredIds
    · obtain ⟨x, hx, rfl⟩ := hdeferred q hq
      exact h.count_le_one hx
    · rw [List.count_eq_zero.mpr hq]
      exact Nat.zero_le 1
  rw [nodes_ids]
  split_ifs with hroot
  · refine List.nodup_cons.mpr ⟨fun hmem => ?_, hnodup⟩
    obtain ⟨x, hx, hid⟩ := hdeferred _ hmem
    rw [← p.placeholder_injective hid] at hx
    exact hx hroot
  · exact hnodup

theorem anchored_seen (hseen : (x, u) ∈ p.seen root) (hx : p.Deferred x) :
    (if anchoredParent (p.manifest root layouts).routeMap (p.name x) u = none then 1 else 0) +
      (p.manifest root layouts).holes.count (p.placeholder x) +
      (if anchoredParent (p.manifest root layouts).routeMap (p.name x) u ∈
          (p.manifest root layouts).tierB.map (fun parent => some parent.placeholderId)
        then 1 else 0) = 1 := by
  have hreach := mem_seen.mp ⟨u, hseen⟩
  have hnoLayout : (layouts.flatMap p.tags).count x = 0 :=
    List.count_eq_zero.mpr fun hmem =>
      (h.ways_eq_one hx hreach).2 (h.island_of_tag hx hmem)
  rw [h.count_holes hx, hnoLayout]
  rcases seen_parent hseen with ⟨rfl, hwhere⟩ | ⟨b, hb, htier, rfl, -, -⟩
  · rcases hwhere with rfl | ⟨hroot, hoccurs⟩
    · have hmap : (p.manifest x layouts).routeMap (p.name x) = none := by
        cases hmap : (p.manifest x layouts).routeMap (p.name x) with
        | none => rfl
        | some q =>
            obtain ⟨y, hy, hyd, hname, -⟩ := routeMap_some hmap
            have hself := h.names x hx Relation.ReflTransGen.refl y hyd hy hname
            exact absurd hy.rank_lt (by rw [hself]; exact Nat.lt_irrefl _)
      have hparent : anchoredParent (p.manifest x layouts).routeMap (p.name x) none = none := by
        rw [anchoredParent, hmap]
        rfl
      have hnot : (none : Option String) ∉
          (p.manifest x layouts).tierB.map fun parent => some parent.placeholderId := by simp
      rw [hparent, if_pos rfl, if_neg hx, if_neg hnot]
    · have hmap := h.routeMap_of_occurs (by simp [hroot]) hoccurs hx
      have hparent : anchoredParent (p.manifest root layouts).routeMap (p.name x) none =
          some routeIslandParent := by
        rw [anchoredParent, hmap]
        rfl
      have hle := count_tags_le (x := x) hroot
      rw [(h.ways_eq_one hx hreach).1] at hle
      have hpos : 0 < (p.tags root).count x := List.count_pos_iff.mpr (mem_tags.mpr hoccurs)
      rw [hparent, if_neg (by simp), if_pos hroot, if_neg (not_parent_of_getLast (by decide))]
      omega
  · have hparent : anchoredParent (p.manifest root layouts).routeMap (p.name x)
        (some (p.placeholder b)) = some (p.placeholder b) := if_neg (by simp)
    have hnoRoot : (if p.tier root = .a then (p.tags root).count x else 0) = 0 := by
      split_ifs with hroot
      · rw [List.count_eq_zero]
        intro hmem
        cases h.seen_unique hx hseen (seen_of_occurs hroot (mem_tags.mp hmem))
      · rfl
    rw [hparent, if_neg (by simp), hnoRoot, if_pos ((mem_parents layouts).mpr ⟨b, hb, htier, rfl⟩)]

theorem count_holes_island (hx : p.Island layouts x) :
    (p.manifest root layouts).holes.count (p.placeholder x) = 1 := by
  have hdeferred : p.Deferred x := by simp [Deferred, hx.1]
  rw [h.count_holes hdeferred, h.layoutOnce x hx]
  split_ifs with hroot
  · have hnone : (p.tags root).count x = 0 := by
      rw [List.count_eq_zero]
      intro hmem
      exact h.not_reaches_of_island hx
        (mem_seen.mp ⟨none, seen_of_occurs hroot (mem_tags.mp hmem)⟩)
    rw [hnone]
  · rfl

theorem count_holes_inlined (hx : p.tier x = .a) :
    (p.manifest root layouts).holes.count (p.placeholder x) = 0 := by
  rw [List.count_eq_zero]
  intro hmem
  rcases mem_holes h.found hmem with ⟨name, hmap⟩ | ⟨name, hmap⟩
  · obtain ⟨y, -, hy, -, hid⟩ := routeMap_some hmap
    rw [p.placeholder_injective hid] at hy
    exact hy hx
  · obtain ⟨y, hy, -, hid⟩ := layoutMap_some h.found hmap
    have htier := hy.1
    rw [p.placeholder_injective hid, hx] at htier
    cases htier

theorem anchored {node : String × Option String}
    (hnode : node ∈ (p.manifest root layouts).nodes) :
    (p.manifest root layouts).anchors node = 1 := by
  rw [RouteManifest.anchors, count_shell h.distinct hnode]
  rcases (mem_nodes h.found).mp hnode with ⟨hroot, rfl⟩ | ⟨x, u, hseen, hx, rfl⟩ | ⟨x, hx, rfl⟩
  · have hnot : (none : Option String) ∉
        (p.manifest root layouts).tierB.map fun parent => some parent.placeholderId := by simp
    rw [if_pos rfl, h.count_holes_inlined hroot, if_neg hnot]
  · exact h.anchored_seen hseen hx
  · rw [if_neg (by simp), h.count_holes_island hx,
      if_neg (not_parent_of_getLast (by decide))]

theorem sent (hholder : p.reaching.Reaches root holder) (hchild : child ∈ p.reaching.next holder)
    (hdeferred : p.Deferred child) :
    p.occurrence (p.manifest root layouts).routeMap child = .hole (p.placeholder child) ∨
      p.occurrence (p.manifest root layouts).routeMap child = .nothing ∧
        (p.placeholder child, some (p.placeholder holder)) ∈ (p.manifest root layouts).nodes := by
  have hmem := mem_sortedChildren_of_reaching hchild
  have hid := p.sortedChildren_registered hmem
  rcases h.walked_or_held hholder with hwalk | ⟨b, hb, htierB, hheld, hinlined⟩
  · cases htier : p.tier holder with
    | a =>
        obtain ⟨hroot, hwhere⟩ := occurs_of_inlined hwalk htier
        have hoccurs : p.Occurs root child := by
          rcases hwhere with rfl | ⟨d, hd, hreach⟩
          · exact ⟨child, hmem, Relation.ReflTransGen.refl⟩
          · exact ⟨d, hd, hreach.tail ((inlining_next htier).symm ▸ hmem)⟩
        exact Or.inl ((occurrence_hole_iff hid hdeferred).mpr
          (h.routeMap_of_occurs (by simp [hroot]) hoccurs hdeferred))
    | b =>
        refine Or.inr ⟨?_, (mem_nodes h.found).mpr (Or.inr (Or.inl
          ⟨child, _, seen_of_held hwalk htier hmem hdeferred, hdeferred, rfl⟩))⟩
        rw [occurrence_deferred hid hdeferred, h.routeMap_of_held hwalk htier hmem hdeferred]
        rfl
    | c =>
        unfold reaching at hchild
        dsimp only at hchild
        rw [if_pos htier] at hchild
        cases hchild
  · rw [h.bare b hb htierB holder hheld hinlined] at hmem
    cases hmem

theorem slots {node : TierBNode} (hnode : node ∈ (p.manifest root layouts).tierB)
    (hid : node.placeholderId = p.placeholder x) :
    node.tierAChildren.map RenderedNode.placeholderId =
      (p.holding.next x).map p.placeholder := by
  rw [manifest_tierB] at hnode
  obtain ⟨visit, hvisit, rfl⟩ := List.mem_map.mp hnode
  obtain ⟨hseen, htier⟩ := List.mem_filter.mp hvisit
  obtain rfl : visit.1 = x := placeholderId_inj hid
  refine (slots_eq_iff _ visit.1 visit.2).mpr fun child hchild => ?_
  obtain ⟨hmem, hinlined⟩ := List.mem_filter.mp hchild
  have hbare := h.bare visit.1 (mem_seen.mp ⟨visit.2, hseen⟩) (of_decide_eq_true htier) child hmem
    (of_decide_eq_true hinlined)
  simp [holding, hbare]

theorem oneNodeOneHole : OneNodeOneHole p root layouts where
  listed _ hx := h.listed hx
  distinct := h.distinct
  anchored _ hnode := h.anchored hnode
  sent _ hholder _ hchild hdeferred := h.sent hholder hchild hdeferred
  sentInLayout _ hlayout _ hchild hdeferred :=
    (occurrence_hole_iff hchild.registered hdeferred).mpr
      (h.layoutMap_of_occurs hlayout hchild hdeferred)
  inlined holder hholder child hchild htier :=
    (occurrence_inlined_iff _ child).mpr (h.tierANames holder hholder child hchild htier)
  inlinedInLayout _ hlayout _ hchild htier := h.inlinedInLayout hlayout hchild htier
  found := h.found
  rootSlot := by
    rw [manifest_tierARoot]
    split_ifs with hroot
    · simp [renderStatic, placeholder, hroot, Tier.letter]
    · rfl
  slots _ _ hnode hid := h.slots hnode hid

end Apart

/-- Every deferred component of a route has one node and one hole exactly where there is one way to
each, what a slot holds is bare, and no name stands for two. -/
theorem one_node_one_hole_iff (p : Project) (root : ComponentId) (layouts : List ComponentId) :
    OneNodeOneHole p root layouts ↔ Apart p root layouts :=
  ⟨fun h => h.apart, fun h => h.oneNodeOneHole⟩

/-! ### Two panels that show one counter -/

/-- A page (0), two Tier-A panels (1, 2) and a Tier-C counter (3) that both show. -/
def panels : Project where
  ids := [0, 1, 2, 3]
  name id := if id = 0 then "Page" else if id = 1 then "Left" else if id = 2 then "Right"
    else "Counter"
  tier id := if id = 3 then .c else .a
  isModuleOnly _ := false
  dependencies id := if id = 0 then [1, 2] else if id = 1 ∨ id = 2 then [3] else []
  registered id child h := by
    split_ifs at h <;> simp at h <;> simp [h]
    rcases h with rfl | rfl <;> simp
  rank id := if id = 0 then 2 else if id = 1 ∨ id = 2 then 1 else 0
  acyclic id child h := by
    split_ifs at h <;> simp at h
    · rcases h with rfl | rfl <;> simp [*]
    · subst h
      simp [*]

/-- The counter gets two nodes of one id, and hydrates twice. -/
theorem shared_counter_has_two_nodes :
    (panels.manifest 0 []).deferredIds = ["__c_counter_3", "__c_counter_3"] ∧
      ¬ OneNodeOneHole panels 0 [] := by
  have hids : (panels.manifest 0 []).deferredIds = ["__c_counter_3", "__c_counter_3"] := by
    decide +kernel
  refine ⟨hids, fun h => ?_⟩
  have hdistinct := h.distinct
  rw [nodes_ids, hids] at hdistinct
  exact absurd hdistinct (by decide +kernel)

end Albedo.Manifest.Project
