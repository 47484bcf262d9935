import Albedo.Manifest.Visits
import Mathlib.Data.List.Induction

/-!
# What the maps and the slots hold

A map sends each name that was entered to the component entered last under it. The slots of a
Tier-B component are the Tier-A components below it, also those another of them holds.
-/
namespace Albedo.Manifest.Project

open Walks

variable {p : Project} {map : InlineMap} {root id x y : ComponentId} {name : String}
  {found layouts : List ComponentId}

/-! ### Slots -/

def holding (p : Project) : Dag ComponentId where
  next id := (p.sortedChildren id).filter fun child => p.tier child = .a
  rank := p.rank
  descends _ _ h := p.rank_sortedChildren (List.mem_of_mem_filter h)

theorem collectTierAChildren_eq {fuel : ℕ} (hfuel : p.rank root < fuel) (parent : String) :
    p.collectTierAChildren map parent fuel root =
      ((p.holding.next root).flatMap p.holding.unfold).map
        fun child => p.renderStatic map child (some parent) := by
  induction fuel generalizing root with
  | zero => omega
  | succ fuel ih =>
      have hnext : ∀ f : ComponentId → List ComponentId, (p.holding.next root).flatMap f =
          (p.sortedChildren root).flatMap fun child => if p.tier child = .a then f child else [] := by
        intro f
        rw [holding]
        dsimp only
        induction p.sortedChildren root with
        | nil => rfl
        | cons child children ih =>
            by_cases htier : p.tier child = .a <;> simp [htier, ih]
      rw [collectTierAChildren, hnext, List.map_flatMap]
      refine List.flatMap_congr fun child hchild => ?_
      have hrank := p.rank_sortedChildren hchild
      cases htier : p.tier child with
      | a =>
          rw [if_pos rfl, Dag.unfold_eq, List.map_cons, ← ih (by omega)]
      | b => rfl
      | c => rfl

theorem slots_eq_iff (map : InlineMap) (id : ComponentId) (parent : Option String) :
    (p.buildTierBNode map id parent).tierAChildren.map RenderedNode.placeholderId =
        (p.holding.next id).map p.placeholder ↔
      ∀ child ∈ p.holding.next id, p.holding.next child = [] := by
  have hslots : (p.buildTierBNode map id parent).tierAChildren.map RenderedNode.placeholderId =
      ((p.holding.next id).flatMap p.holding.unfold).map (p.placeholderId "a") := by
    rw [buildTierBNode]
    dsimp only
    rw [collectTierAChildren_eq (Nat.lt_succ_self _), List.map_map]
    rfl
  have hdirect : (p.holding.next id).map p.placeholder =
      (p.holding.next id).map (p.placeholderId "a") := by
    refine List.map_congr_left fun child hchild => ?_
    have htier : p.tier child = .a := of_decide_eq_true (List.mem_filter.mp hchild).2
    rw [placeholder, htier]
    rfl
  rw [hslots, hdirect, ← Dag.flatMap_unfold_eq_self]
  exact List.map_injective_iff.mpr (fun _ _ => placeholderId_inj) |>.eq_iff

/-! ### The maps -/

def entered (p : Project) (found : List ComponentId) : InlineMap :=
  found.foldl (fun map id => Function.update map (p.name id) (some (p.placeholder id))) fun _ => none

theorem entered_append (found : List ComponentId) (id : ComponentId) :
    p.entered (found ++ [id]) =
      Function.update (p.entered found) (p.name id) (some (p.placeholder id)) := by
  rw [entered, List.foldl_append]
  rfl

theorem entered_some {placeholder : String} (h : p.entered found name = some placeholder) :
    ∃ y ∈ found, p.name y = name ∧ p.placeholder y = placeholder := by
  induction found using List.reverseRecOn with
  | nil => cases h
  | append_singleton found id ih =>
      rw [entered_append] at h
      by_cases hname : name = p.name id
      · subst hname
        rw [Function.update_self] at h
        exact ⟨id, by simp, rfl, Option.some.inj h⟩
      · rw [Function.update_of_ne hname] at h
        obtain ⟨y, hy, hrest⟩ := ih h
        exact ⟨y, List.mem_append_left _ hy, hrest⟩

theorem entered_none : p.entered found name = none ↔ ∀ y ∈ found, p.name y ≠ name := by
  induction found using List.reverseRecOn with
  | nil => simp [entered]
  | append_singleton found id ih =>
      rw [entered_append]
      by_cases hname : name = p.name id
      · subst hname
        simp
      · rw [Function.update_of_ne hname, ih]
        simp only [List.mem_append, List.mem_singleton]
        constructor
        · rintro h y (hy | rfl)
          · exact h y hy
          · exact Ne.symm hname
        · exact fun h y hy => h y (Or.inl hy)

theorem entered_of_mem (h : y ∈ found) :
    ∃ z ∈ found, p.name z = p.name y ∧ p.entered found (p.name y) = some (p.placeholder z) := by
  cases hentered : p.entered found (p.name y) with
  | none => exact absurd rfl (entered_none.mp hentered y h)
  | some placeholder =>
      obtain ⟨z, hz, hname, rfl⟩ := entered_some hentered
      exact ⟨z, hz, hname, rfl⟩

theorem anchorDeferred_eq (id : ComponentId) (map : InlineMap) : p.anchorDeferred id map =
    if p.Deferred id then Function.update map (p.name id) (some (p.placeholder id)) else map := by
  unfold anchorDeferred
  cases htier : p.tier id <;> simp [Deferred, placeholder, htier, Tier.letter]

theorem Occurs.rank_lt (h : p.Occurs x y) : p.rank y < p.rank x := by
  obtain ⟨child, hchild, hreach⟩ := h
  have hrank := p.rank_sortedChildren hchild
  have hle : p.rank y ≤ p.rank child := hreach.rank_le
  omega

theorem routeMap_eq (root : ComponentId) :
    ∃ found, (∀ y, y ∈ found ↔ p.Occurs root y ∧ p.Deferred y) ∧
      p.collectRouteIslandPlaceholders root = p.entered found := by
  obtain ⟨found, hswept, hrun⟩ :=
    p.inlining.sweep_spec p.anchorDeferred (p.sortedChildren root).reverse [root] fun _ => none
  have hclosed : ∀ a ∈ [root], ∀ b ∈ p.inlining.next a,
      b ∈ [root] ∨ b ∈ (p.sortedChildren root).reverse := by
    intro a ha b hb
    obtain rfl := List.mem_singleton.mp ha
    unfold inlining at hb
    dsimp only at hb
    split_ifs at hb
    · exact Or.inr (List.mem_reverse.mpr hb)
    · cases hb
  have hmem : ∀ y, y ∈ found ↔ p.Occurs root y := by
    intro y
    have hiff := hswept.mem_iff hclosed y
    simp only [List.mem_singleton, List.mem_reverse] at hiff
    constructor
    · intro hy
      exact (hiff.mp (Or.inl hy)).resolve_left fun heq =>
        hswept.fresh y hy (List.mem_singleton.mpr heq)
    · intro hoccurs
      refine (hiff.mpr (Or.inr hoccurs)).resolve_right fun heq => ?_
      subst heq
      exact absurd hoccurs.rank_lt (Nat.lt_irrefl _)
  refine ⟨found.filter p.Deferred, fun y => ?_, ?_⟩
  · rw [List.mem_filter, hmem, decide_eq_true_iff]
  · rw [collectRouteIslandPlaceholders, hrun, entered, List.foldl_filter]
    dsimp only
    congr 1
    funext map id
    rw [anchorDeferred_eq]
    simp only [decide_eq_true_eq]

/-! ### The layouts -/

def BelowLayouts (p : Project) (layouts : List ComponentId) (y : ComponentId) : Prop :=
  ∃ layout ∈ layouts, ∃ child ∈ p.sortedChildren layout, p.reaching.Reaches child y

def islandsOf (p : Project) (found : List ComponentId) : LayoutIslands :=
  found.foldl (fun islands id => p.emitIsland id islands) ⟨[], fun _ => none, []⟩

theorem islandsOf_eq (h : found.Nodup) :
    p.islandsOf found = {
      nodes := (found.filter fun y => p.tier y = .c).map
        fun y => p.buildTierCNode y (some layoutIslandParent)
      map := p.entered (found.filter fun y => p.tier y = .c)
      emitted := (found.filter fun y => p.tier y = .c).reverse } := by
  induction found using List.reverseRecOn with
  | nil => rfl
  | append_singleton found id ih =>
      have hsplit := List.nodup_append.mp h
      have hlast : p.islandsOf (found ++ [id]) = p.emitIsland id (p.islandsOf found) := by
        rw [islandsOf, List.foldl_append]
        rfl
      rw [hlast, ih hsplit.1]
      unfold emitIsland
      cases htier : p.tier id with
      | a => simp [htier]
      | b => simp [htier]
      | c =>
          have hnew : id ∉ (found.filter fun y => p.tier y = .c).reverse := fun hmem =>
            hsplit.2.2 id (List.mem_of_mem_filter (List.mem_reverse.mp hmem)) id
              (List.mem_singleton_self id) rfl
          dsimp only
          rw [if_neg hnew]
          simp [htier, entered_append, placeholder, Tier.letter]

theorem sweepLayouts_eq (chain : List String) (done : List ComponentId)
    (hnodup : found.Nodup) (hmem : ∀ y, y ∈ found ↔ p.BelowLayouts done y) :
    ∃ found', found'.Nodup ∧
      (∀ y, y ∈ found' ↔ p.BelowLayouts (done ++ chain.filterMap p.findComponent) y) ∧
      chain.foldl (fun s layoutName =>
        match p.findComponent layoutName with
        | none => s
        | some layoutId => p.reaching.sweep p.emitIsland (p.sortedChildren layoutId).reverse s)
        (found.reverse, p.islandsOf found) = (found'.reverse, p.islandsOf found') := by
  induction chain generalizing done found with
  | nil => exact ⟨found, hnodup, by simpa using hmem, rfl⟩
  | cons layoutName chain ih =>
      rw [List.foldl_cons, List.filterMap_cons]
      cases hfind : p.findComponent layoutName with
      | none => exact ih done hnodup hmem
      | some layoutId =>
          obtain ⟨new, hswept, hrun⟩ := p.reaching.sweep_spec p.emitIsland
            (p.sortedChildren layoutId).reverse found.reverse (p.islandsOf found)
          dsimp only
          have hclosed : ∀ a ∈ found.reverse, ∀ b ∈ p.reaching.next a,
              b ∈ found.reverse ∨ b ∈ (p.sortedChildren layoutId).reverse := by
            intro a ha b hb
            obtain ⟨layout, hlayout, child, hchild, hreach⟩ := (hmem a).mp (List.mem_reverse.mp ha)
            exact Or.inl (List.mem_reverse.mpr ((hmem b).mpr
              ⟨layout, hlayout, child, hchild, hreach.tail hb⟩))
          have hnext : (found.reverse, p.islandsOf found).1.reverse = found := List.reverse_reverse _
          have hstate : p.reaching.sweep p.emitIsland (p.sortedChildren layoutId).reverse
              (found.reverse, p.islandsOf found) =
              ((found ++ new).reverse, p.islandsOf (found ++ new)) := by
            rw [hrun, List.reverse_append, islandsOf, islandsOf, List.foldl_append]
          rw [hstate]
          have hdone : done ++ layoutId :: chain.filterMap p.findComponent =
              (done ++ [layoutId]) ++ chain.filterMap p.findComponent := by simp
          rw [hdone]
          refine ih (done ++ [layoutId]) ?_ fun y => ?_
          · refine List.nodup_append.mpr ⟨hnodup, hswept.nodup, fun a ha b hb hab => ?_⟩
            subst hab
            exact hswept.fresh a hb (List.mem_reverse.mpr ha)
          · have hiff := hswept.mem_iff hclosed y
            simp only [List.mem_reverse, hmem] at hiff
            rw [List.mem_append, hmem, or_comm, hiff]
            simp [BelowLayouts, or_and_right, exists_or]

theorem collectLayoutIslands_eq (chain : List String) :
    ∃ found, found.Nodup ∧
      (∀ y, y ∈ found ↔ p.tier y = .c ∧ p.BelowLayouts (chain.filterMap p.findComponent) y) ∧
      (p.collectLayoutIslands chain).2.nodes =
        found.map (fun y => p.buildTierCNode y (some layoutIslandParent)) ∧
      (p.collectLayoutIslands chain).2.map = p.entered found := by
  have hnone : ∀ y, y ∈ ([] : List ComponentId) ↔ p.BelowLayouts [] y := by
    simp [BelowLayouts]
  obtain ⟨found, hnodup, hmem, hrun⟩ := sweepLayouts_eq chain [] List.nodup_nil hnone
  refine ⟨found.filter fun y => p.tier y = .c, hnodup.filter _, fun y => ?_, ?_⟩
  · rw [List.mem_filter, hmem, decide_eq_true_iff, and_comm, List.nil_append]
  · have hislands : (p.collectLayoutIslands chain).2 = p.islandsOf found := congrArg Prod.snd hrun
    rw [hislands, islandsOf_eq hnodup]
    exact ⟨rfl, rfl⟩

end Albedo.Manifest.Project
