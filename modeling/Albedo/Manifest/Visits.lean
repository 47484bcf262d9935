import Albedo.Manifest.Builder
import Mathlib.Tactic.SplitIfs

/-!
# What each walk comes to

The walk from the root comes to a component once for each way to it, with the Tier-B component that
holds it. The other two come to each component they reach once.
-/
namespace Albedo.Manifest

open Separator Walks

def Tier.letter : Tier → String
  | .a => "a"
  | .b => "b"
  | .c => "c"

namespace Project

variable {p : Project} {map : InlineMap} {root id x y : ComponentId} {parent : Option String}
  {letter letter' : String}

def Deferred (p : Project) (id : ComponentId) : Prop := p.tier id ≠ .a

instance (p : Project) (id : ComponentId) : Decidable (p.Deferred id) :=
  inferInstanceAs (Decidable (_ ≠ _))

def placeholder (p : Project) (id : ComponentId) : String := p.placeholderId (p.tier id).letter id

theorem placeholderId_inj (h : p.placeholderId letter x = p.placeholderId letter' y) : x = y :=
  ((numbered_inj (by decide)).mp h).2

theorem placeholder_injective (p : Project) : Function.Injective p.placeholder :=
  fun _ _ => placeholderId_inj

theorem placeholderId_ne_of_getLast {s : String} (h : s.toList.getLast? = some '_') :
    p.placeholderId letter x ≠ s := by
  rintro rfl
  have hlast : (p.placeholderId letter x).toList.getLast? = (Nat.toDigits 10 x).getLast? := by
    rw [placeholderId, numbered, Nat.toString_eq_ofList_toDigits, String.toList_append,
      String.toList_ofList, List.getLast?_append_of_ne_nil _ Nat.toDigits_ne_nil]
  rw [hlast] at h
  have hdigit := Nat.isDigit_of_mem_toDigits (by decide) (by decide) (List.mem_of_getLast? h)
  exact absurd hdigit (by decide)

/-! ### Static markup -/

def tags (p : Project) (id : ComponentId) : List ComponentId :=
  (p.sortedChildren id).flatMap p.inlining.unfold

def Occurs (p : Project) (holder id : ComponentId) : Prop :=
  ∃ child ∈ p.sortedChildren holder, p.inlining.Reaches child id

theorem mem_tags : y ∈ p.tags x ↔ p.Occurs x y := by
  simp [tags, Occurs, Dag.mem_unfold]

theorem inlining_next (h : p.tier id = .a) : p.inlining.next id = p.sortedChildren id := if_pos h

theorem inlining_next_deferred (h : p.Deferred id) : p.inlining.next id = [] := if_neg h

theorem unfold_deferred (h : p.Deferred id) : p.inlining.unfold id = [id] := by
  rw [Dag.unfold_eq, inlining_next_deferred h]
  rfl

theorem unfold_inlined (h : p.tier id = .a) : p.inlining.unfold id = id :: p.tags id := by
  rw [Dag.unfold_eq, inlining_next h]
  rfl

def places (p : Project) (id : ComponentId) : List ComponentId := (p.tags id).filter p.Deferred

def sent (p : Project) (map : InlineMap) (id : ComponentId) : List String :=
  (map (p.name id)).toList

theorem occurrence_deferred (hid : id ∈ p.ids) (h : p.Deferred id) :
    p.occurrence map id = (map (p.name id)).elim .nothing .hole := by
  have hname : p.name id ∈ p.deferredComponentNames :=
    List.mem_map_of_mem (List.mem_filter.mpr ⟨hid, decide_eq_true h⟩)
  rw [occurrence, if_pos hname]
  cases map (p.name id) <;> rfl

theorem Occurs.registered (h : p.Occurs x y) : y ∈ p.ids := by
  obtain ⟨child, hchild, hreach⟩ := h
  induction hreach with
  | refl => exact p.sortedChildren_registered hchild
  | tail _ hedge _ =>
      unfold inlining at hedge
      dsimp only at hedge
      split_ifs at hedge
      · exact p.sortedChildren_registered hedge
      · cases hedge

theorem renderHoles_eq (fuel : ℕ) (hfuel : p.rank id < fuel)
    (h : ∀ y, p.Occurs id y → p.tier y = .a → p.occurrence map y = .inlined) :
    p.renderHoles map fuel id = (p.places id).flatMap (p.sent map) := by
  induction fuel generalizing id with
  | zero => omega
  | succ fuel ih =>
      rw [renderHoles, places, tags, List.filter_flatMap, List.flatMap_assoc]
      refine List.flatMap_congr fun child hchild => ?_
      have hrank := p.rank_sortedChildren hchild
      have hoccurs : p.Occurs id child := ⟨child, hchild, Relation.ReflTransGen.refl⟩
      by_cases htier : p.tier child = .a
      · rw [h child hoccurs htier, unfold_inlined htier]
        have hkept : (child :: p.tags child).filter p.Deferred = p.places child :=
          List.filter_cons_of_neg (by simp [Deferred, htier])
        dsimp only
        rw [hkept]
        refine ih (by omega) fun y hy => h y ?_
        obtain ⟨d, hd, hreach⟩ := hy
        exact ⟨child, hchild, Relation.ReflTransGen.head ((inlining_next htier).symm ▸ hd) hreach⟩
      · have hkept : [child].filter p.Deferred = [child] :=
          List.filter_cons_of_pos (decide_eq_true htier)
        rw [unfold_deferred htier, hkept, List.flatMap_singleton,
          occurrence_deferred hoccurs.registered htier, sent]
        cases map (p.name child) <;> rfl

theorem staticHtml_eq (h : ∀ y, p.Occurs id y → p.tier y = .a → p.occurrence map y = .inlined) :
    p.staticHtml map id = (p.places id).flatMap (p.sent map) :=
  renderHoles_eq _ (Nat.lt_succ_self _) h

/-! ### The walk from the root -/

def walked (p : Project) (id : ComponentId) : List ComponentId :=
  match p.tier id with
  | .a => p.sortedChildren id
  | .b => (p.sortedChildren id).filter p.Deferred
  | .c => []

theorem mem_sortedChildren_of_walked (h : y ∈ p.walked x) : y ∈ p.sortedChildren x := by
  unfold walked at h
  split at h
  · exact h
  · exact List.mem_of_mem_filter h
  · cases h

def walk (p : Project) : Dag ComponentId where
  next := p.walked
  rank := p.rank
  descends _ _ h := p.rank_sortedChildren (mem_sortedChildren_of_walked h)

/-- The parent the walk gives what it comes to below a component. -/
def holder (p : Project) (visit : ComponentId × Option String) : Option String :=
  if p.tier visit.1 = .b then some (p.placeholderId "b" visit.1) else visit.2

def visits (p : Project) : Dag (ComponentId × Option String) where
  next visit := (p.walked visit.1).map fun child => (child, p.holder visit)
  rank visit := p.rank visit.1
  descends _ _ h := by
    obtain ⟨child, hchild, rfl⟩ := List.mem_map.mp h
    exact p.rank_sortedChildren (mem_sortedChildren_of_walked hchild)

theorem map_fst_visits (visit : ComponentId × Option String) :
    (p.visits.unfold visit).map Prod.fst = p.walk.unfold visit.1 := by
  refine (Dag.unfold_map (fun visit => ?_) visit).symm
  simp [visits, walk, Function.comp_def]

def Nodes.add (p : Project) (map : InlineMap) (nodes : Nodes)
    (seen : List (ComponentId × Option String)) : Nodes where
  tierARoot := nodes.tierARoot
  tierB := nodes.tierB ++ (seen.filter fun visit => p.tier visit.1 = .b).map
    fun visit => p.buildTierBNode map visit.1 visit.2
  tierC := nodes.tierC ++ (seen.filter fun visit => p.tier visit.1 = .c).map
    fun visit => p.buildTierCNode visit.1 visit.2

theorem Nodes.add_nil (nodes : Nodes) : Nodes.add p map nodes [] = nodes := by
  simp [Nodes.add]

theorem Nodes.add_append (nodes : Nodes) (seen later : List (ComponentId × Option String)) :
    Nodes.add p map nodes (seen ++ later) = Nodes.add p map (Nodes.add p map nodes seen) later := by
  simp [Nodes.add]

variable (p map) in
theorem Nodes.foldl_add {step : Nodes → ComponentId → Nodes} {children : List ComponentId}
    (seen : ComponentId → List (ComponentId × Option String))
    (h : ∀ child ∈ children, ∀ nodes, step nodes child = Nodes.add p map nodes (seen child))
    (nodes : Nodes) : children.foldl step nodes = Nodes.add p map nodes (children.flatMap seen) := by
  induction children generalizing nodes with
  | nil => exact (Nodes.add_nil nodes).symm
  | cons child children ih =>
      rw [List.forall_mem_cons] at h
      rw [List.foldl_cons, List.flatMap_cons, Nodes.add_append, h.1, ih h.2]

theorem traverse_eq {fuel : ℕ} (hfuel : p.rank id < fuel) (inlined : Bool) (nodes : Nodes) :
    p.traverse map fuel id parent inlined nodes =
      Nodes.add p map
        (if p.tier id = .a ∧ inlined = false then { nodes with
          tierARoot := nodes.tierARoot ++ [p.renderStatic map id parent] } else nodes)
        (p.visits.unfold (id, parent)) := by
  induction fuel generalizing id parent inlined nodes with
  | zero => omega
  | succ fuel ih =>
      have hless : ∀ child ∈ p.sortedChildren id, p.rank child < fuel := fun child hchild => by
        have hrank := p.rank_sortedChildren hchild
        omega
      rw [Dag.unfold_eq]
      unfold traverse
      cases htier : p.tier id with
      | a =>
          have hnext : p.visits.next (id, parent) =
              (p.sortedChildren id).map fun child => (child, parent) := by
            simp [visits, walked, holder, htier]
          rw [hnext, List.flatMap_map, Nodes.foldl_add p map
            (fun child => p.visits.unfold (child, parent))]
          · cases inlined <;> simp [Nodes.add, htier]
          · intro child hchild nodes
            rw [ih (hless child hchild), if_neg]
            simp
            tauto
      | b =>
          have hnext : p.visits.next (id, parent) =
              ((p.sortedChildren id).filter p.Deferred).map
                fun child => (child, some (p.placeholderId "b" id)) := by
            simp [visits, walked, holder, htier]
          have hskip : ∀ nodes : Nodes, (p.sortedChildren id).foldl (fun nodes child =>
              if p.tier child = .a then nodes
              else p.traverse map fuel child (some (p.placeholderId "b" id)) false nodes) nodes =
            ((p.sortedChildren id).filter p.Deferred).foldl (fun nodes child =>
              p.traverse map fuel child (some (p.placeholderId "b" id)) false nodes) nodes := by
            intro nodes
            rw [List.foldl_filter]
            congr 1
            funext nodes child
            by_cases hchild : p.tier child = .a <;> simp [Deferred, hchild]
          rw [hnext, List.flatMap_map]
          dsimp only
          rw [hskip, Nodes.foldl_add p map
            (fun child => p.visits.unfold (child, some (p.placeholderId "b" id)))]
          · simp [Nodes.add, htier]
          · intro child hchild nodes
            obtain ⟨hmem, hdeferred⟩ := List.mem_filter.mp hchild
            rw [ih (hless child hmem), if_neg fun h => of_decide_eq_true hdeferred h.1]
      | c =>
          have hnext : p.visits.next (id, parent) = [] := by simp [visits, walked, htier]
          rw [hnext]
          simp [Nodes.add, htier]

end Project

end Albedo.Manifest
