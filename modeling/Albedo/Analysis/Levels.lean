import Albedo.Analysis.Graph

/-!
# The levels in which components are rendered

Components are peeled off the graph, those without dependencies first, and each dependent of what
was peeled counts one dependency less. A level holds what has none left. Two sorters do so, and one
of them takes a different step after a level of more than a few components.
-/
namespace Albedo.Analysis

/-- The number of dependencies that are not peeled off yet, of each component. -/
abbrev Degrees := ComponentId → Option ℕ

namespace ComponentGraph

def calculateOutDegrees (graph : ComponentGraph) : Degrees := fun id =>
  if id ∈ graph.ids then some (graph.dependencies id).card else none

def countDown (processed : Finset ComponentId) (state : List ComponentId × Degrees)
    (dep : ComponentId) : List ComponentId × Degrees :=
  if dep ∈ processed then state
  else
    match state.2 dep with
    | none => state
    | some deg =>
        let deg := if 0 < deg then deg - 1 else deg
        (if deg = 0 ∧ dep ∉ state.1 then state.1 ++ [dep] else state.1,
          Function.update state.2 dep (some deg))

abbrev NextLevel := ℕ → List ComponentId → Degrees → Finset ComponentId → List ComponentId × Degrees

variable {graph : ComponentGraph}

def serialNextLevel (orders : graph.Orders) : NextLevel := fun _ current degrees processed =>
  current.foldl (fun state node => (orders.dependents node).foldl (countDown processed) state)
    ([], degrees)

/-- The dependents of peeled components, once for each. Whatever order they are met in, the counts
are these. -/
def decrements (orders : graph.Orders) (current : List ComponentId)
    (processed : Finset ComponentId) : List ComponentId :=
  (current.flatMap orders.dependents).filter (· ∉ processed)

def parallelNextLevel (orders : graph.Orders) : NextLevel := fun level current degrees processed =>
  let deps := decrements orders current processed
  let counts := fun id => deps.count id
  let decremented := fun id => (degrees id).map (· - counts id)
  ((orders.drained level deps.toFinset).filter (decremented · = some 0),
    fun id => if id ∈ deps then decremented id else degrees id)

def parallelThreshold : ℕ := 20

def switchedNextLevel (orders : graph.Orders) : NextLevel := fun level current =>
  if parallelThreshold < current.length then parallelNextLevel orders level current
  else serialNextLevel orders level current

/-- The loop over the levels, which takes no more turns than there are components. -/
def peel (next : NextLevel) : ℕ → ℕ → List ComponentId → Degrees → Finset ComponentId →
    Option (List (List ComponentId) × Finset ComponentId)
  | _, _, [], _, processed => some ([], processed)
  | 0, _, _ :: _, _, _ => none
  | turns + 1, level, node :: current, degrees, processed =>
      let processed := processed ∪ (node :: current).toFinset
      let stepped := next level (node :: current) degrees processed
      (peel next turns (level + 1) stepped.1 stepped.2 processed).map fun peeled =>
        ((node :: current) :: peeled.1, peeled.2)

def sortWith (next : NextLevel) (graph : ComponentGraph) (orders : graph.Orders) :
    Option (Except CompilerError (List (List ComponentId))) :=
  match graph.validate orders with
  | none => none
  | some (.error e) => some (.error e)
  | some (.ok ()) =>
      let degrees := graph.calculateOutDegrees
      let current := orders.degrees.filter (degrees · = some 0)
      if current = [] ∧ graph.componentCount ≠ 0 then
        some (.error (.invalidGraph "No components with zero dependencies found"))
      else
        (peel next graph.componentCount 0 current degrees ∅).map fun peeled =>
          let processed := peeled.2.card
          let len := graph.componentCount
          if processed ≠ len then
            .error (.invalidGraph
              s!"Only processed {processed} of {len} components - possible cycle")
          else .ok peeled.1

end ComponentGraph

/-- `TopologicalSorter::sort`. -/
def TopologicalSorter.sort (graph : ComponentGraph) (orders : graph.Orders) :
    Option (Except CompilerError (List (List ComponentId))) :=
  ComponentGraph.sortWith (ComponentGraph.serialNextLevel orders) graph orders

/-- `ParallelTopologicalSorter::sort`. -/
def ParallelTopologicalSorter.sort (graph : ComponentGraph) (orders : graph.Orders) :
    Option (Except CompilerError (List (List ComponentId))) :=
  ComponentGraph.sortWith (ComponentGraph.switchedNextLevel orders) graph orders

namespace ComponentGraph
variable {graph : ComponentGraph}

/-! ### What a step does -/

/-- A step counts each component down by the peeled ones it depends on, and what has none left is
the next level. -/
structure Steps (deps : List ComponentId) (degrees : Degrees)
    (result : List ComponentId × Degrees) : Prop where
  nodup : result.1.Nodup
  mem : ∀ a, a ∈ result.1 ↔ a ∈ deps ∧ ∃ deg, degrees a = some deg ∧ deg ≤ deps.count a
  degrees : ∀ a, result.2 a = (degrees a).map (· - deps.count a)

theorem steps_countDown (deps : List ComponentId) (degrees : Degrees)
    (processed : Finset ComponentId) (hdeps : ∀ a ∈ deps, a ∉ processed) :
    Steps deps degrees (deps.foldl (countDown processed) ([], degrees)) := by
  induction deps using List.reverseRecOn with
  | nil =>
    refine ⟨List.nodup_nil, by simp, ?_⟩
    intro a
    cases hdeg : degrees a with
    | none => simp [hdeg]
    | some deg => simp [hdeg]
  | append_singleton deps dep ih =>
    have hbefore := ih fun a ha => hdeps a (List.mem_append_left _ ha)
    have hnew := hdeps dep (List.mem_append_right _ (List.mem_singleton_self dep))
    rw [List.foldl_append, List.foldl_cons, List.foldl_nil]
    generalize deps.foldl (countDown processed) ([], degrees) = state at hbefore
    have hcount (a : ComponentId) : (deps ++ [dep]).count a =
        deps.count a + if a = dep then 1 else 0 := by
      rw [List.count_append]
      by_cases ha : a = dep
      · simp [ha]
      · simp [ha, Ne.symm ha]
    rw [countDown, if_neg hnew, hbefore.degrees dep]
    cases hdeg : degrees dep with
    | none =>
      simp only [Option.map_none]
      refine ⟨hbefore.nodup, ?_, ?_⟩
      · intro a
        rw [hbefore.mem, List.mem_append, List.mem_singleton, hcount]
        by_cases ha : a = dep
        · simp [ha, hdeg]
        · simp [ha]
      · intro a
        rw [hbefore.degrees, hcount]
        by_cases ha : a = dep
        · simp [ha, hdeg]
        · simp [ha]
    | some deg =>
      simp only [Option.map_some]
      have hless : (if 0 < deg - deps.count dep then deg - deps.count dep - 1
          else deg - deps.count dep) = deg - (deps.count dep + 1) := by
        split_ifs <;> omega
      rw [hless]
      refine ⟨?_, ?_, ?_⟩
      · split_ifs with hlast
        · exact hbefore.nodup.append (List.nodup_singleton dep) (by simpa using hlast.2)
        · exact hbefore.nodup
      · intro a
        rw [List.mem_append, List.mem_singleton, hcount]
        by_cases ha : a = dep
        · subst ha
          have hin : a ∈ state.1 → deg ≤ deps.count a := by
            intro hmem
            obtain ⟨-, deg', hdeg', hle⟩ := (hbefore.mem a).mp hmem
            rw [hdeg, Option.some.injEq] at hdeg'
            rwa [hdeg']
          simp only [hdeg, Option.some.injEq, exists_eq_left', if_true, or_true, true_and]
          split_ifs with hlast
          · simp only [List.mem_append, List.mem_singleton, or_true, true_iff]
            omega
          · constructor
            · intro hmem
              have := hin hmem
              omega
            · intro hle
              by_contra hout
              exact hlast ⟨by omega, hout⟩
        · have hother : a ∈ (if deg - (deps.count dep + 1) = 0 ∧ dep ∉ state.1 then
              state.1 ++ [dep] else state.1) ↔ a ∈ state.1 := by
            split_ifs
            · simp [ha]
            · rfl
          rw [hother, hbefore.mem]
          simp [ha]
      · intro a
        dsimp only
        by_cases ha : a = dep
        · rw [ha, Function.update_self, hcount, hdeg]
          simp
        · rw [Function.update_of_ne ha, hbefore.degrees, hcount]
          simp [ha]

theorem steps_serialNextLevel (orders : graph.Orders) (level : ℕ) (current : List ComponentId)
    (degrees : Degrees) (processed : Finset ComponentId) :
    Steps (decrements orders current processed) degrees
      (serialNextLevel orders level current degrees processed) := by
  have hskip : ∀ (deps : List ComponentId) (state : List ComponentId × Degrees),
      deps.foldl (countDown processed) state =
        (deps.filter (· ∉ processed)).foldl (countDown processed) state := by
    intro deps
    induction deps with
    | nil => intro state; rfl
    | cons dep deps ih =>
      intro state
      by_cases hdep : dep ∈ processed
      · rw [List.foldl_cons, ih, List.filter_cons_of_neg (by simpa using hdep), countDown,
          if_pos hdep]
      · rw [List.foldl_cons, ih, List.filter_cons_of_pos (by simpa using hdep), List.foldl_cons]
  have hfold : serialNextLevel orders level current degrees processed =
      (decrements orders current processed).foldl (countDown processed) ([], degrees) := by
    rw [decrements, ← hskip, List.foldl_flatMap]
    rfl
  rw [hfold]
  apply steps_countDown
  intro a ha
  simpa using (List.mem_filter.mp ha).2

theorem steps_parallelNextLevel (orders : graph.Orders) (level : ℕ) (current : List ComponentId)
    (degrees : Degrees) (processed : Finset ComponentId) :
    Steps (decrements orders current processed) degrees
      (parallelNextLevel orders level current degrees processed) := by
  have hdrained := orders.lists_drained level (decrements orders current processed).toFinset
  refine ⟨hdrained.nodup.filter _, ?_, ?_⟩
  · intro a
    simp only [parallelNextLevel, List.mem_filter, hdrained.mem, List.mem_toFinset,
      decide_eq_true_eq, Option.map_eq_some_iff, Nat.sub_eq_zero_iff_le]
  · intro a
    simp only [parallelNextLevel]
    split_ifs with ha
    · rfl
    · rw [List.count_eq_zero_of_not_mem ha]
      cases hdeg : degrees a <;> simp

theorem steps_switchedNextLevel (orders : graph.Orders) (level : ℕ) (current : List ComponentId)
    (degrees : Degrees) (processed : Finset ComponentId) :
    Steps (decrements orders current processed) degrees
      (switchedNextLevel orders level current degrees processed) := by
  rw [switchedNextLevel]
  split_ifs
  · exact steps_parallelNextLevel orders level current degrees processed
  · exact steps_serialNextLevel orders level current degrees processed

/-! ### The levels -/

section Levels

variable (h : graph.Mirrored) (hacyclic : graph.Acyclic)

noncomputable def levelAt (k : ℕ) : Finset ComponentId :=
  graph.ids.filter ((h.dag hacyclic).depth · = k)

theorem mem_levelAt {k : ℕ} {a : ComponentId} :
    a ∈ levelAt h hacyclic k ↔ a ∈ graph.ids ∧ (h.dag hacyclic).depth a = k :=
  Finset.mem_filter

theorem levelAt_eq_empty_of_le {j k : ℕ} (hjk : j ≤ k) (hj : levelAt h hacyclic j = ∅) :
    levelAt h hacyclic k = ∅ := by
  induction k, hjk using Nat.le_induction with
  | base => exact hj
  | succ k _ ih =>
    rw [Finset.eq_empty_iff_forall_notMem] at ih ⊢
    intro a ha
    rw [mem_levelAt, (h.dag hacyclic).depth_eq_succ_iff] at ha
    obtain ⟨-, ⟨b, hb, hdepth⟩, -⟩ := ha
    exact ih b ((mem_levelAt h hacyclic).mpr ⟨h.end_mem a b hb, hdepth⟩)

noncomputable def remaining (k : ℕ) (a : ComponentId) : Finset ComponentId :=
  (graph.dependencies a).filter (k ≤ (h.dag hacyclic).depth ·)

structure Peeling (k : ℕ) (current : List ComponentId) (degrees : Degrees)
    (processed : Finset ComponentId) : Prop where
  lists : Lists current (levelAt h hacyclic k)
  peeled : ∀ a, a ∈ processed ↔ a ∈ graph.ids ∧ (h.dag hacyclic).depth a < k
  counts : ∀ a ∈ graph.ids, k ≤ (h.dag hacyclic).depth a →
    degrees a = some (remaining h hacyclic k a).card
  unknown : ∀ a ∉ graph.ids, degrees a = none

variable {h hacyclic}

theorem count_decrements (orders : graph.Orders) {k : ℕ} {current : List ComponentId}
    (hcurrent : Lists current (levelAt h hacyclic k)) (processed : Finset ComponentId)
    (a : ComponentId) (ha : a ∉ processed) : (decrements orders current processed).count a =
      ((graph.dependencies a).filter ((h.dag hacyclic).depth · = k)).card := by
  have hpeeled : (current.filter (a ∈ graph.dependents ·)).toFinset =
      (graph.dependencies a).filter ((h.dag hacyclic).depth · = k) := by
    ext b
    rw [List.mem_toFinset, List.mem_filter, hcurrent.mem, mem_levelAt, Finset.mem_filter,
      decide_eq_true_eq, ← h.mirror]
    constructor
    · rintro ⟨⟨-, hdepth⟩, hb⟩
      exact ⟨hb, hdepth⟩
    · rintro ⟨hb, hdepth⟩
      exact ⟨⟨h.end_mem a b hb, hdepth⟩, hb⟩
  have hone (b : ComponentId) : (orders.dependents b).count a =
      if a ∈ graph.dependents b then 1 else 0 := by
    have hlists := orders.lists_dependents b
    split_ifs with hb
    · exact List.count_eq_one_of_mem hlists.nodup ((hlists.mem a).mpr hb)
    · exact List.count_eq_zero_of_not_mem fun hin => hb ((hlists.mem a).mp hin)
  rw [← hpeeled, List.toFinset_card_of_nodup (hcurrent.nodup.filter _), decrements,
    List.count_filter (by simpa using ha), List.count_flatMap]
  clear hpeeled hcurrent
  induction current with
  | nil => rfl
  | cons b current ih =>
    rw [List.map_cons, List.sum_cons, ih, Function.comp_apply, hone]
    by_cases hb : a ∈ graph.dependents b
    · rw [List.filter_cons_of_pos (by simpa using hb), if_pos hb, List.length_cons, Nat.add_comm]
    · rw [List.filter_cons_of_neg (by simpa using hb), if_neg hb, Nat.zero_add]

theorem card_remaining (k : ℕ) (a : ComponentId) : (remaining h hacyclic k a).card =
    ((graph.dependencies a).filter ((h.dag hacyclic).depth · = k)).card +
      (remaining h hacyclic (k + 1) a).card := by
  rw [remaining, remaining, ← Finset.card_union_of_disjoint]
  · congr 1
    ext b
    simp only [Finset.mem_filter, Finset.mem_union, ← and_or_left]
    exact and_congr_right fun _ => by omega
  · rw [Finset.disjoint_filter]
    intro b _ hb
    omega

theorem Peeling.step {k : ℕ} {current : List ComponentId} {degrees : Degrees}
    {processed : Finset ComponentId} (hpeeling : Peeling h hacyclic k current degrees processed)
    (orders : graph.Orders) {result : List ComponentId × Degrees}
    (hsteps : Steps (decrements orders current (processed ∪ current.toFinset)) degrees result) :
    Peeling h hacyclic (k + 1) result.1 result.2 (processed ∪ current.toFinset) := by
  have hprocessed : ∀ a, a ∈ processed ∪ current.toFinset ↔
      a ∈ graph.ids ∧ (h.dag hacyclic).depth a < k + 1 := by
    intro a
    rw [Finset.mem_union, List.mem_toFinset, hpeeling.peeled, hpeeling.lists.mem,
      mem_levelAt, ← and_or_left]
    exact and_congr_right fun _ => by omega
  have hcount : ∀ a, k + 1 ≤ (h.dag hacyclic).depth a →
      (decrements orders current (processed ∪ current.toFinset)).count a =
        ((graph.dependencies a).filter ((h.dag hacyclic).depth · = k)).card := by
    intro a hdeep
    apply count_decrements orders hpeeling.lists
    rw [hprocessed]
    omega
  refine ⟨⟨hsteps.nodup, ?_⟩, hprocessed, ?_, ?_⟩
  · intro a
    rw [hsteps.mem, mem_levelAt, (h.dag hacyclic).depth_eq_succ_iff]
    constructor
    · rintro ⟨hin, deg, hdeg, hle⟩
      have hids : a ∈ graph.ids := by
        by_contra hout
        rw [hpeeling.unknown a hout] at hdeg
        cases hdeg
      have hdeep : k + 1 ≤ (h.dag hacyclic).depth a := by
        have hnew := of_decide_eq_true (List.mem_filter.mp hin).2
        rw [hprocessed] at hnew
        exact not_lt.mp fun hlow => hnew ⟨hids, hlow⟩
      rw [hpeeling.counts a hids (by omega), Option.some.injEq] at hdeg
      rw [← hdeg, hcount a hdeep, card_remaining] at hle
      have hpos := List.count_pos_iff.mpr hin
      rw [hcount a hdeep, Finset.card_pos] at hpos
      obtain ⟨b, hb⟩ := hpos
      have hnone : remaining h hacyclic (k + 1) a = ∅ := by
        rw [← Finset.card_eq_zero]
        omega
      refine ⟨hids, ⟨b, (Finset.mem_filter.mp hb).1, (Finset.mem_filter.mp hb).2⟩, ?_⟩
      intro c hc
      by_contra hdeeper
      have hleft : c ∈ remaining h hacyclic (k + 1) a :=
        Finset.mem_filter.mpr ⟨hc, by omega⟩
      rw [hnone] at hleft
      exact absurd hleft (Finset.notMem_empty c)
    · rintro ⟨hids, ⟨b, hb, hdepth⟩, hall⟩
      have hdeep : k + 1 ≤ (h.dag hacyclic).depth a := by
        have hlt := (h.dag hacyclic).depth_lt (a := a) hb
        omega
      have hnone : remaining h hacyclic (k + 1) a = ∅ := by
        rw [Finset.eq_empty_iff_forall_notMem]
        intro c hc
        obtain ⟨hc, hdeeper⟩ := Finset.mem_filter.mp hc
        have := hall c hc
        omega
      refine ⟨?_, _, hpeeling.counts a hids (by omega), ?_⟩
      · rw [← List.count_pos_iff, hcount a hdeep, Finset.card_pos]
        exact ⟨b, Finset.mem_filter.mpr ⟨hb, hdepth⟩⟩
      · rw [hcount a hdeep, card_remaining, hnone, Finset.card_empty, Nat.add_zero]
  · intro a hids hdeep
    rw [hsteps.degrees, hpeeling.counts a hids (by omega), hcount a hdeep, card_remaining,
      Option.map_some, Nat.add_sub_cancel_left]
  · intro a hout
    rw [hsteps.degrees, hpeeling.unknown a hout, Option.map_none]

/-- The levels from one on: each is there once, as long as there are components at its depth. -/
structure LevelsFrom (h : graph.Mirrored) (hacyclic : graph.Acyclic) (k : ℕ)
    (levels : List (List ComponentId)) : Prop where
  nodup : ∀ level ∈ levels, level.Nodup
  sets : ∀ j, (levels.map List.toFinset)[j]? =
    if levelAt h hacyclic (k + j) = ∅ then none else some (levelAt h hacyclic (k + j))

theorem peel_spec {next : NextLevel} (orders : graph.Orders)
    (hnext : ∀ level current degrees processed,
      Steps (decrements orders current processed) degrees (next level current degrees processed))
    (turns k : ℕ) (hturns : turns + k = graph.ids.card) (current : List ComponentId)
    (degrees : Degrees) (processed : Finset ComponentId)
    (hpeeling : Peeling h hacyclic k current degrees processed) :
    ∃ levels, peel next turns k current degrees processed = some (levels, graph.ids) ∧
      LevelsFrom h hacyclic k levels := by
  have hend : ∀ {current : List ComponentId} {degrees : Degrees} {processed : Finset ComponentId}
      {k : ℕ}, Peeling h hacyclic k current degrees processed → current = [] →
      processed = graph.ids ∧ LevelsFrom h hacyclic k [] := by
    intro current degrees processed k hpeeling hnil
    have hempty : levelAt h hacyclic k = ∅ := by
      rw [Finset.eq_empty_iff_forall_notMem]
      intro a ha
      rw [← hpeeling.lists.mem, hnil] at ha
      cases ha
    constructor
    · ext a
      rw [hpeeling.peeled, and_iff_left_iff_imp]
      intro ha
      by_contra hdeep
      have hlater := levelAt_eq_empty_of_le h hacyclic (not_lt.mp hdeep) hempty
      exact Finset.notMem_empty a (hlater ▸ (mem_levelAt h hacyclic).mpr ⟨ha, rfl⟩)
    · refine ⟨by simp, ?_⟩
      intro j
      rw [if_pos (levelAt_eq_empty_of_le h hacyclic (Nat.le_add_right k j) hempty)]
      rfl
  induction turns generalizing k current degrees processed with
  | zero =>
    cases current with
    | nil =>
      obtain ⟨hall, hlevels⟩ := hend hpeeling rfl
      exact ⟨[], by rw [peel, hall], hlevels⟩
    | cons node current =>
      have hnode := (hpeeling.lists.mem node).mp List.mem_cons_self
      rw [mem_levelAt] at hnode
      have hbound := (h.dag hacyclic).depth_lt_card hnode.1
      change _ < graph.ids.card at hbound
      omega
  | succ turns ih =>
    cases current with
    | nil =>
      obtain ⟨hall, hlevels⟩ := hend hpeeling rfl
      exact ⟨[], by rw [peel, hall], hlevels⟩
    | cons node current =>
      have hstep := hpeeling.step orders
        (hnext k (node :: current) degrees (processed ∪ (node :: current).toFinset))
      obtain ⟨levels, hpeel, hlevels⟩ := ih (k + 1) (by omega) _ _ _ hstep
      refine ⟨(node :: current) :: levels, by rw [peel, hpeel]; rfl, ?_, ?_⟩
      · rw [List.forall_mem_cons]
        exact ⟨hpeeling.lists.nodup, hlevels.nodup⟩
      · intro j
        cases j with
        | zero =>
          have hset : (node :: current).toFinset = levelAt h hacyclic k := by
            ext a
            rw [List.mem_toFinset, hpeeling.lists.mem]
          have hsome : levelAt h hacyclic k ≠ ∅ := by
            rw [← hset]
            exact List.toFinset_nonempty_iff _ |>.mpr (List.cons_ne_nil _ _) |>.ne_empty
          rw [Nat.add_zero, if_neg hsome, ← hset]
          rfl
        | succ j =>
          rw [List.map_cons, List.getElem?_cons_succ, hlevels.sets, Nat.add_right_comm,
            Nat.add_assoc]

theorem peeling_zero (orders : graph.Orders) : Peeling h hacyclic 0
    (orders.degrees.filter (graph.calculateOutDegrees · = some 0)) graph.calculateOutDegrees ∅ := by
  have hdegrees : ∀ a ∈ graph.ids,
      graph.calculateOutDegrees a = some (graph.dependencies a).card := by
    intro a ha
    rw [calculateOutDegrees, if_pos ha]
  refine ⟨⟨orders.lists_degrees.nodup.filter _, ?_⟩, ?_, ?_, ?_⟩
  · intro a
    rw [List.mem_filter, orders.lists_degrees.mem, mem_levelAt, decide_eq_true_eq]
    refine and_congr_right fun ha => ?_
    rw [hdegrees a ha, Option.some.injEq, Finset.card_eq_zero]
    exact ((h.dag hacyclic).depth_eq_zero_iff a).symm
  · intro a
    simp
  · intro a ha _
    rw [hdegrees a ha, remaining, Finset.filter_true_of_mem fun b _ => Nat.zero_le _]
  · intro a ha
    rw [calculateOutDegrees, if_neg ha]

theorem sortWith_spec {next : NextLevel} (h : graph.Mirrored) (hacyclic : graph.Acyclic)
    (orders : graph.Orders) (hnext : ∀ level current degrees processed,
      Steps (decrements orders current processed) degrees (next level current degrees processed)) :
    ∃ levels, sortWith next graph orders = some (.ok levels) ∧
      LevelsFrom h hacyclic 0 levels := by
  obtain ⟨verdict, hvalidate, hok⟩ := validate_spec h orders
  have hstart : Peeling h hacyclic 0 _ _ _ := peeling_zero orders
  obtain ⟨levels, hpeel, hlevels⟩ :=
    peel_spec orders hnext graph.ids.card 0 (Nat.add_zero _) _ _ _ hstart
  refine ⟨levels, ?_, hlevels⟩
  rw [hok.mpr hacyclic] at hvalidate
  have hsome : ¬ (orders.degrees.filter (graph.calculateOutDegrees · = some 0) = [] ∧
      graph.ids.card ≠ 0) := by
    rintro ⟨hnil, hcard⟩
    rw [hnil] at hpeel
    cases hids : graph.ids.card with
    | zero => exact hcard hids
    | succ n =>
      rw [hids, peel, Option.some.injEq, Prod.mk.injEq] at hpeel
      rw [← hpeel.2, Finset.card_empty] at hids
      cases hids
  rw [sortWith, hvalidate]
  dsimp only
  rw [h.count, if_neg hsome, hpeel, Option.map_some]
  simp

/-! ### Levels are depths -/

def levelOf (levels : List (List ComponentId)) (a : ComponentId) : ℕ := levels.findIdx (a ∈ ·)

/-- Every component is there once, one level after the last of its dependencies, and in the first
level where it has none. -/
structure RenderLevels (graph : ComponentGraph) (levels : List (List ComponentId)) : Prop where
  once : levels.flatten.Nodup
  mem : ∀ a, a ∈ levels.flatten ↔ a ∈ graph.ids
  depth : ∀ a ∈ graph.ids,
    levelOf levels a = (graph.dependencies a).sup fun b => levelOf levels b + 1

theorem LevelsFrom.mem_getElem {levels : List (List ComponentId)}
    (hlevels : LevelsFrom h hacyclic 0 levels) (j : ℕ) (hj : j < levels.length)
    (a : ComponentId) : a ∈ levels[j] ↔ a ∈ graph.ids ∧ (h.dag hacyclic).depth a = j := by
  have hset := hlevels.sets j
  rw [List.getElem?_map, List.getElem?_eq_getElem hj, Option.map_some, Nat.zero_add] at hset
  split_ifs at hset with hempty
  rw [← mem_levelAt, ← Option.some.inj hset, List.mem_toFinset]

theorem LevelsFrom.depth_lt_length {levels : List (List ComponentId)}
    (hlevels : LevelsFrom h hacyclic 0 levels) {a : ComponentId} (ha : a ∈ graph.ids) :
    (h.dag hacyclic).depth a < levels.length := by
  have hset := hlevels.sets ((h.dag hacyclic).depth a)
  have hin : a ∈ levelAt h hacyclic (0 + (h.dag hacyclic).depth a) := by
    rw [mem_levelAt, Nat.zero_add]
    exact ⟨ha, rfl⟩
  rw [if_neg (Finset.ne_empty_of_mem hin)] at hset
  have hlt := (List.getElem?_eq_some_iff.mp hset).choose
  rwa [List.length_map] at hlt

theorem LevelsFrom.levelOf_eq {levels : List (List ComponentId)}
    (hlevels : LevelsFrom h hacyclic 0 levels) {a : ComponentId} (ha : a ∈ graph.ids) :
    levelOf levels a = (h.dag hacyclic).depth a := by
  have hlt := hlevels.depth_lt_length ha
  rw [levelOf, List.findIdx_eq hlt]
  constructor
  · exact decide_eq_true ((hlevels.mem_getElem _ hlt a).mpr ⟨ha, rfl⟩)
  · intro j hj
    apply decide_eq_false
    rw [hlevels.mem_getElem j (hj.trans hlt)]
    omega

theorem LevelsFrom.renderLevels {levels : List (List ComponentId)}
    (hlevels : LevelsFrom h hacyclic 0 levels) : RenderLevels graph levels := by
  refine ⟨?_, ?_, ?_⟩
  · rw [List.nodup_flatten]
    refine ⟨hlevels.nodup, List.pairwise_iff_getElem.mpr ?_⟩
    intro i j hi hj hij a hai haj
    rw [hlevels.mem_getElem] at hai haj
    omega
  · intro a
    rw [List.mem_flatten]
    constructor
    · rintro ⟨level, hlevel, ha⟩
      obtain ⟨j, hj, rfl⟩ := List.getElem_of_mem hlevel
      exact ((hlevels.mem_getElem j hj a).mp ha).1
    · intro ha
      have hlt := hlevels.depth_lt_length ha
      exact ⟨_, List.getElem_mem hlt, (hlevels.mem_getElem _ hlt a).mpr ⟨ha, rfl⟩⟩
  · intro a ha
    rw [hlevels.levelOf_eq ha, (h.dag hacyclic).depth_eq]
    refine Finset.sup_congr rfl fun b hb => ?_
    rw [hlevels.levelOf_eq (h.end_mem a b hb)]

theorem LevelsFrom.sets_eq {levels levels' : List (List ComponentId)}
    (hlevels : LevelsFrom h hacyclic 0 levels) (hlevels' : LevelsFrom h hacyclic 0 levels') :
    levels.map List.toFinset = levels'.map List.toFinset := by
  apply List.ext_getElem?
  intro j
  rw [hlevels.sets, hlevels'.sets]

end Levels

end ComponentGraph

end Albedo.Analysis
