import Albedo.Library.Acyclic
import Albedo.Library.DepthFirst
import Mathlib.Data.Finset.Card
import Mathlib.Logic.Function.Basic

/-!
# The graph that is analysed

Components under their ids, and each dependency in two tables: by the component that has it, and by
the one it is on. Names and weights stand in tables of their own, which the analysis does not read.
-/
namespace Albedo.Analysis

abbrev ComponentId := UInt64

structure ComponentGraph where
  ids : Finset ComponentId
  dependencies : ComponentId → Finset ComponentId
  dependents : ComponentId → Finset ComponentId
  componentCount : ℕ
  nextId : ComponentId

inductive CompilerError where
  | componentNotFound (id : ComponentId)
  | circularDependency (back : ComponentId × ComponentId)
  | invalidGraph (message : String)

namespace ComponentGraph

def new : ComponentGraph := ⟨∅, fun _ => ∅, fun _ => ∅, 0, 0⟩

/-- The id a component is added under: its own, or the next of the generator for a zero. -/
def idFor (graph : ComponentGraph) (id : ComponentId) : ComponentId :=
  if id = 0 then graph.nextId else id

def addComponent (graph : ComponentGraph) (id : ComponentId) : ComponentGraph :=
  { ids := insert (graph.idFor id) graph.ids
    dependencies := Function.update graph.dependencies (graph.idFor id) ∅
    dependents := Function.update graph.dependents (graph.idFor id) ∅
    componentCount := graph.componentCount + 1
    nextId := if id = 0 then graph.nextId + 1 else graph.nextId }

def addDependency (graph : ComponentGraph) (fromId toId : ComponentId) :
    Except CompilerError ComponentGraph :=
  if fromId ∉ graph.ids then .error (.componentNotFound fromId)
  else if toId ∉ graph.ids then .error (.componentNotFound toId)
  else .ok { graph with
    dependencies :=
      Function.update graph.dependencies fromId (insert toId (graph.dependencies fromId))
    dependents :=
      Function.update graph.dependents toId (insert fromId (graph.dependents toId)) }

/-- A graph that is built by adding components under fresh ids, and dependencies. -/
inductive Built : ComponentGraph → Prop
  | new : Built .new
  | component {graph : ComponentGraph} (id : ComponentId) (hgraph : Built graph)
      (hfresh : graph.idFor id ∉ graph.ids) : Built (graph.addComponent id)
  | dependency {graph graph' : ComponentGraph} (fromId toId : ComponentId) (hgraph : Built graph)
      (hadded : graph.addDependency fromId toId = .ok graph') : Built graph'

structure Mirrored (graph : ComponentGraph) : Prop where
  mirror : ∀ a b, b ∈ graph.dependencies a ↔ a ∈ graph.dependents b
  source_mem : ∀ a b, b ∈ graph.dependencies a → a ∈ graph.ids
  end_mem : ∀ a b, b ∈ graph.dependencies a → b ∈ graph.ids
  count : graph.componentCount = graph.ids.card

theorem Mirrored.addComponent {graph : ComponentGraph} {id : ComponentId} (h : graph.Mirrored)
    (hfresh : graph.idFor id ∉ graph.ids) : (graph.addComponent id).Mirrored := by
  have hnone : ∀ a b, b ∈ graph.dependencies a → a ≠ graph.idFor id ∧ b ≠ graph.idFor id := by
    intro a b hb
    constructor
    · rintro rfl
      exact hfresh (h.source_mem _ b hb)
    · rintro rfl
      exact hfresh (h.end_mem a _ hb)
  have hempty : ∀ (table : ComponentId → Finset ComponentId) (a b : ComponentId),
      b ∈ Function.update table (graph.idFor id) ∅ a ↔ a ≠ graph.idFor id ∧ b ∈ table a := by
    intro table a b
    by_cases ha : a = graph.idFor id
    · rw [ha, Function.update_self]
      simp
    · rw [Function.update_of_ne ha]
      simp [ha]
  have hdependencies : ∀ a b, b ∈ (graph.addComponent id).dependencies a ↔
      b ∈ graph.dependencies a := by
    intro a b
    refine (hempty graph.dependencies a b).trans (and_iff_right_of_imp ?_)
    intro hb
    exact (hnone a b hb).1
  have hdependents : ∀ a b, a ∈ (graph.addComponent id).dependents b ↔
      a ∈ graph.dependents b := by
    intro a b
    refine (hempty graph.dependents b a).trans (and_iff_right_of_imp ?_)
    intro ha
    exact (hnone a b ((h.mirror a b).mpr ha)).2
  constructor
  · intro a b
    rw [hdependencies, hdependents]
    exact h.mirror a b
  · intro a b hb
    exact Finset.mem_insert_of_mem (h.source_mem a b ((hdependencies a b).mp hb))
  · intro a b hb
    exact Finset.mem_insert_of_mem (h.end_mem a b ((hdependencies a b).mp hb))
  · change graph.componentCount + 1 = _
    rw [h.count]
    exact (Finset.card_insert_of_notMem hfresh).symm

theorem Mirrored.addDependency {graph graph' : ComponentGraph} {fromId toId : ComponentId}
    (h : graph.Mirrored) (hadded : graph.addDependency fromId toId = .ok graph') :
    graph'.Mirrored := by
  rw [ComponentGraph.addDependency] at hadded
  split_ifs at hadded with hfrom hto
  simp only [Except.ok.injEq] at hadded
  subst hadded
  have hmem : ∀ {table : ComponentId → Finset ComponentId} (key value a b : ComponentId),
      b ∈ Function.update table key (insert value (table key)) a ↔
        b ∈ table a ∨ a = key ∧ b = value := by
    intro table key value a b
    by_cases ha : a = key
    · rw [ha, Function.update_self, Finset.mem_insert]
      tauto
    · rw [Function.update_of_ne ha]
      tauto
  constructor
  · intro a b
    rw [hmem, hmem, h.mirror]
    exact or_congr_right and_comm
  · intro a b hb
    rcases (hmem fromId toId a b).mp hb with hb | ⟨rfl, -⟩
    · exact h.source_mem a b hb
    · exact hfrom
  · intro a b hb
    rcases (hmem fromId toId a b).mp hb with hb | ⟨-, rfl⟩
    · exact h.end_mem a b hb
    · exact hto
  · exact h.count

theorem Built.mirrored {graph : ComponentGraph} (h : Built graph) : graph.Mirrored := by
  induction h with
  | new =>
    refine ⟨?_, ?_, ?_, rfl⟩
    · intro a b
      exact iff_of_false (Finset.notMem_empty b) (Finset.notMem_empty a)
    · intro a b hb
      exact absurd hb (Finset.notMem_empty b)
    · intro a b hb
      exact absurd hb (Finset.notMem_empty b)
  | component id _ hfresh ih => exact ih.addComponent hfresh
  | dependency fromId toId _ hadded ih => exact ih.addDependency hadded

/-! ### The search for a cycle -/

structure Lists (l : List ComponentId) (s : Finset ComponentId) : Prop where
  nodup : l.Nodup
  mem : ∀ a, a ∈ l ↔ a ∈ s

structure Orders (graph : ComponentGraph) where
  ids : List ComponentId
  degrees : List ComponentId
  dependencies : ComponentId → List ComponentId
  dependents : ComponentId → List ComponentId
  /-- The order in which a table that is filled for one level is emptied. -/
  drained : ℕ → Finset ComponentId → List ComponentId
  lists_ids : Lists ids graph.ids
  lists_degrees : Lists degrees graph.ids
  lists_dependencies : ∀ a, Lists (dependencies a) (graph.dependencies a)
  lists_dependents : ∀ a, Lists (dependents a) (graph.dependents a)
  lists_drained : ∀ level s, Lists (drained level s) s

noncomputable def Orders.any (graph : ComponentGraph) : graph.Orders where
  ids := graph.ids.toList
  degrees := graph.ids.toList
  dependencies a := (graph.dependencies a).toList
  dependents a := (graph.dependents a).toList
  drained _ s := s.toList
  lists_ids := ⟨Finset.nodup_toList _, fun _ => Finset.mem_toList⟩
  lists_degrees := ⟨Finset.nodup_toList _, fun _ => Finset.mem_toList⟩
  lists_dependencies _ := ⟨Finset.nodup_toList _, fun _ => Finset.mem_toList⟩
  lists_dependents _ := ⟨Finset.nodup_toList _, fun _ => Finset.mem_toList⟩
  lists_drained _ _ := ⟨Finset.nodup_toList _, fun _ => Finset.mem_toList⟩

def Acyclic (graph : ComponentGraph) : Prop :=
  ∀ a, ¬ Relation.TransGen (fun a b => b ∈ graph.dependencies a) a a

/-- `validate`; the search goes no deeper than there are components. -/
def validate (graph : ComponentGraph) (orders : graph.Orders) :
    Option (Except CompilerError Unit) :=
  (DepthFirst.searchAll orders.dependencies graph.ids.card orders.ids ⟨∅, ∅⟩).map fun found =>
    match found.1 with
    | some back => .error (.circularDependency back)
    | none => .ok ()

theorem validate_spec {graph : ComponentGraph} (h : graph.Mirrored) (orders : graph.Orders) :
    ∃ verdict, graph.validate orders = some verdict ∧ (verdict = .ok () ↔ graph.Acyclic) := by
  have hends : ∀ a, ∀ b ∈ orders.dependencies a, b ∈ graph.dependencies a :=
    fun a b => ((orders.lists_dependencies a).mem b).mp
  obtain ⟨found, hfound⟩ := DepthFirst.searchAll_ends
    (fun a _ b hb => h.end_mem a b (hends a b hb)) (le_refl graph.ids.card) orders.ids
    (fun a => (orders.lists_ids.mem a).mp) (⟨∅, ∅⟩ : DepthFirst.Marks ComponentId)
  have hedge : DepthFirst.Edge orders.dependencies = fun a b => b ∈ graph.dependencies a := by
    funext a b
    exact propext ((orders.lists_dependencies a).mem b)
  have hnone := DepthFirst.searchAll_eq_none_iff
    (fun a b hb => (orders.lists_ids.mem a).mpr (h.source_mem a b (hends a b hb))) hfound
  rw [hedge] at hnone
  rw [validate, hfound]
  refine ⟨_, rfl, ?_⟩
  cases hback : found.1 with
  | none =>
    simp only [hback, true_iff]
    exact hnone.mp hback
  | some back =>
    simp only [hback, reduceCtorEq, false_iff]
    intro hacyclic
    rw [hnone.mpr hacyclic] at hback
    cases hback

/-! ### The graph and its mirror, without a cycle -/

def Mirrored.dag {graph : ComponentGraph} (h : graph.Mirrored) (hacyclic : graph.Acyclic) :
    Acyclic.Dag ComponentId where
  nodes := graph.ids
  ends := graph.dependencies
  source_mem := h.source_mem
  end_mem := h.end_mem
  acyclic := hacyclic

def Mirrored.codag {graph : ComponentGraph} (h : graph.Mirrored) (hacyclic : graph.Acyclic) :
    Acyclic.Dag ComponentId where
  nodes := graph.ids
  ends := graph.dependents
  source_mem := fun a b hb => h.end_mem b a ((h.mirror b a).mpr hb)
  end_mem := fun a b hb => h.source_mem b a ((h.mirror b a).mpr hb)
  acyclic := by
    intro a hcycle
    refine hacyclic a (Relation.transGen_swap.mp ?_)
    exact Relation.TransGen.mono (fun b c hc => (h.mirror c b).mpr hc) _ _ hcycle

end ComponentGraph

end Albedo.Analysis
