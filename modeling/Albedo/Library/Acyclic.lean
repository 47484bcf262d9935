import Mathlib.Algebra.BigOperators.Group.List.Basic
import Mathlib.Algebra.Order.Monoid.Canonical.Defs
import Mathlib.Data.Finset.Lattice.Fold
import Mathlib.Data.Finset.Powerset
import Mathlib.Logic.Relation
import Mathlib.Order.Lattice.Nat
import Mathlib.Order.WellFounded

/-!
# Finite graphs without a cycle

Along the edges of a finite graph without a cycle ever fewer nodes can be reached, so that one may
recurse on the ends of a node's edges: for how deep the graph is below a node, and for what the
dearest way down from it costs.
-/
namespace Albedo.Acyclic

variable {α : Type*}

def Edge (ends : α → Finset α) (a b : α) : Prop := b ∈ ends a

/-- A graph whose edges join some nodes, and none of them back to itself. -/
structure Dag (α : Type*) where
  nodes : Finset α
  ends : α → Finset α
  source_mem : ∀ a b, b ∈ ends a → a ∈ nodes
  end_mem : ∀ a b, b ∈ ends a → b ∈ nodes
  acyclic : ∀ a, ¬ Relation.TransGen (Edge ends) a a

namespace Dag
variable (G : Dag α)

theorem mem_of_reaches {a b : α} (h : Relation.TransGen (Edge G.ends) a b) : b ∈ G.nodes := by
  induction h with
  | single h => exact G.end_mem _ _ h
  | tail _ h _ => exact G.end_mem _ _ h

open Classical in
noncomputable def below (a : α) : Finset α :=
  G.nodes.filter (Relation.TransGen (Edge G.ends) a)

theorem mem_below {a b : α} : b ∈ G.below a ↔ Relation.TransGen (Edge G.ends) a b := by
  classical
  rw [below, Finset.mem_filter]
  exact and_iff_right_of_imp G.mem_of_reaches

theorem card_below_lt {a b : α} (h : b ∈ G.ends a) : (G.below b).card < (G.below a).card := by
  apply Finset.card_lt_card
  rw [Finset.ssubset_iff_of_subset]
  · refine ⟨b, G.mem_below.mpr (.single h), ?_⟩
    intro hb
    exact G.acyclic b (G.mem_below.mp hb)
  · intro c hc
    exact G.mem_below.mpr (.head h (G.mem_below.mp hc))

theorem card_below_lt_nodes {a : α} (h : a ∈ G.nodes) : (G.below a).card < G.nodes.card := by
  apply Finset.card_lt_card
  rw [Finset.ssubset_iff_of_subset]
  · exact ⟨a, h, fun ha => G.acyclic a (G.mem_below.mp ha)⟩
  · intro b hb
    exact G.mem_of_reaches (G.mem_below.mp hb)

theorem wellFounded : WellFounded fun b a => b ∈ G.ends a :=
  Subrelation.wf (fun h => G.card_below_lt h) (measure fun a => (G.below a).card).wf

theorem induction {motive : α → Prop} (step : ∀ a, (∀ b ∈ G.ends a, motive b) → motive a) (a : α) :
    motive a :=
  G.wellFounded.induction a step

/-! ### How deep the graph is below a node -/

noncomputable def depth : α → ℕ :=
  G.wellFounded.fix fun a below => (G.ends a).attach.sup fun b => below b.1 b.2 + 1

theorem depth_eq (a : α) : G.depth a = (G.ends a).sup fun b => G.depth b + 1 := by
  rw [depth, G.wellFounded.fix_eq]
  exact Finset.sup_attach (G.ends a) fun b => G.depth b + 1

theorem depth_lt {a b : α} (h : b ∈ G.ends a) : G.depth b < G.depth a := by
  rw [G.depth_eq a]
  exact Finset.le_sup (f := fun b => G.depth b + 1) h

theorem depth_le_card_below (a : α) : G.depth a ≤ (G.below a).card := by
  induction a using G.induction with
  | step a ih =>
    rw [G.depth_eq, Finset.sup_le_iff]
    intro b hb
    exact (Nat.add_le_add_right (ih b hb) 1).trans (G.card_below_lt hb)

theorem depth_lt_card {a : α} (h : a ∈ G.nodes) : G.depth a < G.nodes.card :=
  (G.depth_le_card_below a).trans_lt (G.card_below_lt_nodes h)

theorem depth_eq_zero_iff (a : α) : G.depth a = 0 ↔ G.ends a = ∅ := by
  constructor
  · intro hzero
    rw [Finset.eq_empty_iff_forall_notMem]
    intro b hb
    have := G.depth_lt hb
    omega
  · intro hnone
    rw [G.depth_eq, hnone, Finset.sup_empty]
    rfl

theorem depth_eq_succ_iff (a : α) (k : ℕ) : G.depth a = k + 1 ↔
    (∃ b ∈ G.ends a, G.depth b = k) ∧ ∀ b ∈ G.ends a, G.depth b ≤ k := by
  have hle (n : ℕ) : G.depth a ≤ n ↔ ∀ b ∈ G.ends a, G.depth b + 1 ≤ n := by
    rw [G.depth_eq a, Finset.sup_le_iff]
  constructor
  · intro h
    have hall := (hle (k + 1)).mp h.le
    have hsome : ¬ G.depth a ≤ k := by omega
    rw [hle] at hsome
    push Not at hsome
    obtain ⟨b, hb, hdeep⟩ := hsome
    refine ⟨⟨b, hb, ?_⟩, ?_⟩
    · have := hall b hb
      omega
    · intro c hc
      exact Nat.le_of_succ_le_succ (hall c hc)
  · rintro ⟨⟨b, hb, hdepth⟩, hall⟩
    have habove := G.depth_lt hb
    have hbelow := (hle (k + 1)).mpr fun c hc => Nat.succ_le_succ (hall c hc)
    omega

/-! ### The dearest way down -/

section Cost
variable {R : Type*} [AddCommMonoid R] [LinearOrder R] [IsOrderedAddMonoid R] [OrderBot R]
  (cost : α → R)

noncomputable def dearest : α → R :=
  G.wellFounded.fix fun a below => cost a + (G.ends a).attach.sup fun b => below b.1 b.2

omit [IsOrderedAddMonoid R] in
theorem dearest_eq (a : α) :
    G.dearest cost a = cost a + (G.ends a).sup (G.dearest cost) := by
  rw [dearest, G.wellFounded.fix_eq]
  exact congrArg (cost a + ·) (Finset.sup_attach (G.ends a) (G.dearest cost))

theorem sum_le_dearest (hbot : (⊥ : R) = 0) (a : α) (rest : List α)
    (hway : (a :: rest).IsChain fun a b => b ∈ G.ends a) :
    ((a :: rest).map cost).sum ≤ G.dearest cost a := by
  induction rest generalizing a with
  | nil =>
    rw [G.dearest_eq, List.map_singleton, List.sum_singleton]
    exact le_add_of_nonneg_right (hbot ▸ bot_le)
  | cons b rest ih =>
    rw [List.isChain_cons_cons] at hway
    rw [G.dearest_eq, List.map_cons, List.sum_cons]
    exact add_le_add_right ((ih b hway.2).trans (Finset.le_sup hway.1)) (cost a)

end Cost

end Dag

end Albedo.Acyclic
