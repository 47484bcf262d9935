import Mathlib.Algebra.BigOperators.Group.List.Basic
import Mathlib.Algebra.GroupWithZero.Nat
import Mathlib.Data.List.Flatten
import Mathlib.Data.List.Nodup
import Mathlib.Logic.Relation

/-!
# Walks down an acyclic graph

Two ways to go over a graph whose edges all lead down. One remembers nothing and comes to a node
once for each way to it. The other keeps the nodes it has been to and a stack, and comes to each
node it can reach once.
-/
namespace Albedo.Walks

structure Dag (α : Type*) where
  next : α → List α
  rank : α → ℕ
  descends : ∀ a, ∀ b ∈ next a, rank b < rank a

namespace Dag

variable {α β σ : Type*} (g : Dag α) {a b c : α} {fuel : ℕ} {stack visited : List α}

def Reaches (a b : α) : Prop := Relation.ReflTransGen (fun a b => b ∈ g.next a) a b

theorem Reaches.rank_le {g : Dag α} (h : g.Reaches a b) : g.rank b ≤ g.rank a := by
  induction h with
  | refl => exact Nat.le_refl _
  | tail _ hedge ih => exact Nat.le_trans (Nat.le_of_lt (g.descends _ _ hedge)) ih

theorem Reaches.mono {g g' : Dag α} (hedges : ∀ a, ∀ b ∈ g.next a, b ∈ g'.next a)
    (h : g.Reaches a b) : g'.Reaches a b := by
  induction h with
  | refl => exact Relation.ReflTransGen.refl
  | tail _ hedge ih => exact ih.tail (hedges _ _ hedge)

theorem induction {motive : α → Prop} (step : ∀ a, (∀ b ∈ g.next a, motive b) → motive a) (a : α) :
    motive a := by
  obtain ⟨m, hm⟩ : ∃ m, g.rank a = m := ⟨_, rfl⟩
  induction m using Nat.strongRecOn generalizing a with
  | _ m ih => exact step a fun b hb => ih _ (hm ▸ g.descends a b hb) b rfl

/-! ### Every way -/

def unfoldFuel : ℕ → α → List α
  | 0, _ => []
  | fuel + 1, a => a :: (g.next a).flatMap (unfoldFuel fuel)

/-- Each node the walk comes to, as often as there are ways to it. -/
def unfold (a : α) : List α := g.unfoldFuel (g.rank a + 1) a

theorem unfoldFuel_eq (h : g.rank a < fuel) : g.unfoldFuel fuel a = g.unfold a := by
  unfold unfold
  induction a using g.induction generalizing fuel with
  | step a ih =>
      cases fuel with
      | zero => omega
      | succ fuel =>
          simp only [unfoldFuel]
          congr 1
          refine List.flatMap_congr fun b hb => ?_
          have hlt := g.descends a b hb
          have hfuel : g.rank b < fuel := by omega
          rw [ih b hb hfuel, ih b hb hlt]

theorem unfold_eq (a : α) : g.unfold a = a :: (g.next a).flatMap g.unfold := by
  conv_lhs => unfold unfold unfoldFuel
  congr 1
  exact List.flatMap_congr fun b hb => g.unfoldFuel_eq (g.descends a b hb)

theorem mem_unfold : b ∈ g.unfold a ↔ g.Reaches a b := by
  constructor
  · induction a using g.induction with
    | step a ih =>
        intro h
        rw [unfold_eq, List.mem_cons, List.mem_flatMap] at h
        rcases h with rfl | ⟨c, hc, hb⟩
        · exact Relation.ReflTransGen.refl
        · exact Relation.ReflTransGen.head hc (ih c hc hb)
  · intro h
    induction h using Relation.ReflTransGen.head_induction_on with
    | refl =>
        rw [unfold_eq]
        exact List.mem_cons_self
    | head hedge _ ih =>
        rw [unfold_eq]
        exact List.mem_cons_of_mem _ (List.mem_flatMap.mpr ⟨_, hedge, ih⟩)

/-- Nothing is added to the nodes a walk starts from exactly where no edge leaves them. -/
theorem flatMap_unfold_eq_self {l : List α} :
    l.flatMap g.unfold = l ↔ ∀ a ∈ l, g.next a = [] := by
  induction l with
  | nil => simp
  | cons a l ih =>
      have hgrows : l.length ≤ (l.flatMap g.unfold).length := by
        clear ih
        induction l with
        | nil => exact Nat.zero_le _
        | cons b l ih =>
            rw [List.flatMap_cons, unfold_eq, List.length_append, List.length_cons,
              List.length_cons]
            omega
      rw [List.flatMap_cons, unfold_eq, List.cons_append, List.forall_mem_cons]
      constructor
      · intro h
        have htail := (List.cons.inj h).2
        have hlength := congrArg List.length htail
        rw [List.length_append] at hlength
        have hnone : (g.next a).flatMap g.unfold = [] := by
          rw [← List.length_eq_zero_iff]
          omega
        rw [hnone, List.nil_append] at htail
        refine ⟨?_, ih.mp htail⟩
        cases hnext : g.next a with
        | nil => rfl
        | cons b rest =>
            rw [hnext, List.flatMap_cons, unfold_eq] at hnone
            cases hnone
      · rintro ⟨hnext, hrest⟩
        rw [hnext, ih.mpr hrest]
        rfl

theorem unfold_sublist {g g' : Dag α} (h : ∀ a, (g.next a).Sublist (g'.next a)) (a : α) :
    (g.unfold a).Sublist (g'.unfold a) := by
  induction a using g.induction with
  | step a ih =>
      rw [unfold_eq, unfold_eq]
      exact ((List.Sublist.flatMap_right _ ih).trans ((h a).flatMap _)).cons_cons a

theorem unfold_map {g : Dag α} {g' : Dag β} {f : α → β}
    (h : ∀ a, g'.next (f a) = (g.next a).map f) (a : α) :
    g'.unfold (f a) = (g.unfold a).map f := by
  induction a using g.induction with
  | step a ih =>
      rw [unfold_eq, unfold_eq, h, List.flatMap_map, List.map_cons, List.map_flatMap]
      congr 1
      exact List.flatMap_congr ih

section Ways

variable [DecidableEq α]

def ways (a b : α) : ℕ := (g.unfold a).count b

theorem ways_eq_zero : g.ways a b = 0 ↔ ¬ g.Reaches a b := by
  rw [ways, List.count_eq_zero, mem_unfold]

end Ways

/-! ### Each node once -/

def size (stack : List α) : ℕ := (stack.map fun a => (g.unfold a).length).sum

theorem size_cons (a : α) (stack : List α) :
    g.size (a :: stack) = g.size ((g.next a).reverse ++ stack) + 1 := by
  have hunfold : (g.unfold a).length = ((g.next a).map fun b => (g.unfold b).length).sum + 1 := by
    rw [unfold_eq, List.length_cons, List.length_flatMap]
  simp only [size, List.map_cons, List.sum_cons, List.map_append, List.sum_append,
    List.map_reverse, List.sum_reverse, hunfold]
  omega

/-- What a sweep comes to: new nodes, each once, with all that stood on the stack and all that
they lead to among them or come to before. -/
structure Swept (stack visited found : List α) : Prop where
  nodup : found.Nodup
  fresh : ∀ a ∈ found, a ∉ visited
  reached : ∀ a ∈ found, ∃ r ∈ stack, g.Reaches r a
  emptied : ∀ a ∈ stack, a ∈ found ∨ a ∈ visited
  closed : ∀ a ∈ found, ∀ b ∈ g.next a, b ∈ found ∨ b ∈ visited

/-- Where what was come to before leads nowhere but to itself and the stack, a sweep comes to all
that is left to reach. -/
theorem Swept.mem_iff {g : Dag α} {found : List α} (h : g.Swept stack visited found)
    (hclosed : ∀ a ∈ visited, ∀ b ∈ g.next a, b ∈ visited ∨ b ∈ stack) (a : α) :
    a ∈ found ∨ a ∈ visited ↔ a ∈ visited ∨ ∃ r ∈ stack, g.Reaches r a := by
  constructor
  · rintro (hfound | hvisited)
    · exact Or.inr (h.reached a hfound)
    · exact Or.inl hvisited
  · rintro (hvisited | ⟨r, hr, hreach⟩)
    · exact Or.inr hvisited
    · induction hreach with
      | refl => exact h.emptied r hr
      | tail _ hedge ih =>
          rcases ih with hfound | hvisited
          · exact h.closed _ hfound _ hedge
          · rcases hclosed _ hvisited _ hedge with hvisited | hstack
            · exact Or.inr hvisited
            · exact h.emptied _ hstack

section Sweep

variable [DecidableEq α] (emit : α → σ → σ)

/-- The next node is the last one put on the stack. What has been come to is kept, newest first. -/
def sweepFuel : ℕ → List α → List α × σ → List α × σ
  | 0, _, s => s
  | _ + 1, [], s => s
  | fuel + 1, a :: stack, s =>
      if a ∈ s.1 then sweepFuel fuel stack s
      else sweepFuel fuel ((g.next a).reverse ++ stack) (a :: s.1, emit a s.2)

def sweep (stack : List α) (s : List α × σ) : List α × σ :=
  g.sweepFuel emit (g.size stack) stack s

theorem sweepFuel_spec (hfuel : g.size stack ≤ fuel) (out : σ) :
    ∃ found, g.Swept stack visited found ∧ g.sweepFuel emit fuel stack (visited, out) =
      (found.reverse ++ visited, found.foldl (fun out a => emit a out) out) := by
  induction fuel generalizing stack visited out with
  | zero =>
      cases stack with
      | nil => exact ⟨[], ⟨List.nodup_nil, by simp, by simp, by simp, by simp⟩, rfl⟩
      | cons a stack =>
          rw [size_cons] at hfuel
          omega
  | succ fuel ih =>
      cases stack with
      | nil => exact ⟨[], ⟨List.nodup_nil, by simp, by simp, by simp, by simp⟩, rfl⟩
      | cons a stack =>
          rw [size_cons] at hfuel
          by_cases hseen : a ∈ visited
          · have hless : g.size stack ≤ fuel := by
              simp only [size, List.map_append, List.sum_append] at hfuel ⊢
              omega
            obtain ⟨found, hswept, hrun⟩ := @ih stack visited hless out
            refine ⟨found, ?_, by rw [sweepFuel, if_pos hseen, hrun]⟩
            exact {
              nodup := hswept.nodup
              fresh := hswept.fresh
              reached := fun b hb => (hswept.reached b hb).imp
                fun r hr => ⟨List.mem_cons_of_mem _ hr.1, hr.2⟩
              emptied := List.forall_mem_cons.mpr ⟨Or.inr hseen, hswept.emptied⟩
              closed := hswept.closed }
          · obtain ⟨found, hswept, hrun⟩ := @ih ((g.next a).reverse ++ stack) (a :: visited)
              (Nat.le_of_succ_le_succ hfuel) (emit a out)
            refine ⟨a :: found, ?_, ?_⟩
            · have hgone : ∀ b, b ∈ found ∨ b ∈ a :: visited → b ∈ a :: found ∨ b ∈ visited := by
                intro b hb
                simp only [List.mem_cons] at hb ⊢
                tauto
              exact {
                nodup := List.nodup_cons.mpr
                  ⟨fun hmem => hswept.fresh a hmem List.mem_cons_self, hswept.nodup⟩
                fresh := List.forall_mem_cons.mpr ⟨hseen, fun b hb hold =>
                  hswept.fresh b hb (List.mem_cons_of_mem _ hold)⟩
                reached := by
                  refine List.forall_mem_cons.mpr
                    ⟨⟨a, List.mem_cons_self, Relation.ReflTransGen.refl⟩, fun b hb => ?_⟩
                  obtain ⟨r, hr, hreach⟩ := hswept.reached b hb
                  rcases List.mem_append.mp hr with hnext | hstack
                  · exact ⟨a, List.mem_cons_self,
                      Relation.ReflTransGen.head (List.mem_reverse.mp hnext) hreach⟩
                  · exact ⟨r, List.mem_cons_of_mem _ hstack, hreach⟩
                emptied := by
                  refine List.forall_mem_cons.mpr ⟨Or.inl List.mem_cons_self, fun b hb => ?_⟩
                  exact hgone b (hswept.emptied b (List.mem_append_right _ hb))
                closed := by
                  refine List.forall_mem_cons.mpr ⟨fun b hb => ?_, fun b hb c hc => ?_⟩
                  · exact hgone b
                      (hswept.emptied b (List.mem_append_left _ (List.mem_reverse.mpr hb)))
                  · exact hgone c (hswept.closed b hb c hc) }
            · rw [sweepFuel, if_neg hseen, hrun]
              simp

theorem sweep_spec (stack visited : List α) (out : σ) :
    ∃ found, g.Swept stack visited found ∧ g.sweep emit stack (visited, out) =
      (found.reverse ++ visited, found.foldl (fun out a => emit a out) out) :=
  g.sweepFuel_spec emit (Nat.le_refl _) out

end Sweep

end Dag

end Albedo.Walks
