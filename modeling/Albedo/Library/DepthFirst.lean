import Mathlib.Data.Finset.Card
import Mathlib.Logic.Relation

/-!
# Depth-first search for a cycle

A search goes from node to node. It keeps the nodes it has come to and those it is still in, and
reports an edge back to one of the latter. On a finite graph the search ends, and it reports an edge
where the graph has a cycle, and there only.
-/
namespace Albedo.DepthFirst

variable {α : Type*} [DecidableEq α]

/-- The nodes come to, and those the search is in. -/
structure Marks (α : Type*) where
  visited : Finset α
  stack : Finset α

def Marks.enter (m : Marks α) (node : α) : Marks α := ⟨insert node m.visited, insert node m.stack⟩

def Marks.leave (m : Marks α) (node : α) : Marks α := ⟨m.visited, m.stack.erase node⟩

abbrev Found (α : Type*) := Option (α × α) × Marks α

/-- The edges of one node, in order, each new end of one searched by `visit`. -/
def scan (visit : α → Marks α → Option (Found α)) (node : α) : List α → Marks α → Option (Found α)
  | [], m => some (none, m.leave node)
  | neighbor :: rest, m =>
      if neighbor ∉ m.visited then
        match visit neighbor m with
        | none => none
        | some (some back, m) => some (some back, m)
        | some (none, m) => scan visit node rest m
      else if neighbor ∈ m.stack then some (some (node, neighbor), m)
      else scan visit node rest m

/-- The search from one node, or `none` where the fuel runs out. -/
def search (next : α → List α) : ℕ → α → Marks α → Option (Found α)
  | 0, _, _ => none
  | fuel + 1, node, m => scan (search next fuel) node (next node) (m.enter node)

def searchAll (next : α → List α) (fuel : ℕ) : List α → Marks α → Option (Found α)
  | [], m => some (none, m)
  | node :: rest, m =>
      if node ∉ m.visited then
        match search next fuel node m with
        | none => none
        | some (some back, m) => some (some back, m)
        | some (none, m) => searchAll next fuel rest m
      else searchAll next fuel rest m

/-! ### The search ends -/

section Ends

variable {next : α → List α}

theorem scan_grows {visit : α → Marks α → Option (Found α)} {node : α}
    (hvisit : ∀ neighbor m found, visit neighbor m = some found → m.visited ⊆ found.2.visited)
    (neighbors : List α) (m : Marks α) (found : Found α)
    (h : scan visit node neighbors m = some found) : m.visited ⊆ found.2.visited := by
  induction neighbors generalizing m with
  | nil =>
      cases h
      exact Finset.Subset.refl _
  | cons neighbor rest ih =>
      unfold scan at h
      by_cases hnew : neighbor ∉ m.visited
      · rw [if_pos hnew] at h
        cases hstep : visit neighbor m with
        | none =>
            rw [hstep] at h
            cases h
        | some result =>
            have hgrows := hvisit neighbor m result hstep
            rw [hstep, ← Prod.eta result] at h
            cases hback : result.1 with
            | some back =>
                rw [hback] at h
                cases h
                exact hgrows
            | none =>
                rw [hback] at h
                exact hgrows.trans (ih result.2 h)
      · rw [if_neg hnew] at h
        by_cases hin : neighbor ∈ m.stack
        · rw [if_pos hin] at h
          cases h
          exact Finset.Subset.refl _
        · rw [if_neg hin] at h
          exact ih m h

theorem search_grows (fuel : ℕ) (node : α) (m : Marks α) (found : Found α)
    (h : search next fuel node m = some found) : m.visited ⊆ found.2.visited := by
  induction fuel generalizing node m found with
  | zero => cases h
  | succ fuel ih =>
      have hgrows := scan_grows (fun neighbor m found => ih neighbor m found) (next node)
        (m.enter node) found h
      exact (Finset.subset_insert node m.visited).trans hgrows

theorem scan_ends {visit : α → Marks α → Option (Found α)} {node : α} {come : Finset α}
    (hgrows : ∀ neighbor m found, visit neighbor m = some found → m.visited ⊆ found.2.visited)
    (neighbors : List α) (hvisit : ∀ neighbor ∈ neighbors, ∀ m : Marks α, come ⊆ m.visited →
      neighbor ∉ m.visited → ∃ found, visit neighbor m = some found)
    (m : Marks α) (hm : come ⊆ m.visited) : ∃ found, scan visit node neighbors m = some found := by
  induction neighbors generalizing m with
  | nil => exact ⟨_, rfl⟩
  | cons neighbor rest ih =>
      rw [List.forall_mem_cons] at hvisit
      unfold scan
      by_cases hnew : neighbor ∉ m.visited
      · rw [if_pos hnew]
        obtain ⟨result, hstep⟩ := hvisit.1 m hm hnew
        rw [hstep, ← Prod.eta result]
        cases hback : result.1 with
        | some back => exact ⟨_, rfl⟩
        | none => exact ih hvisit.2 result.2 (hm.trans (hgrows neighbor m result hstep))
      · rw [if_neg hnew]
        by_cases hin : neighbor ∈ m.stack
        · exact ⟨_, if_pos hin⟩
        · rw [if_neg hin]
          exact ih hvisit.2 m hm

theorem search_ends {nodes : Finset α} (hclosed : ∀ a ∈ nodes, ∀ b ∈ next a, b ∈ nodes) (fuel : ℕ)
    (node : α) (hnode : node ∈ nodes) (m : Marks α) (hnew : node ∉ m.visited)
    (hfuel : (nodes \ m.visited).card ≤ fuel) : ∃ found, search next fuel node m = some found := by
  induction fuel generalizing node m with
  | zero =>
      have hin : node ∈ nodes \ m.visited := Finset.mem_sdiff.mpr ⟨hnode, hnew⟩
      have hpos := Finset.card_pos.mpr ⟨node, hin⟩
      omega
  | succ fuel ih =>
      have hless : (nodes \ (m.enter node).visited).card < (nodes \ m.visited).card := by
        apply Finset.card_lt_card
        rw [Finset.ssubset_iff_of_subset]
        · refine ⟨node, Finset.mem_sdiff.mpr ⟨hnode, hnew⟩, ?_⟩
          intro hin
          exact (Finset.mem_sdiff.mp hin).2 (Finset.mem_insert_self node m.visited)
        · exact Finset.sdiff_subset_sdiff (Finset.Subset.refl _) (Finset.subset_insert _ _)
      apply scan_ends (search_grows fuel) (next node) _ (m.enter node) (Finset.Subset.refl _)
      intro neighbor hneighbor m' hm' hnew'
      apply ih neighbor (hclosed node hnode neighbor hneighbor) m' hnew'
      have hfew : (nodes \ m'.visited).card ≤ (nodes \ (m.enter node).visited).card :=
        Finset.card_le_card (Finset.sdiff_subset_sdiff (Finset.Subset.refl _) hm')
      omega

theorem searchAll_ends {nodes : Finset α} (hclosed : ∀ a ∈ nodes, ∀ b ∈ next a, b ∈ nodes)
    {fuel : ℕ} (hfuel : nodes.card ≤ fuel) (roots : List α) (hroots : ∀ a ∈ roots, a ∈ nodes)
    (m : Marks α) : ∃ found, searchAll next fuel roots m = some found := by
  induction roots generalizing m with
  | nil => exact ⟨_, rfl⟩
  | cons root rest ih =>
      rw [List.forall_mem_cons] at hroots
      unfold searchAll
      by_cases hnew : root ∉ m.visited
      · rw [if_pos hnew]
        have hfew : (nodes \ m.visited).card ≤ fuel :=
          (Finset.card_le_card Finset.sdiff_subset).trans hfuel
        obtain ⟨result, hstep⟩ := search_ends hclosed fuel root hroots.1 m hnew hfew
        rw [hstep, ← Prod.eta result]
        cases hback : result.1 with
        | some back => exact ⟨_, rfl⟩
        | none => exact ih hroots.2 result.2
      · rw [if_neg hnew]
        exact ih hroots.2 m

end Ends

/-! ### An edge back closes a cycle -/

section Cycles

variable {next : α → List α}

def Edge (next : α → List α) (a b : α) : Prop := b ∈ next a

structure LeadsTo (next : α → List α) (m : Marks α) (node : α) : Prop where
  stacked : m.stack ⊆ m.visited
  leads : ∀ a ∈ m.stack, Relation.ReflTransGen (Edge next) a node

/-- What a search leaves: the same nodes entered, or an edge back that closes a cycle. -/
structure Leaves (next : α → List α) (m : Marks α) (found : Found α) : Prop where
  stacked : found.2.stack ⊆ found.2.visited
  restores : found.1 = none → found.2.stack = m.stack
  closes : ∀ a b, found.1 = some (a, b) → Edge next a b ∧ Relation.ReflTransGen (Edge next) b a

theorem scan_leaves {visit : α → Marks α → Option (Found α)} {node : α}
    (hvisit : ∀ neighbor m found, neighbor ∉ m.visited → LeadsTo next m neighbor →
      visit neighbor m = some found → Leaves next m found)
    (neighbors : List α) (hnext : ∀ b ∈ neighbors, Edge next node b) (m : Marks α)
    (found : Found α) (hm : LeadsTo next m node) (h : scan visit node neighbors m = some found) :
    found.2.stack ⊆ found.2.visited ∧
      (found.1 = none → found.2.stack = m.stack.erase node) ∧
      ∀ a b, found.1 = some (a, b) → Edge next a b ∧ Relation.ReflTransGen (Edge next) b a := by
  induction neighbors generalizing m with
  | nil =>
      cases h
      refine ⟨?_, fun _ => rfl, ?_⟩
      · exact (Finset.erase_subset _ _).trans hm.stacked
      · intro a b hback
        cases hback
  | cons neighbor rest ih =>
      rw [List.forall_mem_cons] at hnext
      unfold scan at h
      by_cases hnew : neighbor ∉ m.visited
      · rw [if_pos hnew] at h
        -- what leads here leads on to the neighbor
        have hlead : LeadsTo next m neighbor :=
          ⟨hm.stacked, fun a ha => (hm.leads a ha).tail hnext.1⟩
        cases hstep : visit neighbor m with
        | none =>
            rw [hstep] at h
            cases h
        | some result =>
            have hleaves := hvisit neighbor m result hnew hlead hstep
            rw [hstep] at h
            cases hback : result.1 with
            | some back =>
                have hfound : found = result := by
                  rw [← Prod.eta result, hback] at h
                  rw [← Prod.eta result, hback]
                  exact (Option.some.inj h).symm
                subst hfound
                refine ⟨hleaves.stacked, ?_, hleaves.closes⟩
                intro hnone
                rw [hback] at hnone
                cases hnone
            | none =>
                have hstack := hleaves.restores hback
                rw [← Prod.eta result, hback] at h
                have hrest : LeadsTo next result.2 node := by
                  refine ⟨hleaves.stacked, ?_⟩
                  rw [hstack]
                  exact hm.leads
                obtain ⟨hstacked, hrestores, hcloses⟩ := ih hnext.2 result.2 hrest h
                rw [hstack] at hrestores
                exact ⟨hstacked, hrestores, hcloses⟩
      · rw [if_neg hnew] at h
        by_cases hin : neighbor ∈ m.stack
        · rw [if_pos hin] at h
          cases h
          refine ⟨hm.stacked, ?_, ?_⟩
          · intro hnone
            cases hnone
          · intro a b hback
            cases hback
            exact ⟨hnext.1, hm.leads neighbor hin⟩
        · rw [if_neg hin] at h
          exact ih hnext.2 m hm h

theorem search_leaves (fuel : ℕ) (node : α) (m : Marks α) (found : Found α)
    (hnew : node ∉ m.visited) (hm : LeadsTo next m node)
    (h : search next fuel node m = some found) : Leaves next m found := by
  induction fuel generalizing node m found with
  | zero => cases h
  | succ fuel ih =>
      have hentered : LeadsTo next (m.enter node) node := by
        refine ⟨Finset.insert_subset_insert node hm.stacked, ?_⟩
        intro a ha
        rcases Finset.mem_insert.mp ha with rfl | ha
        · exact Relation.ReflTransGen.refl
        · exact hm.leads a ha
      obtain ⟨hstacked, hrestores, hcloses⟩ :=
        scan_leaves (fun neighbor m found => ih neighbor m found) (next node) (fun b hb => hb)
          (m.enter node) found hentered h
      refine ⟨hstacked, ?_, hcloses⟩
      intro hnone
      rw [hrestores hnone]
      exact Finset.erase_insert fun hin => hnew (hm.stacked hin)

theorem searchAll_closes (fuel : ℕ) (nodes : List α) (m : Marks α) (found : Found α)
    (hm : m.stack = ∅) (h : searchAll next fuel nodes m = some found) :
    ∀ a b, found.1 = some (a, b) → Edge next a b ∧ Relation.ReflTransGen (Edge next) b a := by
  induction nodes generalizing m with
  | nil =>
      cases h
      intro a b hback
      cases hback
  | cons node rest ih =>
      unfold searchAll at h
      by_cases hnew : node ∉ m.visited
      · rw [if_pos hnew] at h
        have hlead : LeadsTo next m node := by
          constructor
          · rw [hm]
            exact Finset.empty_subset _
          · intro a ha
            rw [hm] at ha
            exact absurd ha (Finset.notMem_empty a)
        cases hstep : search next fuel node m with
        | none =>
            rw [hstep] at h
            cases h
        | some result =>
            have hleaves := search_leaves fuel node m result hnew hlead hstep
            rw [hstep, ← Prod.eta result] at h
            cases hback : result.1 with
            | some back =>
                rw [hback] at h
                cases h
                intro a b hab
                exact hleaves.closes a b (hback.trans hab)
            | none =>
                rw [hback] at h
                exact ih result.2 ((hleaves.restores hback).trans hm) h
      · rw [if_neg hnew] at h
        exact ih m hm h

end Cycles

/-! ### A search that reports nothing has met no cycle -/

section Completes

variable {next : α → List α}

/-- The search has come to this node and is done with it. -/
def Marks.Finished (m : Marks α) (a : α) : Prop := a ∈ m.visited ∧ a ∉ m.stack

/-- The finished nodes lead to finished nodes only, and none of them back to itself. -/
structure Settled (next : α → List α) (m : Marks α) : Prop where
  stacked : m.stack ⊆ m.visited
  closed : ∀ a, m.Finished a → ∀ b, Edge next a b → m.Finished b
  acyclic : ∀ a, m.Finished a → ¬ Relation.TransGen (Edge next) a a

theorem Settled.enter {m : Marks α} {node : α} (h : Settled next m) (hnew : node ∉ m.visited) :
    Settled next (m.enter node) := by
  have hsame (a : α) : (m.enter node).Finished a ↔ m.Finished a := by
    simp only [Marks.Finished, Marks.enter, Finset.mem_insert, not_or]
    constructor
    · rintro ⟨hvisited, hne, hstack⟩
      exact ⟨hvisited.resolve_left hne, hstack⟩
    · rintro ⟨hvisited, hstack⟩
      exact ⟨.inr hvisited, fun heq => hnew (heq ▸ hvisited), hstack⟩
  refine ⟨Finset.insert_subset_insert node h.stacked, ?_, ?_⟩
  · intro a ha b hb
    exact (hsame b).mpr (h.closed a ((hsame a).mp ha) b hb)
  · intro a ha
    exact h.acyclic a ((hsame a).mp ha)

theorem Settled.leave {m : Marks α} {node : α} (h : Settled next m) (hnode : node ∈ m.stack)
    (hends : ∀ b, Edge next node b → m.Finished b) : Settled next (m.leave node) := by
  have hleft (a : α) : (m.leave node).Finished a ↔ m.Finished a ∨ a = node := by
    simp only [Marks.Finished, Marks.leave, Finset.mem_erase, not_and_or, not_not]
    constructor
    · rintro ⟨hvisited, rfl | hstack⟩
      · exact .inr rfl
      · exact .inl ⟨hvisited, hstack⟩
    · rintro (⟨hvisited, hstack⟩ | rfl)
      · exact ⟨hvisited, .inr hstack⟩
      · exact ⟨h.stacked hnode, .inl rfl⟩
  have hkeeps (a b : α) (hab : Relation.ReflTransGen (Edge next) a b) (ha : m.Finished a) :
      m.Finished b := by
    induction hab with
    | refl => exact ha
    | tail _ hlast ih => exact h.closed _ ih _ hlast
  refine ⟨(Finset.erase_subset _ _).trans h.stacked, ?_, ?_⟩
  · intro a ha b hb
    rw [hleft] at ha ⊢
    rcases ha with ha | rfl
    · exact .inl (h.closed a ha b hb)
    · exact .inl (hends b hb)
  · intro a ha hcycle
    rcases (hleft a).mp ha with ha | rfl
    · exact h.acyclic a ha hcycle
    · -- a way back would come through a finished node to one the search is in
      obtain ⟨b, hb, hback⟩ := Relation.TransGen.head'_iff.mp hcycle
      exact (hkeeps b a hback (hends b hb)).2 hnode

/-- What a search that reports nothing leaves. -/
structure Completes (next : α → List α) (m m' : Marks α) (node : α) : Prop where
  settled : Settled next m'
  stack : m'.stack = m.stack
  visited : m.visited ⊆ m'.visited
  finished : m'.Finished node

omit [DecidableEq α] in
theorem Marks.Finished.grow {m m' : Marks α} {a : α} (h : m.Finished a)
    (hstack : m'.stack = m.stack) (hvisited : m.visited ⊆ m'.visited) : m'.Finished a :=
  ⟨hvisited h.1, hstack ▸ h.2⟩

theorem scan_completes {visit : α → Marks α → Option (Found α)} {node : α}
    (hvisit : ∀ neighbor m m', neighbor ∉ m.visited → Settled next m →
      visit neighbor m = some (none, m') → Completes next m m' neighbor)
    (neighbors : List α) (m m' : Marks α) (hm : Settled next m)
    (h : scan visit node neighbors m = some (none, m')) :
    ∃ last, m' = last.leave node ∧ Settled next last ∧ last.stack = m.stack ∧
      m.visited ⊆ last.visited ∧ ∀ b ∈ neighbors, last.Finished b := by
  induction neighbors generalizing m with
  | nil =>
    cases h
    exact ⟨m, rfl, hm, rfl, Finset.Subset.refl _, by simp⟩
  | cons neighbor rest ih =>
    rw [scan] at h
    split_ifs at h with hnew hin
    · cases h
    · obtain ⟨last, hlast, hsettled, hstack, hgrows, hrest⟩ := ih m hm h
      refine ⟨last, hlast, hsettled, hstack, hgrows, ?_⟩
      rw [List.forall_mem_cons]
      exact ⟨Marks.Finished.grow ⟨hnew, hin⟩ hstack hgrows, hrest⟩
    · cases hstep : visit neighbor m with
      | none => simp [hstep] at h
      | some result =>
        obtain ⟨back, m₁⟩ := result
        cases back with
        | some back => simp [hstep] at h
        | none =>
          simp only [hstep] at h
          have hdone := hvisit neighbor m m₁ hnew hm hstep
          obtain ⟨last, hlast, hsettled, hstack, hgrows, hrest⟩ := ih m₁ hdone.settled h
          refine ⟨last, hlast, hsettled, hstack.trans hdone.stack, hdone.visited.trans hgrows, ?_⟩
          rw [List.forall_mem_cons]
          exact ⟨hdone.finished.grow hstack hgrows, hrest⟩

theorem search_completes (fuel : ℕ) (node : α) (m m' : Marks α) (hnew : node ∉ m.visited)
    (hm : Settled next m) (h : search next fuel node m = some (none, m')) :
    Completes next m m' node := by
  induction fuel generalizing node m m' with
  | zero => cases h
  | succ fuel ih =>
    obtain ⟨last, rfl, hsettled, hstack, hgrows, hends⟩ :=
      scan_completes ih (next node) (m.enter node) m' (hm.enter hnew) h
    have hin : node ∈ last.stack := by
      rw [hstack]
      exact Finset.mem_insert_self node m.stack
    refine ⟨hsettled.leave hin hends, ?_, ?_, ?_⟩
    · change last.stack.erase node = m.stack
      rw [hstack]
      exact Finset.erase_insert fun hold => hnew (hm.stacked hold)
    · exact (Finset.subset_insert node m.visited).trans hgrows
    · exact ⟨hsettled.stacked hin, Finset.notMem_erase node last.stack⟩

theorem searchAll_completes (fuel : ℕ) (nodes : List α) (m m' : Marks α) (hm : Settled next m)
    (hout : m.stack = ∅) (h : searchAll next fuel nodes m = some (none, m')) :
    Settled next m' ∧ m'.stack = ∅ ∧ m.visited ⊆ m'.visited ∧ ∀ a ∈ nodes, a ∈ m'.visited := by
  induction nodes generalizing m with
  | nil =>
    cases h
    exact ⟨hm, hout, Finset.Subset.refl _, by simp⟩
  | cons node rest ih =>
    rw [searchAll] at h
    split_ifs at h with hold
    · obtain ⟨hsettled, hstack, hgrows, hrest⟩ := ih m hm hout h
      exact ⟨hsettled, hstack, hgrows, List.forall_mem_cons.mpr ⟨hgrows hold, hrest⟩⟩
    · cases hstep : search next fuel node m with
      | none => simp [hstep] at h
      | some result =>
        obtain ⟨back, m₁⟩ := result
        cases back with
        | some back => simp [hstep] at h
        | none =>
          simp only [hstep] at h
          have hdone := search_completes fuel node m m₁ hold hm hstep
          obtain ⟨hsettled, hstack, hgrows, hrest⟩ :=
            ih m₁ hdone.settled (hdone.stack.trans hout) h
          exact ⟨hsettled, hstack, hdone.visited.trans hgrows,
            List.forall_mem_cons.mpr ⟨hgrows hdone.finished.1, hrest⟩⟩

/-- A search that starts afresh reports an edge exactly where some node leads back to itself. -/
theorem searchAll_eq_none_iff {fuel : ℕ} {nodes : List α} {found : Found α}
    (hends : ∀ a b, Edge next a b → a ∈ nodes)
    (h : searchAll next fuel nodes ⟨∅, ∅⟩ = some found) :
    found.1 = none ↔ ∀ a, ¬ Relation.TransGen (Edge next) a a := by
  constructor
  · intro hnone a hcycle
    obtain ⟨back, m'⟩ := found
    cases hnone
    have hfresh : Settled next (⟨∅, ∅⟩ : Marks α) := by
      refine ⟨Finset.Subset.refl _, ?_, ?_⟩
      · intro a ha
        exact absurd ha.1 (Finset.notMem_empty a)
      · intro a ha
        exact absurd ha.1 (Finset.notMem_empty a)
    obtain ⟨hsettled, hstack, -, hall⟩ := searchAll_completes fuel nodes _ m' hfresh rfl h
    obtain ⟨b, hb, -⟩ := Relation.TransGen.head'_iff.mp hcycle
    refine hsettled.acyclic a ⟨hall a (hends a b hb), ?_⟩ hcycle
    rw [hstack]
    exact Finset.notMem_empty a
  · intro hacyclic
    cases hback : found.1 with
    | none => rfl
    | some back =>
      obtain ⟨hedge, hway⟩ := searchAll_closes fuel nodes ⟨∅, ∅⟩ found rfl h back.1 back.2 hback
      exact absurd (Relation.TransGen.head' hedge hway) (hacyclic back.1)

end Completes

end Albedo.DepthFirst
