import Albedo.Analysis.Levels
import Mathlib.Algebra.Order.Field.Rat
import Mathlib.Algebra.Order.Ring.NNRat

/-!
# The critical path

The dearest chain of dependents. From each component without dependencies the dearest time on from
every component that is met is found once and kept, with the dependent it is found through, and the
chain is walked out of what was kept.
-/
namespace Albedo.Analysis

/-- What is kept of a component: the dependent its dearest chain goes on with, and the time. -/
structure Memo where
  keys : Finset ComponentId
  get : ComponentId → Option (Option ComponentId × ℚ≥0)
  mem_keys : ∀ a, a ∈ keys ↔ (get a).isSome

namespace Memo

def empty : Memo := ⟨∅, fun _ => none, by simp⟩

def insert (memo : Memo) (a : ComponentId) (entry : Option ComponentId × ℚ≥0) : Memo where
  keys := Insert.insert a memo.keys
  get := Function.update memo.get a (some entry)
  mem_keys := by
    intro b
    by_cases hb : b = a
    · simp [hb]
    · simp [hb, memo.mem_keys]

def len (memo : Memo) : ℕ := memo.keys.card

@[simp] theorem insert_get_self (memo : Memo) (a : ComponentId)
    (entry : Option ComponentId × ℚ≥0) : (memo.insert a entry).get a = some entry :=
  Function.update_self a _ memo.get

theorem insert_get_of_ne (memo : Memo) {a b : ComponentId} (hb : b ≠ a)
    (entry : Option ComponentId × ℚ≥0) : (memo.insert a entry).get b = memo.get b :=
  Function.update_of_ne hb _ memo.get

end Memo

/-- `best.is_none_or(|(_, best_time)| time > best_time)`. -/
def better (best : Option (ComponentId × ℚ≥0)) (dependent : ComponentId) (time : ℚ≥0) :
    Option (ComponentId × ℚ≥0) :=
  match best with
  | none => some (dependent, time)
  | some (_, bestTime) => if bestTime < time then some (dependent, time) else best

/-- What a call leaves: its answer, the memo and the set of those that are not done. -/
abbrev Told (τ : Type) := Option (τ × Memo × Finset ComponentId)

def bestDependent (visit : ComponentId → Memo → Finset ComponentId → Told ℚ≥0) :
    List ComponentId → Option (ComponentId × ℚ≥0) → Memo → Finset ComponentId →
      Told (Option (ComponentId × ℚ≥0))
  | [], best, memo, onStack => some (best, memo, onStack)
  | dependent :: rest, best, memo, onStack =>
      match visit dependent memo onStack with
      | none => none
      | some (time, memo, onStack) =>
          bestDependent visit rest (better best dependent time) memo onStack

section Code
variable (graph : ComponentGraph) (orders : graph.Orders) (analyses : ComponentId → Option ℚ≥0)

def timeOf (id : ComponentId) : ℚ≥0 := (analyses id).getD 0

def longestTimeFrom : ℕ → ComponentId → Memo → Finset ComponentId → Told ℚ≥0
  | 0, _, _, _ => none
  | fuel + 1, node, memo, onStack =>
      match memo.get node with
      | some (_, time) => some (time, memo, onStack)
      | none =>
          if node ∈ onStack then some (0, memo, onStack)
          else
            match bestDependent (longestTimeFrom fuel) (orders.dependents node) none memo
                (insert node onStack) with
            | none => none
            | some (best, memo, onStack) =>
                let total := timeOf analyses node + (best.map Prod.snd).getD 0
                some (total, memo.insert node (best.map Prod.fst, total), onStack.erase node)

def pathAfter (memo : Memo) : ℕ → ComponentId → List ComponentId
  | 0, _ => []
  | room + 1, current =>
      match memo.get current with
      | some (some next, _) => next :: pathAfter memo room next
      | _ => []

def pathFrom (memo : Memo) (node : ComponentId) : List ComponentId :=
  node :: pathAfter memo memo.len node

def findLongestPath (node : ComponentId) : Option (List ComponentId × ℚ≥0) :=
  (longestTimeFrom graph orders analyses graph.ids.card node .empty ∅).map
    fun (total, memo, _) => (pathFrom memo node, total)

/-- `max_by`, which keeps the last of several greatest. -/
def maxByTime : List (List ComponentId × ℚ≥0) → Option (List ComponentId × ℚ≥0) :=
  List.foldl (fun best candidate =>
    match best with
    | none => some candidate
    | some greatest => if candidate.2 < greatest.2 then some greatest else some candidate) none

/-- The candidates of more than four roots are found in parallel, and come in the same order. -/
def findCriticalPathParallel : Option (List ComponentId) :=
  let roots := orders.degrees.filter (graph.calculateOutDegrees · = some 0)
  if roots = [] then some []
  else
    (roots.mapM (findLongestPath graph orders analyses)).map fun candidates =>
      ((maxByTime candidates).map Prod.fst).getD []

end Code

/-! ### What is kept is the dearest -/

section Dearest
variable {graph : ComponentGraph} (h : graph.Mirrored) (hacyclic : graph.Acyclic)
  (orders : graph.Orders) (analyses : ComponentId → Option ℚ≥0)

noncomputable def dearest : ComponentId → ℚ≥0 := (h.codag hacyclic).dearest (timeOf analyses)

theorem dearest_eq (a : ComponentId) : dearest h hacyclic analyses a =
    timeOf analyses a + (graph.dependents a).sup (dearest h hacyclic analyses) :=
  (h.codag hacyclic).dearest_eq (timeOf analyses) a

theorem dearest_of_eq_empty {a : ComponentId} (hnone : graph.dependents a = ∅) :
    dearest h hacyclic analyses a = timeOf analyses a := by
  rw [dearest_eq, hnone, Finset.sup_empty]
  exact add_zero (timeOf analyses a)

/-- The best of some dependents: none if there are none, and otherwise a dearest of them. -/
def IsBest (seen : List ComponentId) (best : Option (ComponentId × ℚ≥0)) : Prop :=
  match best with
  | none => seen = []
  | some (next, time) => next ∈ seen ∧ time = dearest h hacyclic analyses next ∧
      ∀ a ∈ seen, dearest h hacyclic analyses a ≤ time

theorem IsBest.better {seen : List ComponentId} {best : Option (ComponentId × ℚ≥0)}
    (hbest : IsBest h hacyclic analyses seen best) (a : ComponentId) :
    IsBest h hacyclic analyses (seen ++ [a])
      (better best a (dearest h hacyclic analyses a)) := by
  cases best with
  | none =>
    change seen = [] at hbest
    subst hbest
    simp [Analysis.better, IsBest]
  | some found =>
    obtain ⟨next, time⟩ := found
    obtain ⟨hnext, htime, hall⟩ := hbest
    rw [Analysis.better]
    split_ifs with hless
    · refine ⟨List.mem_append_right _ (List.mem_singleton_self a), rfl, ?_⟩
      intro b hb
      rcases List.mem_append.mp hb with hb | hb
      · exact (hall b hb).trans hless.le
      · rw [List.mem_singleton.mp hb]
    · refine ⟨List.mem_append_left _ hnext, htime, ?_⟩
      intro b hb
      rcases List.mem_append.mp hb with hb | hb
      · exact hall b hb
      · rw [List.mem_singleton.mp hb]
        exact not_lt.mp hless

/-- What is kept of a component is its dearest time, and a dependent the dearest chain goes on with
where it has dependents; and it is kept of all of these. -/
structure Kept (memo : Memo) : Prop where
  closed : ∀ a ∈ memo.keys, ∀ b ∈ graph.dependents a, b ∈ memo.keys
  entry : ∀ a next time, memo.get a = some (next, time) →
    time = dearest h hacyclic analyses a ∧
      match next with
      | none => graph.dependents a = ∅
      | some next => next ∈ graph.dependents a ∧
          time = timeOf analyses a + dearest h hacyclic analyses next

variable {h hacyclic analyses}

theorem Kept.insert {memo : Memo} (hkept : Kept h hacyclic analyses memo) (a : ComponentId)
    {best : Option (ComponentId × ℚ≥0)} {seen : List ComponentId}
    (hseen : ∀ b, b ∈ seen ↔ b ∈ graph.dependents a) (hbest : IsBest h hacyclic analyses seen best)
    (hkeys : ∀ b ∈ seen, b ∈ memo.keys) :
    timeOf analyses a + (best.map Prod.snd).getD 0 = dearest h hacyclic analyses a ∧
      Kept h hacyclic analyses (memo.insert a
        (best.map Prod.fst, timeOf analyses a + (best.map Prod.snd).getD 0)) := by
  have htotal : timeOf analyses a + (best.map Prod.snd).getD 0 =
      dearest h hacyclic analyses a := by
    rw [dearest_eq]
    congr 1
    cases best with
    | none =>
      have hnone : graph.dependents a = ∅ := by
        rw [Finset.eq_empty_iff_forall_notMem]
        intro b hb
        rw [← hseen, show seen = [] from hbest] at hb
        cases hb
      rw [hnone]
      rfl
    | some found =>
      obtain ⟨hnext, htime, hall⟩ := hbest
      apply le_antisymm
      · change found.2 ≤ _
        rw [htime]
        exact Finset.le_sup ((hseen _).mp hnext)
      · exact Finset.sup_le fun b hb => hall b ((hseen b).mpr hb)
  refine ⟨htotal, ?_, ?_⟩
  · intro b hb c hc
    rcases Finset.mem_insert.mp hb with rfl | hb
    · exact Finset.mem_insert_of_mem (hkeys c ((hseen c).mpr hc))
    · exact Finset.mem_insert_of_mem (hkept.closed b hb c hc)
  · intro b next time hget
    by_cases hb : b = a
    · subst hb
      rw [Memo.insert_get_self, Option.some.injEq, Prod.mk.injEq] at hget
      obtain ⟨rfl, rfl⟩ := hget
      refine ⟨htotal, ?_⟩
      cases best with
      | none =>
        rw [Option.map_none]
        dsimp only
        rw [Finset.eq_empty_iff_forall_notMem]
        intro c hc
        rw [← hseen, show seen = [] from hbest] at hc
        cases hc
      | some found =>
        obtain ⟨hnext, htime, -⟩ := hbest
        refine ⟨(hseen _).mp hnext, ?_⟩
        rw [← htime]
        rfl
    · rw [Memo.insert_get_of_ne memo hb] at hget
      exact hkept.entry b next time hget

structure Tells (h : graph.Mirrored) (hacyclic : graph.Acyclic)
    (analyses : ComponentId → Option ℚ≥0) (node : ComponentId) (memo : Memo)
    (result : ℚ≥0 × Memo) : Prop where
  time : result.1 = dearest h hacyclic analyses node
  kept : Kept h hacyclic analyses result.2
  mem : node ∈ result.2.keys
  grows : memo.keys ⊆ result.2.keys

theorem bestDependent_spec {visit : ComponentId → Memo → Finset ComponentId → Told ℚ≥0}
    {onStack : Finset ComponentId} (rest : List ComponentId)
    (hvisit : ∀ dependent ∈ rest, ∀ memo, Kept h hacyclic analyses memo →
      ∃ time memo', visit dependent memo onStack = some (time, memo', onStack) ∧
        Tells h hacyclic analyses dependent memo (time, memo'))
    (seen : List ComponentId) (best : Option (ComponentId × ℚ≥0)) (memo : Memo)
    (hbest : IsBest h hacyclic analyses seen best) (hkept : Kept h hacyclic analyses memo)
    (hkeys : ∀ a ∈ seen, a ∈ memo.keys) :
    ∃ best' memo', bestDependent visit rest best memo onStack = some (best', memo', onStack) ∧
      IsBest h hacyclic analyses (seen ++ rest) best' ∧ Kept h hacyclic analyses memo' ∧
      (∀ a ∈ seen ++ rest, a ∈ memo'.keys) ∧ memo.keys ⊆ memo'.keys := by
  induction rest generalizing seen best memo with
  | nil =>
    rw [List.append_nil]
    exact ⟨best, memo, rfl, hbest, hkept, hkeys, Finset.Subset.refl _⟩
  | cons dependent rest ih =>
    rw [List.forall_mem_cons] at hvisit
    obtain ⟨time, memo₁, hcall, htells⟩ := hvisit.1 memo hkept
    have htime : time = dearest h hacyclic analyses dependent := htells.time
    have hseen : ∀ a ∈ seen ++ [dependent], a ∈ memo₁.keys := by
      intro a ha
      rcases List.mem_append.mp ha with ha | ha
      · exact htells.grows (hkeys a ha)
      · rw [List.mem_singleton.mp ha]
        exact htells.mem
    obtain ⟨best', memo', hloop, hbest', hkept', hkeys', hgrows⟩ :=
      ih hvisit.2 (seen ++ [dependent]) (better best dependent time) memo₁
        (htime ▸ hbest.better h hacyclic analyses dependent) htells.kept hseen
    rw [List.append_assoc] at hbest' hkeys'
    refine ⟨best', memo', ?_, hbest', hkept', hkeys', htells.grows.trans hgrows⟩
    rw [bestDependent, hcall]
    exact hloop

theorem longestTimeFrom_spec (fuel : ℕ) (node : ComponentId) (memo : Memo)
    (onStack : Finset ComponentId) (hfuel : ((h.codag hacyclic).below node).card < fuel)
    (hkept : Kept h hacyclic analyses memo) (hfresh : node ∉ onStack)
    (hstack : ∀ a ∈ (h.codag hacyclic).below node, a ∉ onStack) :
    ∃ time memo', longestTimeFrom graph orders analyses fuel node memo onStack =
        some (time, memo', onStack) ∧
      Tells h hacyclic analyses node memo (time, memo') := by
  induction fuel generalizing node memo onStack with
  | zero => omega
  | succ fuel ih =>
    rw [longestTimeFrom]
    cases hget : memo.get node with
    | some entry =>
      obtain ⟨next, time⟩ := entry
      have hmem : node ∈ memo.keys := by
        rw [memo.mem_keys, hget]
        rfl
      exact ⟨time, memo, rfl, (hkept.entry node next time hget).1, hkept, hmem,
        Finset.Subset.refl _⟩
    | none =>
      have hlists := orders.lists_dependents node
      have hvisit : ∀ dependent ∈ orders.dependents node, ∀ memo, Kept h hacyclic analyses memo →
          ∃ time memo', longestTimeFrom graph orders analyses fuel dependent memo
              (insert node onStack) = some (time, memo', insert node onStack) ∧
            Tells h hacyclic analyses dependent memo (time, memo') := by
        intro dependent hdependent memo hkept
        have hedge : dependent ∈ (h.codag hacyclic).ends node :=
          (hlists.mem dependent).mp hdependent
        have hless := (h.codag hacyclic).card_below_lt hedge
        have hout : ∀ a, Relation.ReflTransGen (Acyclic.Edge (h.codag hacyclic).ends)
            dependent a → a ∉ insert node onStack := by
          intro a ha
          have hreach := Relation.TransGen.head' hedge ha
          rw [Finset.mem_insert, not_or]
          refine ⟨?_, hstack a ((h.codag hacyclic).mem_below.mpr hreach)⟩
          rintro rfl
          exact (h.codag hacyclic).acyclic a hreach
        refine ih dependent memo (insert node onStack) (by omega) hkept
          (hout dependent .refl) ?_
        intro a ha
        exact hout a ((h.codag hacyclic).mem_below.mp ha).to_reflTransGen
      obtain ⟨best, memo', hloop, hbest, hkept', hkeys, hgrows⟩ :=
        bestDependent_spec (orders.dependents node) hvisit [] none memo rfl hkept (by simp)
      rw [List.nil_append] at hbest hkeys
      obtain ⟨htotal, hinserted⟩ := hkept'.insert node hlists.mem hbest hkeys
      refine ⟨_, memo'.insert node (best.map Prod.fst,
        timeOf analyses node + (best.map Prod.snd).getD 0), ?_, htotal, hinserted,
        Finset.mem_insert_self node _, hgrows.trans (Finset.subset_insert node _)⟩
      simp only [hloop, if_neg hfresh, Finset.erase_insert hfresh]

/-! ### The chain that is walked out -/

def totalTime (analyses : ComponentId → Option ℚ≥0) (path : List ComponentId) : ℚ≥0 :=
  (path.map (timeOf analyses)).sum

theorem pathAfter_spec {memo : Memo} (hkept : Kept h hacyclic analyses memo) (room : ℕ)
    (a : ComponentId) (ha : a ∈ memo.keys)
    (hroom : ((h.codag hacyclic).below a).card ≤ room) :
    (a :: pathAfter memo room a).IsChain (fun a b => b ∈ graph.dependents a) ∧
      totalTime analyses (a :: pathAfter memo room a) = dearest h hacyclic analyses a := by
  induction room generalizing a with
  | zero =>
    have hnone : graph.dependents a = ∅ := by
      rw [Finset.eq_empty_iff_forall_notMem]
      intro b hb
      have hless := (h.codag hacyclic).card_below_lt (a := a) (b := b) hb
      omega
    refine ⟨List.isChain_singleton a, ?_⟩
    rw [dearest_of_eq_empty h hacyclic analyses hnone]
    simp [pathAfter, totalTime]
  | succ room ih =>
    obtain ⟨entry, hget⟩ := Option.isSome_iff_exists.mp ((memo.mem_keys a).mp ha)
    obtain ⟨next, time⟩ := entry
    obtain ⟨htime, hnext⟩ := hkept.entry a next time hget
    rw [pathAfter, hget]
    cases next with
    | none =>
      refine ⟨List.isChain_singleton a, ?_⟩
      rw [dearest_of_eq_empty h hacyclic analyses hnext]
      simp [totalTime]
    | some next =>
      obtain ⟨hedge, hsum⟩ := hnext
      have hless := (h.codag hacyclic).card_below_lt (a := a) (b := next) hedge
      obtain ⟨hchain, htotal⟩ := ih next (hkept.closed a ha next hedge) (by omega)
      refine ⟨List.isChain_cons_cons.mpr ⟨hedge, hchain⟩, ?_⟩
      rw [← htime, hsum, ← htotal]
      rfl

theorem findLongestPath_spec (h : graph.Mirrored) (hacyclic : graph.Acyclic)
    (orders : graph.Orders) (analyses : ComponentId → Option ℚ≥0) (root : ComponentId)
    (hroot : root ∈ graph.ids) :
    ∃ rest, findLongestPath graph orders analyses root =
        some (root :: rest, dearest h hacyclic analyses root) ∧
      (root :: rest).IsChain (fun a b => b ∈ graph.dependents a) ∧
      totalTime analyses (root :: rest) = dearest h hacyclic analyses root := by
  have hempty : Kept h hacyclic analyses .empty := by
    refine ⟨?_, ?_⟩
    · intro a ha
      exact absurd ha (Finset.notMem_empty a)
    · intro a next time hget
      cases hget
  obtain ⟨time, memo, hcall, htells⟩ := longestTimeFrom_spec orders graph.ids.card root .empty ∅
    ((h.codag hacyclic).card_below_lt_nodes hroot) hempty (Finset.notMem_empty root)
    fun a _ => Finset.notMem_empty a
  have hroom : ((h.codag hacyclic).below root).card ≤ memo.len := by
    apply Finset.card_le_card
    intro a ha
    have hreach := (h.codag hacyclic).mem_below.mp ha
    induction hreach with
    | single hedge => exact htells.kept.closed root htells.mem _ hedge
    | tail hway hedge ih =>
      exact htells.kept.closed _ (ih ((h.codag hacyclic).mem_below.mpr hway)) _ hedge
  obtain ⟨hchain, htotal⟩ := pathAfter_spec htells.kept memo.len root htells.mem hroom
  have htime : time = dearest h hacyclic analyses root := htells.time
  refine ⟨pathAfter memo memo.len root, ?_, hchain, htotal⟩
  rw [findLongestPath, hcall, Option.map_some, htime]
  rfl

theorem maxByTime_spec (candidates : List (List ComponentId × ℚ≥0)) (hsome : candidates ≠ []) :
    ∃ greatest ∈ candidates, maxByTime candidates = some greatest ∧
      ∀ candidate ∈ candidates, candidate.2 ≤ greatest.2 := by
  induction candidates using List.reverseRecOn with
  | nil => exact absurd rfl hsome
  | append_singleton candidates last ih =>
    rw [maxByTime, List.foldl_append, List.foldl_cons, List.foldl_nil, ← maxByTime]
    by_cases hnil : candidates = []
    · subst hnil
      exact ⟨last, by simp, rfl, by simp⟩
    · obtain ⟨greatest, hin, hmax, hall⟩ := ih hnil
      rw [hmax]
      dsimp only
      split_ifs with hless
      · refine ⟨greatest, List.mem_append_left _ hin, rfl, ?_⟩
        intro candidate hcandidate
        rcases List.mem_append.mp hcandidate with hold | hlast
        · exact hall candidate hold
        · rw [List.mem_singleton.mp hlast]
          exact hless.le
      · refine ⟨last, List.mem_append_right _ (List.mem_singleton_self last), rfl, ?_⟩
        intro candidate hcandidate
        rcases List.mem_append.mp hcandidate with hold | hlast
        · exact (hall candidate hold).trans (not_lt.mp hless)
        · rw [List.mem_singleton.mp hlast]

structure IsChainOfDependents (graph : ComponentGraph) (path : List ComponentId) : Prop where
  chain : path.IsChain fun a b => b ∈ graph.dependents a
  start : ∀ a ∈ path.head?, a ∈ graph.ids ∧ graph.dependencies a = ∅

/-- A dearest of these chains; there is only the empty one where there are no components. -/
structure IsCritical (graph : ComponentGraph) (analyses : ComponentId → Option ℚ≥0)
    (path : List ComponentId) : Prop extends IsChainOfDependents graph path where
  some : path = [] → graph.ids = ∅
  dearest : ∀ other, IsChainOfDependents graph other →
    totalTime analyses other ≤ totalTime analyses path

theorem IsChainOfDependents.totalTime_le (h : graph.Mirrored) (hacyclic : graph.Acyclic)
    (analyses : ComponentId → Option ℚ≥0) {a : ComponentId} {rest : List ComponentId}
    (hchain : IsChainOfDependents graph (a :: rest)) :
    totalTime analyses (a :: rest) ≤ dearest h hacyclic analyses a :=
  (h.codag hacyclic).sum_le_dearest (timeOf analyses) rfl a rest hchain.chain

theorem findCriticalPathParallel_spec (h : graph.Mirrored) (hacyclic : graph.Acyclic)
    (orders : graph.Orders) (analyses : ComponentId → Option ℚ≥0) :
    ∃ path, findCriticalPathParallel graph orders analyses = some path ∧
      IsCritical graph analyses path := by
  let roots := orders.degrees.filter (graph.calculateOutDegrees · = some 0)
  have hroots : ∀ a, a ∈ roots ↔ a ∈ graph.ids ∧ graph.dependencies a = ∅ := by
    intro a
    have hstart : ComponentGraph.Peeling h hacyclic 0 _ _ _ := ComponentGraph.peeling_zero orders
    rw [hstart.lists.mem,
      ComponentGraph.mem_levelAt, (h.dag hacyclic).depth_eq_zero_iff]
    rfl
  have hstart : ∀ a rest, IsChainOfDependents graph (a :: rest) → a ∈ roots :=
    fun a rest hchain => (hroots a).mpr (hchain.start a rfl)
  by_cases hnil : roots = []
  · refine ⟨[], if_pos hnil, ⟨List.isChain_nil, by simp⟩, ?_, ?_⟩
    · intro _
      rw [Finset.eq_empty_iff_forall_notMem]
      intro a ha
      have hfirst : ComponentGraph.levelAt h hacyclic 0 = ∅ := by
        rw [Finset.eq_empty_iff_forall_notMem]
        intro b hb
        have hin : b ∈ roots := ((ComponentGraph.peeling_zero orders).lists.mem b).mpr hb
        rw [hnil] at hin
        cases hin
      have hlevel := ComponentGraph.levelAt_eq_empty_of_le h hacyclic
        (Nat.zero_le ((h.dag hacyclic).depth a)) hfirst
      exact Finset.notMem_empty a (hlevel ▸ (ComponentGraph.mem_levelAt h hacyclic).mpr ⟨ha, rfl⟩)
    · intro other hother
      cases other with
      | nil => exact le_refl _
      | cons a rest => exact absurd (hnil ▸ hstart a rest hother) List.not_mem_nil
  · choose! rest hfound hchain htotal using fun a (ha : a ∈ graph.ids) =>
      findLongestPath_spec h hacyclic orders analyses a ha
    have hmap : ∀ l : List ComponentId, (∀ a ∈ l, a ∈ graph.ids) →
        l.mapM (findLongestPath graph orders analyses) =
          some (l.map fun a => (a :: rest a, dearest h hacyclic analyses a)) := by
      intro l hl
      induction l with
      | nil => rfl
      | cons a l ih =>
        rw [List.forall_mem_cons] at hl
        rw [List.mapM_cons, hfound a hl.1, ih hl.2]
        rfl
    have hcandidates := hmap roots fun a ha => ((hroots a).mp ha).1
    obtain ⟨greatest, hin, hmax, hall⟩ := maxByTime_spec
      (roots.map fun a => (a :: rest a, dearest h hacyclic analyses a)) (by simpa using hnil)
    obtain ⟨a, ha, rfl⟩ := List.mem_map.mp hin
    obtain ⟨hids, hnone⟩ := (hroots a).mp ha
    refine ⟨a :: rest a, ?_, ⟨hchain a hids, ?_⟩, ?_, ?_⟩
    · refine (if_neg hnil).trans ?_
      rw [hcandidates, Option.map_some, hmax]
      rfl
    · rintro b ⟨⟩
      exact ⟨hids, hnone⟩
    · intro hempty
      cases hempty
    · intro other hother
      rw [htotal a hids]
      cases other with
      | nil => exact zero_le
      | cons b others =>
        have hb := hstart b others hother
        exact (hother.totalTime_le h hacyclic analyses).trans
          (hall (b :: rest b, _) (List.mem_map.mpr ⟨b, hb, rfl⟩))

end Dearest

/-! ### All of the analysis -/

/-- What the sorters and the search for a critical path return of an acyclic graph. -/
structure Analysed (graph : ComponentGraph) (orders orders' : graph.Orders)
    (analyses : ComponentId → Option ℚ≥0) : Prop where
  levels : ∃ serial switched, TopologicalSorter.sort graph orders = some (.ok serial) ∧
    ParallelTopologicalSorter.sort graph orders' = some (.ok switched) ∧
    ComponentGraph.RenderLevels graph serial ∧ ComponentGraph.RenderLevels graph switched ∧
    serial.map List.toFinset = switched.map List.toFinset
  critical : ∃ path, findCriticalPathParallel graph orders analyses = some path ∧
    IsCritical graph analyses path

/-- A graph that is built is valid exactly where it has no cycle, and then its levels are depths and
its critical path is one. -/
theorem built_analysed {graph : ComponentGraph} (hbuilt : ComponentGraph.Built graph)
    (orders orders' : graph.Orders) (analyses : ComponentId → Option ℚ≥0) :
    ∃ verdict, graph.validate orders = some verdict ∧ (verdict = .ok () ↔ graph.Acyclic) ∧
      (verdict = .ok () → Analysed graph orders orders' analyses) := by
  have h := hbuilt.mirrored
  obtain ⟨verdict, hvalidate, hok⟩ := ComponentGraph.validate_spec h orders
  refine ⟨verdict, hvalidate, hok, fun hvalid => ?_⟩
  have hacyclic := hok.mp hvalid
  obtain ⟨serial, hserial, hlevels⟩ := ComponentGraph.sortWith_spec h hacyclic orders
    (ComponentGraph.steps_serialNextLevel orders)
  obtain ⟨switched, hswitched, hlevels'⟩ := ComponentGraph.sortWith_spec h hacyclic orders'
    (ComponentGraph.steps_switchedNextLevel orders')
  exact ⟨⟨serial, switched, hserial, hswitched, hlevels.renderLevels, hlevels'.renderLevels,
    hlevels.sets_eq hlevels'⟩, findCriticalPathParallel_spec h hacyclic orders analyses⟩

def pairGraph : ComponentGraph :=
  { ids := {1, 0}
    dependencies := fun a => if a = 1 then {0} else ∅
    dependents := fun a => if a = 0 then {1} else ∅
    componentCount := 2
    nextId := 2 }

theorem built_pairGraph : ComponentGraph.Built pairGraph := by
  refine .dependency 1 0 (.component 0 (.component 0 .new (by decide)) (by decide)) ?_
  rw [ComponentGraph.addDependency, if_neg (by decide), if_neg (by decide), Except.ok.injEq]
  have htables (key value a : ComponentId) :
      Function.update
        (Function.update (Function.update (fun _ => (∅ : Finset ComponentId)) 0 ∅) 1 ∅)
        key (insert value ∅) a = if a = key then {value} else ∅ := by
    by_cases ha : a = key
    · rw [ha, Function.update_self, if_pos rfl]
      rfl
    · rw [Function.update_of_ne ha, if_neg ha]
      by_cases hone : a = 1
      · rw [hone, Function.update_self]
      · rw [Function.update_of_ne hone]
        by_cases hzero : a = 0
        · rw [hzero, Function.update_self]
        · rw [Function.update_of_ne hzero]
  rw [pairGraph, ComponentGraph.mk.injEq]
  exact ⟨rfl, funext (htables 1 0), funext (htables 0 1), rfl, rfl⟩

theorem pairGraph_analysed : Analysed pairGraph (.any _) (.any _) fun _ => some 1 := by
  obtain ⟨verdict, -, hok, hvalid⟩ :=
    built_analysed built_pairGraph (.any _) (.any _) fun _ => some 1
  refine hvalid (hok.mpr fun a hcycle => ?_)
  have hedge : ∀ a b, b ∈ pairGraph.dependencies a → a = 1 ∧ b = 0 := by
    intro a b hb
    by_cases ha : a = 1
    · rw [pairGraph, ha] at hb
      exact ⟨ha, Finset.mem_singleton.mp hb⟩
    · rw [pairGraph] at hb
      simp [ha] at hb
  obtain ⟨b, hfirst, -⟩ := Relation.TransGen.head'_iff.mp hcycle
  obtain ⟨c, -, hlast⟩ := Relation.TransGen.tail'_iff.mp hcycle
  have hone := (hedge a b hfirst).1
  rw [(hedge c a hlast).2] at hone
  exact absurd hone (by decide)

end Albedo.Analysis
