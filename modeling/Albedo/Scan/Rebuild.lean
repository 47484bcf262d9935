import Albedo.Scan.Edges
import Albedo.Scan.Incremental
import Mathlib.Data.Finset.Lattice.Fold
import Mathlib.Order.Lattice.Nat

/-!
# An incremental build beside a full one

No component that the scanner makes has its dependencies written into it, so nothing is recorded
that invalidation could follow, and each build uses the cached analysis of whatever component had
the id before.
-/
namespace Albedo.Scan

variable {A R : Type*}

theorem foldlM_eq_some {σ α : Type*} {f : σ → α → Option σ} {g : σ → α → σ}
    (h : ∀ s a, f s a = some (g s a)) (l : List α) (s : σ) :
    l.foldlM f s = some (l.foldl g s) := by
  induction l generalizing s with
  | nil => rfl
  | cons a l ih =>
      rw [List.foldlM_cons, h, List.foldl_cons]
      exact ih (g s a)

theorem foldl_keeps {σ α : Type*} {P : σ → Prop} {g : σ → α → σ} (h : ∀ s a, P s → P (g s a))
    (l : List α) {s : σ} (hs : P s) : P (l.foldl g s) := by
  induction l generalizing s with
  | nil => exact hs
  | cons a l ih => exact ih (h s a hs)

namespace IncrementalCache

/-- What holds of the tables between builds: each cached analysis is that of the component cached
with it, and no dependency is recorded. -/
structure Kept (analyze : Component A → R) (tables : PersistentCache A R) : Prop where
  sound : ∀ id cached, tables.componentCache id = some cached →
    cached.analysis = analyze cached.component
  unlinked : ∀ id dependencies, tables.dependencyGraph id = some dependencies → dependencies = ∅

variable {analyze : Component A → R} {cache : IncrementalCache A R}

theorem kept_new : Kept analyze (new : IncrementalCache A R).toPersistentCache := by
  refine ⟨?_, ?_⟩
  · intro id cached h
    cases h
  · intro id dependencies h
    cases h

theorem Kept.load (h : Kept analyze cache.toPersistentCache) {saved : Option (PersistentCache A R)}
    (hsaved : ∀ tables, saved = some tables → Kept analyze tables) :
    Kept analyze (cache.load saved).toPersistentCache := by
  cases saved with
  | none => exact h
  | some tables =>
      have htables := hsaved tables rfl
      refine ⟨?_, ?_⟩
      · intro id cached hcached
        rcases Option.or_eq_some_iff.mp hcached with hin | ⟨-, hin⟩
        · exact htables.sound id cached hin
        · exact h.sound id cached hin
      · intro id dependencies hdependencies
        rcases Option.or_eq_some_iff.mp hdependencies with hin | ⟨-, hin⟩
        · exact htables.unlinked id dependencies hin
        · exact h.unlinked id dependencies hin

theorem Kept.ensureLoaded (h : Kept analyze cache.toPersistentCache)
    {saved : Option (PersistentCache A R)}
    (hsaved : ∀ tables, saved = some tables → Kept analyze tables) :
    Kept analyze (cache.ensureLoaded saved).toPersistentCache := by
  unfold IncrementalCache.ensureLoaded
  split_ifs
  · exact h
  · exact h.load hsaved

theorem invalidated_load (cache : IncrementalCache A R) (saved : Option (PersistentCache A R)) :
    (cache.load saved).invalidated = cache.invalidated := by
  cases saved <;> rfl

theorem invalidated_ensureLoaded (cache : IncrementalCache A R)
    (saved : Option (PersistentCache A R)) :
    (cache.ensureLoaded saved).invalidated = cache.invalidated := by
  unfold ensureLoaded
  split_ifs
  · rfl
  · exact cache.invalidated_load saved

theorem Kept.no_dependents (h : Kept analyze cache.toPersistentCache) (order : cache.TableOrder)
    (id : ComponentId) : order.dependents id = [] := by
  rw [List.eq_nil_iff_forall_not_mem]
  intro dependent hmem
  obtain ⟨dependencies, hrecorded, hin⟩ := (order.mem_dependents id dependent).mp hmem
  rw [h.unlinked dependent dependencies hrecorded] at hin
  exact Finset.notMem_empty id hin

/-! ### What invalidation drops -/

structure Dropped (S : ComponentId → Prop) (c c' : IncrementalCache A R) : Prop where
  invalidated : ∀ id, id ∈ c'.invalidated ↔ id ∈ c.invalidated ∨ S id
  gone : ∀ id, S id → c'.componentCache id = none
  kept : ∀ id, ¬ S id → c'.componentCache id = c.componentCache id
  dependencyGraph : c'.dependencyGraph = c.dependencyGraph

theorem Dropped.none (c : IncrementalCache A R) : Dropped (fun _ => False) c c :=
  ⟨fun _ => (or_iff_left id).symm, fun _ h => h.elim, fun _ _ => rfl, rfl⟩

theorem Dropped.trans {S T : ComponentId → Prop} {c c' c'' : IncrementalCache A R}
    (h : Dropped S c c') (h' : Dropped T c' c'') : Dropped (fun id => S id ∨ T id) c c'' := by
  refine ⟨?_, ?_, ?_, h'.dependencyGraph.trans h.dependencyGraph⟩
  · intro id
    rw [h'.invalidated, h.invalidated, or_assoc]
  · intro id hid
    by_cases hT : T id
    · exact h'.gone id hT
    · rw [h'.kept id hT]
      exact h.gone id (hid.resolve_right hT)
  · intro id hid
    rw [not_or] at hid
    rw [h'.kept id hid.2, h.kept id hid.1]

theorem Dropped.congr {S T : ComponentId → Prop} {c c' : IncrementalCache A R} (h : Dropped S c c')
    (hST : ∀ id, S id ↔ T id) : Dropped T c c' := by
  have heq : S = T := funext fun id => propext (hST id)
  rwa [heq] at h

theorem dropped_drop (cache : IncrementalCache A R) (id : ComponentId) :
    Dropped (· = id) cache (cache.drop id) := by
  refine ⟨?_, ?_, ?_, rfl⟩
  · intro i
    exact Finset.mem_insert.trans or_comm
  · intro i hi
    rw [hi]
    exact Function.update_self _ _ _
  · intro i hi
    exact Function.update_of_ne hi _ _

theorem dropped_foldl_drop (ids : List ComponentId) (cache : IncrementalCache A R) :
    Dropped (· ∈ ids) cache (ids.foldl drop cache) := by
  induction ids generalizing cache with
  | nil => exact (Dropped.none cache).congr fun id => by simp
  | cons id ids ih =>
      refine ((dropped_drop cache id).trans (ih (cache.drop id))).congr ?_
      intro i
      rw [List.mem_cons]

theorem fileToComponents_foldl_drop (ids : List ComponentId) (cache : IncrementalCache A R) :
    (ids.foldl drop cache).fileToComponents = cache.fileToComponents :=
  foldl_keeps (P := fun c : IncrementalCache A R => c.fileToComponents = cache.fileToComponents)
    (g := drop) (fun _ _ h => h) ids rfl

section Invalidate

variable {dependents : ComponentId → List ComponentId} (hnone : ∀ id, dependents id = [])
  {elements : Finset ComponentId → List ComponentId}
  (helements : ∀ ids id, id ∈ elements ids ↔ id ∈ ids) (fuel : ℕ)

include hnone in
theorem invalidateComponent_eq (id : ComponentId) (cache : IncrementalCache A R) :
    invalidateComponent dependents (fuel + 1) id cache = some (cache.drop id) := by
  rw [invalidateComponent, hnone]
  rfl

include hnone in
theorem invalidateAll_eq (ids : List ComponentId) (cache : IncrementalCache A R) :
    invalidateAll dependents (fuel + 1) ids cache = some (ids.foldl drop cache) :=
  foldlM_eq_some (fun cache id => invalidateComponent_eq hnone fuel id cache) ids cache

def Holds (cache : IncrementalCache A R) (path : PathBuf) (id : ComponentId) : Prop :=
  id ∈ (cache.fileToComponents path).getD ∅

include hnone helements in
theorem invalidateFile_spec (cache : IncrementalCache A R) (path : PathBuf) :
    ∃ cache', invalidateFile dependents (fuel + 1) elements cache path = some cache' ∧
      Dropped (cache.Holds path) cache cache' ∧
      cache'.fileToComponents = cache.fileToComponents := by
  refine ⟨_, invalidateAll_eq hnone fuel _ cache, ?_, fileToComponents_foldl_drop _ cache⟩
  exact (dropped_foldl_drop _ cache).congr fun id => helements _ id

include hnone helements in
theorem changed_spec (paths : List PathBuf) (cache : IncrementalCache A R) :
    ∃ cache', paths.foldlM (invalidateFile dependents (fuel + 1) elements) cache = some cache' ∧
      Dropped (fun id => ∃ path ∈ paths, cache.Holds path id) cache cache' ∧
      cache'.fileToComponents = cache.fileToComponents := by
  induction paths generalizing cache with
  | nil => exact ⟨cache, rfl, (Dropped.none cache).congr fun id => by simp, rfl⟩
  | cons path paths ih =>
      obtain ⟨c, hc, hdropped, hfiles⟩ := invalidateFile_spec hnone helements fuel cache path
      obtain ⟨c', hc', hdropped', hfiles'⟩ := ih c
      refine ⟨c', ?_, ?_, hfiles'.trans hfiles⟩
      · rw [List.foldlM_cons, hc]
        exact hc'
      · refine (hdropped.trans hdropped').congr ?_
        intro id
        simp only [Holds, hfiles, List.exists_mem_cons_iff]

include hnone helements in
theorem deleted_spec (paths : List PathBuf) (cache : IncrementalCache A R) :
    ∃ cache', (paths.foldlM (fun cache path => do
        let cache ← invalidateFile dependents (fuel + 1) elements cache path
        some (cache.forgetFile path)) cache) = some cache' ∧
      Dropped (fun id => ∃ path ∈ paths, cache.Holds path id) cache cache' := by
  induction paths generalizing cache with
  | nil => exact ⟨cache, rfl, (Dropped.none cache).congr fun id => by simp⟩
  | cons path paths ih =>
      obtain ⟨c, hc, hdropped, hfiles⟩ := invalidateFile_spec hnone helements fuel cache path
      have hforgot : Dropped (cache.Holds path) cache (c.forgetFile path) :=
        ⟨hdropped.invalidated, hdropped.gone, hdropped.kept, hdropped.dependencyGraph⟩
      obtain ⟨c', hc', hdropped'⟩ := ih (c.forgetFile path)
      refine ⟨c', ?_, ?_⟩
      · rw [List.foldlM_cons, hc]
        exact hc'
      · refine (hforgot.trans hdropped').congr ?_
        intro id
        rw [List.exists_mem_cons_iff]
        -- a path listed again has nothing left, and what it had is dropped already
        have hother : ∀ q, q ≠ path → ((c.forgetFile path).Holds q id ↔ cache.Holds q id) := by
          intro q hq
          change id ∈ (Function.update c.fileToComponents path none q).getD ∅ ↔ cache.Holds q id
          rw [Function.update_of_ne hq, hfiles]
          rfl
        have hsame : ¬ (c.forgetFile path).Holds path id := by
          change id ∉ (Function.update c.fileToComponents path none path).getD ∅
          rw [Function.update_self]
          exact Finset.notMem_empty id
        constructor
        · intro h
          rcases h with hpath | ⟨q, hq, hid⟩
          · exact Or.inl hpath
          · by_cases hqp : q = path
            · subst hqp
              exact absurd hid hsame
            · exact Or.inr ⟨q, hq, (hother q hqp).mp hid⟩
        · intro h
          rcases h with hpath | ⟨q, hq, hid⟩
          · exact Or.inl hpath
          · by_cases hqp : q = path
            · exact Or.inl (hqp ▸ hid)
            · exact Or.inr ⟨q, hq, (hother q hqp).mpr hid⟩

end Invalidate

theorem invalidateChangedFiles_spec (order : cache.TableOrder) (hnone : ∀ id, order.dependents id = [])
    (fuel : ℕ) (changes : ChangeSet) :
    ∃ cache', cache.invalidateChangedFiles order.dependents (fuel + 1) order.elements changes =
        some cache' ∧
      Dropped (fun id => (∃ path ∈ changes.changedFiles, cache.Holds path id) ∨
        ∃ path ∈ changes.deletedFiles, cache.Holds path id) cache cache' := by
  obtain ⟨c, hc, hdropped, hfiles⟩ :=
    changed_spec hnone order.mem_elements fuel changes.changedFiles cache
  obtain ⟨c', hc', hdropped'⟩ := deleted_spec hnone order.mem_elements fuel changes.deletedFiles c
  refine ⟨c', ?_, (hdropped.trans hdropped').congr ?_⟩
  · rw [invalidateChangedFiles, hc]
    exact hc'
  · intro id
    simp only [Holds, hfiles]

theorem Kept.dropped {S : ComponentId → Prop} {cache' : IncrementalCache A R}
    (h : Kept analyze cache.toPersistentCache) (hdropped : Dropped S cache cache') :
    Kept analyze cache'.toPersistentCache := by
  refine ⟨?_, ?_⟩
  · intro id cached hcached
    by_cases hid : S id
    · rw [hdropped.gone id hid] at hcached
      cases hcached
    · rw [hdropped.kept id hid] at hcached
      exact h.sound id cached hcached
  · rw [hdropped.dependencyGraph]
    exact h.unlinked

theorem Kept.cacheAnalysis (h : Kept analyze cache.toPersistentCache)
    (hashFile : PathBuf → Option FileHash) (id : ComponentId) (component : Component A) :
    Kept analyze
      (cache.cacheAnalysis hashFile id component (analyze component)).toPersistentCache := by
  unfold IncrementalCache.cacheAnalysis
  dsimp only
  cases hashFile (pathBuf component.filePath) with
  | none => exact h
  | some fileHash =>
      refine ⟨?_, h.unlinked⟩
      intro i cached hcached
      dsimp only at hcached
      by_cases hi : i = id
      · subst hi
        rw [Function.update_self] at hcached
        cases hcached
        rfl
      · rw [Function.update_of_ne hi] at hcached
        exact h.sound i cached hcached

theorem Kept.updateDependencies (h : Kept analyze cache.toPersistentCache) (id : ComponentId) :
    Kept analyze (cache.updateDependencies id ∅).toPersistentCache := by
  refine ⟨h.sound, ?_⟩
  intro i dependencies hrecorded
  by_cases hi : i = id
  · subst hi
    have hempty : some ∅ = some dependencies := (Function.update_self i _ _).symm.trans hrecorded
    exact (Option.some.inj hempty).symm
  · exact h.unlinked i dependencies ((Function.update_of_ne hi _ _).symm.trans hrecorded)

end IncrementalCache

namespace Build

open IncrementalCache

variable {analyze : Component A → R} {cache : IncrementalCache A R} (b : Build A)

theorem invalidateNewFiles_spec (ids : List ComponentId)
    {dependents : ComponentId → List ComponentId} (hnone : ∀ id, dependents id = []) (fuel : ℕ)
    (newFiles : List PathBuf) (cache : IncrementalCache A R) :
    ∃ cache', b.invalidateNewFiles ids dependents (fuel + 1) newFiles cache = some cache' ∧
      Dropped (fun id => id ∈ ids ∧ b.inNewFile newFiles id) cache cache' := by
  refine ⟨_, foldlM_eq_some (fun c path => invalidateAll_eq hnone fuel _ c) newFiles cache, ?_⟩
  induction newFiles generalizing cache with
  | nil => exact (Dropped.none cache).congr fun id => by simp [inNewFile]
  | cons path newFiles ih =>
      refine ((dropped_foldl_drop _ cache).trans (ih _)).congr ?_
      intro id
      simp only [inNewFile, List.any_cons, Bool.or_eq_true, List.mem_filter, and_or_left]

theorem cachedAnalyses_apply (ids : List ComponentId) (cache : IncrementalCache A R)
    (i : ComponentId) :
    cachedAnalyses ids cache i =
      if i ∈ ids then (cache.getCachedAnalysis i).map CachedAnalysis.analysis else none := by
  induction ids using List.reverseRecOn with
  | nil => rfl
  | append_singleton ids id ih =>
      rw [cachedAnalyses] at ih ⊢
      rw [List.foldl_append, List.foldl_cons, List.foldl_nil]
      by_cases hi : i = id
      · subst hi
        rw [if_pos (by simp)]
        cases hcached : cache.getCachedAnalysis i with
        | some cached => exact Function.update_self _ _ _
        | none =>
            dsimp only
            rw [ih, hcached, Option.map_none, ite_self]
      · have hmem : i ∈ ids ++ [id] ↔ i ∈ ids := by simp [hi]
        simp only [hmem]
        cases cache.getCachedAnalysis id with
        | some cached => exact (Function.update_of_ne hi _ _).trans ih
        | none => exact ih

theorem reanalyze_apply (ids : List ComponentId) (state : Analyses R × IncrementalCache A R)
    (i : ComponentId) :
    (ids.foldl (b.reanalyze analyze) state).1 i =
      if i ∈ ids then (b.runAnalysis analyze i).or (state.1 i) else state.1 i := by
  induction ids generalizing state with
  | nil => rfl
  | cons id ids ih =>
      rw [List.foldl_cons, ih]
      have hstep : (b.reanalyze analyze state id).1 i =
          if i = id then (b.runAnalysis analyze i).or (state.1 i) else state.1 i := by
        unfold reanalyze runAnalysis
        by_cases hi : i = id
        · subst hi
          rw [if_pos rfl]
          cases b.graph.components[i]? with
          | none => rfl
          | some component => exact Function.update_self _ _ _
        · rw [if_neg hi]
          cases b.graph.components[id]? with
          | none => rfl
          | some component => exact Function.update_of_ne hi _ _
      rw [hstep]
      by_cases hi : i = id
      · subst hi
        simp only [List.mem_cons_self, if_true]
        cases b.runAnalysis analyze i <;> simp
      · simp only [List.mem_cons, hi, if_false, false_or]

theorem kept_reanalyze (ids : List ComponentId) (state : Analyses R × IncrementalCache A R)
    (h : Kept analyze state.2.toPersistentCache) :
    Kept analyze (ids.foldl (b.reanalyze analyze) state).2.toPersistentCache := by
  refine foldl_keeps (P := fun state : Analyses R × IncrementalCache A R =>
    Kept analyze state.2.toPersistentCache) ?_ ids h
  intro state id hstate
  unfold reanalyze
  cases b.graph.components[id]? with
  | none => exact hstate
  | some component => exact hstate.cacheAnalysis b.hashFile id component

theorem dependencies_graph {id : ComponentId} {component : Component A}
    (h : b.graph.components[id]? = some component) : component.dependencies = ∅ := by
  rw [graph, nodes_buildCompiler, List.getElem?_map, Option.map_eq_some_iff] at h
  obtain ⟨parsed, -, rfl⟩ := h
  rfl

theorem kept_recordDependencies (ids : List ComponentId) (h : Kept analyze cache.toPersistentCache) :
    Kept analyze (b.recordDependencies ids cache).toPersistentCache := by
  refine foldl_keeps (P := fun c : IncrementalCache A R => Kept analyze c.toPersistentCache) ?_ ids h
  intro c id hc
  cases hcomponent : b.graph.components[id]? with
  | none => exact hc
  | some component =>
      dsimp only
      rw [b.dependencies_graph hcomponent]
      exact hc.updateDependencies id

/-! ### What a build uses -/

def New (cache : IncrementalCache A R) (path : PathBuf) : Prop :=
  path ∈ b.filePaths ∧ (b.hashFile path).isSome ∧ cache.fileHashes path = none

def Changed (cache : IncrementalCache A R) (path : PathBuf) : Prop :=
  path ∈ b.filePaths ∧ ∃ currentHash cachedHash, b.hashFile path = some currentHash ∧
    cache.fileHashes path = some cachedHash ∧ cachedHash ≠ currentHash

def Deleted (cache : IncrementalCache A R) (path : PathBuf) : Prop :=
  (cache.fileHashes path).isSome ∧ path ∉ b.filePaths

/-- The components that are analysed anew: those in a new file, and whatever has an id that is
recorded for a file that changed or is gone. -/
def Renewed (cache : IncrementalCache A R) (id : ComponentId) : Prop :=
  (∃ component, b.graph.components[id]? = some component ∧
    b.New cache (pathBuf component.filePath)) ∨
  ∃ path, (b.Changed cache path ∨ b.Deleted cache path) ∧ cache.Holds path id

theorem mem_changedFiles {tracked : List PathBuf} {path : PathBuf} :
    path ∈ (cache.detectChanges tracked b.hashFile b.filePaths).changedFiles ↔
      b.Changed cache path := by
  rw [detectChanges, List.mem_filter, Changed]
  refine and_congr_right fun _ => ?_
  cases b.hashFile path with
  | none => simp
  | some currentHash =>
      cases cache.fileHashes path with
      | none => simp
      | some cachedHash => simp

theorem mem_newFiles {tracked : List PathBuf} {path : PathBuf} :
    path ∈ (cache.detectChanges tracked b.hashFile b.filePaths).newFiles ↔ b.New cache path := by
  rw [detectChanges, List.mem_filter, New, decide_eq_true_iff, Option.isNone_iff_eq_none]

theorem mem_deletedFiles (order : cache.TableOrder) {path : PathBuf} :
    path ∈ (cache.detectChanges order.tracked b.hashFile b.filePaths).deletedFiles ↔
      b.Deleted cache path := by
  rw [detectChanges, List.mem_filter, Deleted, order.mem_tracked, decide_eq_true_iff]

theorem inNewFile_iff {newFiles : List PathBuf} {id : ComponentId} :
    b.inNewFile newFiles id ↔ ∃ component, b.graph.components[id]? = some component ∧
      pathBuf component.filePath ∈ newFiles := by
  rw [inNewFile, List.any_eq_true]
  unfold isIn
  cases b.graph.components[id]? with
  | none => simp
  | some component => simp [eq_comm]

theorem mem_ids_of_component {ids : List ComponentId}
    (hids : ∀ id, id ∈ ids ↔ id < b.graph.components.length) {id : ComponentId} :
    id ∈ ids ↔ ∃ component, b.graph.components[id]? = some component := by
  rw [hids]
  constructor
  · exact fun hid => ⟨_, List.getElem?_eq_getElem hid⟩
  · intro h
    obtain ⟨component, hcomponent⟩ := h
    exact (List.getElem?_eq_some_iff.mp hcomponent).choose

theorem invalidate_spec (hkept : Kept analyze cache.toPersistentCache) (order : cache.TableOrder)
    {ids : List ComponentId} (hids : ∀ id, id ∈ ids ↔ id < b.graph.components.length)
    {changes : ChangeSet}
    (hchanges : changes = cache.detectChanges order.tracked b.hashFile b.filePaths) (fuel : ℕ) :
    ∃ c c', cache.invalidateChangedFiles order.dependents (fuel + 1) order.elements changes =
        some c ∧
      b.invalidateNewFiles ids order.dependents (fuel + 1) changes.newFiles c = some c' ∧
      Dropped (b.Renewed cache) cache c' := by
  have hnone := hkept.no_dependents order
  obtain ⟨c, hc, hfiles⟩ := invalidateChangedFiles_spec order hnone fuel changes
  obtain ⟨c', hc', hnew⟩ := b.invalidateNewFiles_spec ids hnone fuel changes.newFiles c
  refine ⟨c, c', hc, hc', (hfiles.trans hnew).congr ?_⟩
  intro id
  simp only [hchanges, mem_changedFiles, mem_deletedFiles, inNewFile_iff, mem_newFiles, Renewed,
    or_and_right, exists_or]
  constructor
  · intro h
    rcases h with hfile | ⟨-, hcomponent⟩
    · exact Or.inr hfile
    · exact Or.inl hcomponent
  · intro h
    rcases h with ⟨component, hcomponent, hpath⟩ | hfile
    · exact Or.inr ⟨(b.mem_ids_of_component hids).mpr ⟨component, hcomponent⟩, component, hcomponent,
        hpath⟩
    · exact Or.inl hfile

/-- A build that begins with nothing marked: what is renewed has its own analysis, all else what
the cache has under its id. -/
theorem rebuild_spec (hkept : Kept analyze cache.toPersistentCache) (hclear : cache.invalidated = ∅)
    (order : cache.TableOrder) {ids : List ComponentId}
    (hids : ∀ id, id ∈ ids ↔ id < b.graph.components.length) :
    ∃ analyses cache', b.rebuild analyze cache order ids = some (analyses, cache') ∧
      Kept analyze cache'.toPersistentCache ∧ cache'.invalidated = ∅ ∧
      (∀ id, b.Renewed cache id → analyses id = b.runAnalysis analyze id) ∧
      ∀ id, ¬ b.Renewed cache id → analyses id =
        if id ∈ ids then (cache.componentCache id).map CachedAnalysis.analysis else none := by
  set changes := cache.detectChanges order.tracked b.hashFile b.filePaths with hchanges
  obtain ⟨c, c', hc, hc', hdropped⟩ :=
    b.invalidate_spec hkept order hids hchanges order.recorded.length
  have hinvalidated : ∀ id, id ∈ order.elements c'.invalidated ↔ b.Renewed cache id := by
    intro id
    rw [order.mem_elements, hdropped.invalidated, hclear]
    simp
  have hcached : ∀ id, ¬ b.Renewed cache id → cachedAnalyses ids c' id =
      if id ∈ ids then (cache.componentCache id).map CachedAnalysis.analysis else none := by
    intro id hid
    have hunmarked : id ∉ c'.invalidated := by
      rw [← order.mem_elements, hinvalidated]
      exact hid
    rw [cachedAnalyses_apply, getCachedAnalysis, if_neg hunmarked, hdropped.kept id hid]
  have hkept' := hkept.dropped hdropped
  by_cases hany : ¬ (order.elements c'.invalidated).isEmpty ∨ ¬ changes.newFiles.isEmpty
  · have hnew : ∀ id, id ∈ ids.filter (b.inNewFile changes.newFiles) → b.Renewed cache id := by
      intro id hid
      obtain ⟨component, hcomponent, hpath⟩ := b.inNewFile_iff.mp (List.mem_filter.mp hid).2
      exact Or.inl ⟨component, hcomponent, b.mem_newFiles.mp hpath⟩
    set state := (ids.filter (b.inNewFile changes.newFiles)).foldl (b.reanalyze analyze)
      ((order.elements c'.invalidated).foldl (b.reanalyze analyze) (cachedAnalyses ids c', c'))
      with hstate
    have hkeptState := b.kept_reanalyze (ids.filter (b.inNewFile changes.newFiles)) _
      (b.kept_reanalyze (order.elements c'.invalidated) (cachedAnalyses ids c', c') hkept')
    refine ⟨state.1, (b.recordDependencies ids state.2).clearInvalidated, ?_,
      b.kept_recordDependencies ids hkeptState, rfl, ?_, ?_⟩
    · rw [rebuild]
      simp only [← hchanges, hc, hc', Option.bind_eq_bind, Option.bind_some, if_pos hany]
      rfl
    · intro id hid
      rw [hstate, reanalyze_apply, reanalyze_apply, if_pos ((hinvalidated id).mpr hid)]
      dsimp only
      cases hrun : b.runAnalysis analyze id with
      | some analysis => simp
      | none =>
          have hout : id ∉ ids := by
            intro hin
            obtain ⟨component, hcomponent⟩ := (b.mem_ids_of_component hids).mp hin
            rw [runAnalysis, hcomponent] at hrun
            cases hrun
          rw [cachedAnalyses_apply, if_neg hout]
          simp
    · intro id hid
      rw [hstate, reanalyze_apply, reanalyze_apply,
        if_neg fun h => hid ((hinvalidated id).mp h), if_neg fun h => hid (hnew id h)]
      exact hcached id hid
  · refine ⟨cachedAnalyses ids c', (b.recordDependencies ids c').clearInvalidated, ?_,
      b.kept_recordDependencies ids hkept', rfl, ?_, hcached⟩
    · rw [rebuild]
      simp only [← hchanges, hc, hc', Option.bind_eq_bind, Option.bind_some, if_neg hany]
    · intro id hid
      rw [not_or, not_not, List.isEmpty_iff] at hany
      have hmem := (hinvalidated id).mpr hid
      rw [hany.1] at hmem
      cases hmem

end Build

/-! ### Over the builds of a project -/

/-- The cache and its file after some builds, in whatever order their tables are gone through. The
file may be written and the cache opened anew between them. -/
inductive Reachable (analyze : Component A → R) :
    IncrementalCache A R → Option (PersistentCache A R) → Prop
  | new : Reachable analyze .new none
  | build {cache saved} (b : Build A) (order : HashOrder b.graph)
      (tables : (cache.ensureLoaded saved).TableOrder) {analyses : Build.Analyses R}
      {cache' : IncrementalCache A R} : Reachable analyze cache saved →
      b.optimizeIncremental analyze order (cache.ensureLoaded saved) tables =
        some (.ok (analyses, cache')) → Reachable analyze cache' saved
  | save {cache saved} :
      Reachable analyze cache saved → Reachable analyze cache (some cache.toPersistentCache)
  | reopen {cache saved} :
      Reachable analyze cache saved → Reachable analyze (IncrementalCache.new.load saved) saved

namespace Build

open IncrementalCache

variable {analyze : Component A → R}

def Full (analyze : Component A → R) (b : Build A) (order : HashOrder b.graph)
    (cache : IncrementalCache A R) (tables : cache.TableOrder) : Prop :=
  ∃ result, b.optimize analyze order = some result ∧
    (b.optimizeIncremental analyze order cache tables).map (Except.map Prod.fst) = some result

/-- To invalidate a component is to invalidate all that depend on it in the graph. -/
def ReachesDependents (b : Build A) (cache : IncrementalCache A R) (tables : cache.TableOrder) :
    Prop :=
  ∀ id, ∃ cache', invalidateComponent tables.dependents (tables.recorded.length + 1) id cache =
      some cache' ∧
    ∀ dependent, Relation.TransGen (fun i j => j ∈ b.graph.dependencies i) dependent id →
      dependent ∈ cache'.invalidated

/-- Each component that is not renewed has under its id the analysis of one that it cannot be told
from. -/
def Current (analyze : Component A → R) (b : Build A) (cache : IncrementalCache A R) : Prop :=
  ∀ id component, b.graph.components[id]? = some component → b.Renewed cache id ∨
    ∃ cached, cache.componentCache id = some cached ∧ analyze cached.component = analyze component

theorem validate_ends (b : Build A) (order : HashOrder b.graph) :
    ∃ validated, b.graph.validate order = some validated := by
  obtain ⟨found, hfound⟩ := b.graph.searchAll_ends (fun i j => dependencies_lt) order
  rw [ComponentGraph.validate, hfound]
  exact ⟨_, rfl⟩

theorem kept_of_reachable {cache : IncrementalCache A R} {saved : Option (PersistentCache A R)}
    (h : Reachable analyze cache saved) :
    Kept analyze cache.toPersistentCache ∧ cache.invalidated = ∅ ∧
      ∀ tables, saved = some tables → Kept analyze tables := by
  induction h with
  | new => exact ⟨kept_new, rfl, fun tables htables => by cases htables⟩
  | @build cache saved b order tables analyses cache' _ hbuild ih =>
      obtain ⟨hkept, hclear, hsaved⟩ := ih
      have hclear' : (cache.ensureLoaded saved).invalidated = ∅ := by
        rw [invalidated_ensureLoaded, hclear]
      obtain ⟨analyses', after, hrebuild, hafter, hunmarked, -, -⟩ :=
        b.rebuild_spec (hkept.ensureLoaded hsaved) hclear' tables order.mem_ids
      rw [optimizeIncremental, hrebuild] at hbuild
      split at hbuild
      · cases hbuild
      · cases hbuild
      · cases hbuild
        exact ⟨hafter, hunmarked, hsaved⟩
  | save _ ih =>
      obtain ⟨hkept, hclear, -⟩ := ih
      refine ⟨hkept, hclear, ?_⟩
      intro tables htables
      cases htables
      exact hkept
  | reopen _ ih =>
      obtain ⟨-, -, hsaved⟩ := ih
      refine ⟨kept_new.load hsaved, ?_, hsaved⟩
      exact invalidated_load new _

theorem full_iff {b : Build A} {order : HashOrder b.graph} {cache : IncrementalCache A R}
    (hkept : Kept analyze cache.toPersistentCache) (hclear : cache.invalidated = ∅)
    (tables : cache.TableOrder) : Full analyze b order cache tables ↔
      b.graph.validate order ≠ some (.ok ()) ∨ Current analyze b cache := by
  obtain ⟨validated, hvalidated⟩ := b.validate_ends order
  obtain ⟨analyses, after, hrebuild, -, -, hrenewed, hcached⟩ :=
    b.rebuild_spec hkept hclear tables order.mem_ids
  unfold Full optimize optimizeIncremental
  rw [hvalidated, hrebuild]
  cases validated with
  | error error =>
      refine iff_of_true ⟨_, rfl, rfl⟩ (Or.inl ?_)
      intro h
      cases h
  | ok =>
      have hsame : Current analyze b cache ↔ b.runAnalysis analyze = analyses := by
        rw [funext_iff]
        refine forall_congr' fun id => ?_
        by_cases hid : b.Renewed cache id
        · rw [hrenewed id hid]
          exact iff_of_true (fun _ _ => Or.inl hid) rfl
        · rw [hcached id hid, runAnalysis]
          cases hcomponent : b.graph.components[id]? with
          | none =>
              have hout : id ∉ order.ids := by
                rw [b.mem_ids_of_component order.mem_ids, hcomponent]
                simp
              rw [if_neg hout]
              simp
          | some component =>
              rw [if_pos ((b.mem_ids_of_component order.mem_ids).mpr ⟨component, hcomponent⟩)]
              simp only [Option.some.injEq, forall_eq', hid, false_or, Option.map_some]
              rw [@eq_comm _ (some _), Option.map_eq_some_iff]
              refine exists_congr fun cached => and_congr_right fun hentry => ?_
              rw [hkept.sound id cached hentry]
      rw [hsame, @eq_comm _ (b.runAnalysis analyze)]
      simp [Except.map]

theorem reachesDependents_iff {b : Build A} {cache : IncrementalCache A R}
    (hkept : Kept analyze cache.toPersistentCache) (hclear : cache.invalidated = ∅)
    (tables : cache.TableOrder) : ReachesDependents b cache tables ↔
      ∀ i j, j ∈ b.graph.dependencies i → i = j := by
  have hinvalidate : ∀ id, invalidateComponent tables.dependents (tables.recorded.length + 1) id
      cache = some (cache.drop id) := fun id =>
    invalidateComponent_eq (hkept.no_dependents tables) tables.recorded.length id cache
  have hmarked : ∀ id dependent, dependent ∈ (cache.drop id).invalidated ↔ dependent = id := by
    intro id dependent
    rw [(dropped_drop cache id).invalidated, hclear]
    simp
  constructor
  · intro h i j hedge
    obtain ⟨cache', hcache', hall⟩ := h j
    rw [hinvalidate] at hcache'
    cases hcache'
    exact (hmarked j i).mp (hall i (Relation.TransGen.single hedge))
  · intro h id
    refine ⟨cache.drop id, hinvalidate id, ?_⟩
    intro dependent hpath
    rw [hmarked]
    induction hpath with
    | single hedge => exact h _ _ hedge
    | tail _ hedge ih => exact ih.trans (h _ _ hedge)

theorem dependencies_of_no_imports {components : List (ParsedComponent A)}
    (h : ∀ p ∈ components, p.importSources = [] ∧ p.imports = []) (i : ComponentId) :
    (buildCompiler components).dependencies i = ∅ := by
  rw [Finset.eq_empty_iff_forall_notMem]
  intro j hj
  obtain ⟨-, -, -, q, hq, -, htaken⟩ := (mem_dependencies i j).mp hj
  rcases htaken with ⟨source, hsource, -⟩ | ⟨bound, hbound, -⟩
  · rw [(h q hq).1] at hsource
    cases hsource
  · rw [(h q hq).2] at hbound
    cases hbound

/-- Files that import nothing, each with one component and a hash of its own. -/
def ofNames (names : List String) : Build String where
  components := names.map fun name => ⟨name, name.toList, [], [], name⟩
  filePaths := names.map fun name => pathBuf name.toList
  hashFile path := some path.parts.flatten.length

def namesOrder (names : List String) : HashOrder (ofNames names).graph where
  ids := List.range (ofNames names).graph.components.length
  next _ := []
  mem_ids _ := List.mem_range
  mem_next i j := by
    rw [graph, dependencies_of_no_imports]
    · simp
    · intro p hp
      obtain ⟨name, -, rfl⟩ := List.mem_map.mp hp
      exact ⟨rfl, rfl⟩

def ascending (ids : Finset ComponentId) : List ComponentId :=
  (List.range (ids.sup id + 1)).filter (· ∈ ids)

theorem mem_ascending (ids : Finset ComponentId) (i : ComponentId) : i ∈ ascending ids ↔ i ∈ ids := by
  rw [ascending, List.mem_filter, List.mem_range, decide_eq_true_iff, and_iff_right_iff_imp]
  exact fun hi => Nat.lt_succ_of_le (Finset.le_sup (f := id) hi)

def newTables : (IncrementalCache.new (A := String) (R := String)).TableOrder where
  tracked := []
  mem_tracked path := by simp [IncrementalCache.new]
  recorded := []
  mem_recorded i := by simp [IncrementalCache.new]
  dependents _ := []
  mem_dependents i dependent := by simp [IncrementalCache.new]
  elements := ascending
  mem_elements := mem_ascending

def afterTwo : IncrementalCache String String :=
  (((ofNames ["b", "cc"]).rebuild Component.attributes .new newTables [0, 1]).map Prod.snd).getD .new

def reopened : IncrementalCache String String :=
  IncrementalCache.new.load (some afterTwo.toPersistentCache)

theorem reachable_reopened :
    Reachable Component.attributes reopened (some afterTwo.toPersistentCache) := by
  have hbuild : Reachable Component.attributes afterTwo none :=
    @Reachable.build String String Component.attributes .new none (ofNames ["b", "cc"])
      (namesOrder ["b", "cc"]) newTables _ _ Reachable.new rfl
  exact hbuild.save.reopen

def hashTwo (hashes : PathBuf → Option FileHash) : PathBuf → Option FileHash :=
  Function.update (Function.update hashes (pathBuf "b".toList) (some 1)) (pathBuf "cc".toList) (some 2)

theorem fileHashes_reopened (path : PathBuf) :
    reopened.fileHashes path = (hashTwo (hashTwo fun _ => none) path).or none := rfl

theorem dependencyGraph_reopened (i : ComponentId) :
    reopened.dependencyGraph i =
      (Function.update (Function.update (fun _ => none) 0 (some ∅)) 1 (some ∅) i).or none := rfl

def reopenedTables : reopened.TableOrder where
  tracked := [pathBuf "b".toList, pathBuf "cc".toList]
  mem_tracked path := by
    rw [fileHashes_reopened, Option.or_none, hashTwo, hashTwo]
    simp only [Function.update_apply, List.mem_cons, List.not_mem_nil, or_false]
    split_ifs <;> simp_all
  recorded := [0, 1]
  mem_recorded i := by
    rw [dependencyGraph_reopened, Option.or_none]
    simp only [Function.update_apply, List.mem_cons, List.not_mem_nil, or_false]
    split_ifs <;> simp_all
  dependents _ := []
  mem_dependents i dependent := by
    rw [dependencyGraph_reopened, Option.or_none]
    simp only [Function.update_apply]
    split_ifs <;> simp
  elements := ascending
  mem_elements := mem_ascending

end Build

end Albedo.Scan
