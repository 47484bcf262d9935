import Albedo.Library.Fallible
import Albedo.Confinement.Ledger

/-!
# Replaying the module ledger

An entry keeps the place where its specifier was first registered, while its
script is the last one. A replay therefore rebuilds the engine exactly when no
reload made a module import one that was registered after it, and when every
body still runs on the modules that now stand under its imports.
-/
namespace Albedo.Confinement
open KeyedList Fallible

variable {w : World}

abbrev Entries := List (String × LedgerEntry)

/-! ### What the ledger says of a realm -/

def World.source (w : World) (entries : Entries) (specifier : String) : Option Script :=
  match entries.lookup specifier with
  | some entry => some ⟨specifier, entry.script⟩
  | none => (w.boot specifier).map Instance.script

theorem source_of_not_mem {entries : Entries} {x : String} (hx : x ∉ keys entries) :
    w.source entries x = (w.boot x).map Instance.script := by
  rw [World.source, lookup_eq_none.mpr hx]

theorem source_put (entries : Entries) (x y : String) (entry : LedgerEntry) :
    w.source (put x entry entries) y =
      if y = x then some ⟨x, entry.script⟩ else w.source entries y := by
  rw [World.source, lookup_put]
  by_cases hy : y = x
  · subst hy
    simp
  · simp [hy, World.source]

/-- The module that the recorded sources give under a name: the recorded script,
linked with the modules they give under its imports. -/
inductive Current (w : World) (entries : Entries) : String → Instance → Prop where
  | recorded {entry : String × LedgerEntry} {seen : List Instance} (hmem : entry ∈ entries)
      (himports : List.Forall₂ (Current w entries) (w.imports (scriptOf entry)) seen) :
      Current w entries entry.1 (.mk (scriptOf entry) seen)
  | boot {x : String} {instance' : Instance} (hx : x ∉ keys entries)
      (hboot : w.boot x = some instance') : Current w entries x instance'

/-! ### The claim's two sides -/

def EvaluatedAfterImports (w : World) (entries : Entries) : Prop :=
  ∀ pre entry post, entries = pre ++ entry :: post → ∀ y ∈ w.imports (scriptOf entry),
    y ∈ keys pre ∨ (y ∉ keys entries ∧ (w.boot y).isSome = true)

/-- Replaying the ledger into a fresh realm succeeds, and leaves the names, the
sources and the hashes of the engine, each module evaluated after its imports. -/
def Rebuilt (enabled : Bool) (store : BytecodeStore w) (engine : Engine) : Prop :=
  (∃ engine', engine.confine enabled store = some engine' ∧
    (∀ x, (engine'.realm x).map Instance.script = (engine.realm x).map Instance.script) ∧
    engine'.loadedModuleHashes = engine.loadedModuleHashes) ∧
  (∀ x, (engine.ledger.hashTable x).or (w.bootHashes x) = engine.loadedModuleHashes x) ∧
  EvaluatedAfterImports w engine.ledger.entries

/-- No recorded module imports itself or one that was first registered after it. -/
def NoLateImport (w : World) (entries : Entries) : Prop :=
  ∀ pre entry post, entries = pre ++ entry :: post →
    ∀ y ∈ w.imports (scriptOf entry), y ∉ keys (entry :: post)

def replaysStrict (w : World) (enabled : Bool) (entry : String × LedgerEntry) : Bool :=
  enabled && eligibleForBytecode entry.2 && w.compiles (scriptOf entry)

/-- The body of every recorded module runs on what the recorded sources give
under its imports. -/
def BodiesRun (w : World) (enabled : Bool) (entries : Entries) : Prop :=
  ∀ entry ∈ entries, ∀ seen,
    List.Forall₂ (Current w entries) (w.imports (scriptOf entry)) seen →
      w.runs (replaysStrict w enabled entry) (scriptOf entry) seen = true

/-- No two scripts that may be replayed from bytecode meet under one content hash,
in the ledger or in the store. -/
structure HashesApart (store : BytecodeStore w) (entries : Entries) : Prop where
  compiled : ∀ entry ∈ entries, eligibleForBytecode entry.2 = true → ∀ script,
    store.compiled entry.2.scriptHash = some script → script = scriptOf entry
  refused : ∀ entry ∈ entries, eligibleForBytecode entry.2 = true →
    store.refused entry.2.scriptHash → w.compiles (scriptOf entry) = false
  distinct : ∀ entry ∈ entries, eligibleForBytecode entry.2 = true →
    ∀ other ∈ entries, eligibleForBytecode other.2 = true →
      entry.2.scriptHash = other.2.scriptHash → scriptOf entry = scriptOf other

/-! ### The store does not show in a replay -/

theorem HashesApart.insert {store : BytecodeStore w} {entries : Entries}
    (h : HashesApart store entries) {entry : String × LedgerEntry} (he : entry ∈ entries)
    (hthird : eligibleForBytecode entry.2 = true) (hc : w.compiles (scriptOf entry) = true) :
    HashesApart (store.insert entry.2.scriptHash (scriptOf entry) hc) entries where
  compiled := by
    intro other ho hthird' script hs
    unfold BytecodeStore.insert at hs
    by_cases hkey : other.2.scriptHash = entry.2.scriptHash
    · have hsame : scriptOf entry = script := by simpa [hkey] using hs
      rw [← hsame]
      exact h.distinct entry he hthird other ho hthird' hkey.symm
    · simp only [Function.update_of_ne hkey] at hs
      split_ifs at hs
      exact h.compiled other ho hthird' script hs
  refused := h.refused
  distinct := h.distinct

theorem HashesApart.refuse {store : BytecodeStore w} {entries : Entries}
    (h : HashesApart store entries) {entry : String × LedgerEntry} (he : entry ∈ entries)
    (hthird : eligibleForBytecode entry.2 = true) (hc : w.compiles (scriptOf entry) = false) :
    HashesApart (store.refuse entry.2.scriptHash) entries where
  compiled := h.compiled
  refused := by
    rintro other ho hthird' (hkey | hrefused)
    · rw [h.distinct other ho hthird' entry he hthird hkey]
      exact hc
    · exact h.refused other ho hthird' hrefused
  distinct := h.distinct

theorem replayEntry_eq (enabled : Bool) {store : BytecodeStore w} {entries : Entries}
    (h : HashesApart store entries) {entry : String × LedgerEntry} (he : entry ∈ entries)
    (realm : Realm) :
    ∃ store', HashesApart store' entries ∧ replayEntry enabled store realm entry =
      (w.evaluate (replaysStrict w enabled entry) realm (scriptOf entry)).map (store', ·) := by
  unfold replayEntry
  by_cases hsource : (!enabled || !eligibleForBytecode entry.2 ||
      decide (store.refused entry.2.scriptHash)) = true
  · rw [if_pos hsource]
    refine ⟨store, h, ?_⟩
    have hmode : replaysStrict w enabled entry = false := by
      simp only [Bool.or_eq_true, Bool.not_eq_true', decide_eq_true_eq] at hsource
      by_cases hthird : eligibleForBytecode entry.2 = true
      · rcases hsource with (hoff | hproject) | hrefused
        · simp [replaysStrict, hoff]
        · simp [replaysStrict, hproject]
        · simp [replaysStrict, h.refused entry he hthird hrefused]
      · simp [replaysStrict, hthird]
    rw [hmode]
  · rw [if_neg hsource]
    simp only [Bool.or_eq_true, Bool.not_eq_true', decide_eq_true_eq, not_or,
      Bool.not_eq_false] at hsource
    obtain ⟨⟨hon, hthird⟩, _⟩ := hsource
    have hmode : replaysStrict w enabled entry = w.compiles (scriptOf entry) := by
      simp [replaysStrict, hon, hthird]
    rw [hmode]
    cases hheld : store.compiled entry.2.scriptHash with
    | some held =>
      have hown := h.compiled entry he hthird held hheld
      have hcompiles := store.compiles_of_compiled hheld
      subst hown
      exact ⟨store, h, by simp only [hcompiles]⟩
    | none =>
      by_cases hcompiles : w.compiles (scriptOf entry) = true
      · refine ⟨_, h.insert he hthird hcompiles, ?_⟩
        simp only [hcompiles, dite_true]
      · have hnot : w.compiles (scriptOf entry) = false := by simpa using hcompiles
        refine ⟨_, h.refuse he hthird hnot, ?_⟩
        simp only [hnot, Bool.false_eq_true, dite_false]

def rebuild (w : World) (enabled : Bool) (realm : Realm) (entries : Entries) : Option Realm :=
  entries.foldlM
    (fun realm entry => w.evaluate (replaysStrict w enabled entry) realm (scriptOf entry)) realm

theorem replayLedger_eq (enabled : Bool) {store : BytecodeStore w} {entries rest : Entries}
    (h : HashesApart store entries) (hrest : rest ⊆ entries) (realm : Realm) :
    (replayLedger enabled store realm rest).map Prod.snd = rebuild w enabled realm rest := by
  induction rest generalizing store realm with
  | nil => rfl
  | cons entry rest ih =>
    obtain ⟨store', h', heq⟩ :=
      replayEntry_eq enabled h (hrest List.mem_cons_self) realm
    have hsub : rest ⊆ entries := fun e he => hrest (List.mem_cons_of_mem _ he)
    rw [replayLedger, rebuild, List.foldlM_cons, List.foldlM_cons, heq]
    cases hev : w.evaluate (replaysStrict w enabled entry) realm (scriptOf entry) with
    | none => rfl
    | some realm' => exact ih h' hsub realm'

theorem confine_eq_some {enabled : Bool} {store : BytecodeStore w} {engine engine' : Engine}
    (h : HashesApart store engine.ledger.entries) :
    engine.confine enabled store = some engine' ↔
      ∃ realm, rebuild w enabled w.boot engine.ledger.entries = some realm ∧
        engine' = { engine with realm := realm } := by
  rw [← replayLedger_eq enabled h (List.Subset.refl _) w.boot, Engine.confine]
  cases replayLedger enabled store w.boot engine.ledger.entries with
  | none => simp
  | some rebuilt => simp [eq_comm]

/-! ### One evaluation -/

theorem evaluate_eq_some {strict : Bool} {realm realm' : Realm} {script : Script} :
    w.evaluate strict realm script = some realm' ↔
      ∃ seen, List.Forall₂ (fun y i => realm y = some i) (w.imports script) seen ∧
        w.runs strict script seen = true ∧
        realm' = Function.update realm script.specifier (some (.mk script seen)) := by
  unfold World.evaluate
  rw [Option.bind_eq_some_iff]
  constructor
  · rintro ⟨seen, hseen, hrun⟩
    split_ifs at hrun with hruns
    cases hrun
    exact ⟨seen, mapM_eq_some.mp hseen, hruns, rfl⟩
  · rintro ⟨seen, hseen, hruns, rfl⟩
    exact ⟨seen, mapM_eq_some.mpr hseen, by rw [if_pos hruns]⟩

theorem rebuild_snoc {enabled : Bool} {realm realm' : Realm} {pre : Entries}
    {entry : String × LedgerEntry} :
    rebuild w enabled realm (pre ++ [entry]) = some realm' ↔
      ∃ middle, rebuild w enabled realm pre = some middle ∧
        w.evaluate (replaysStrict w enabled entry) middle (scriptOf entry) = some realm' := by
  rw [rebuild, List.foldlM_append, Option.bind_eq_bind, Option.bind_eq_some_iff]
  simp [rebuild]

theorem rebuild_source {enabled : Bool} {realm : Realm} {entries : Entries}
    (hn : (keys entries).Nodup) (h : rebuild w enabled w.boot entries = some realm) (x : String) :
    (realm x).map Instance.script = w.source entries x := by
  induction entries using List.reverseRecOn generalizing realm with
  | nil =>
    cases h
    rfl
  | append_singleton pre entry ih =>
    obtain ⟨middle, hpre, hlast⟩ := rebuild_snoc.mp h
    obtain ⟨seen, _, _, rfl⟩ := evaluate_eq_some.mp hlast
    rw [keys_append] at hn
    have hnew : entry.1 ∉ keys pre := fun hmem => (List.nodup_append.mp hn).2.2 _ hmem _
      (by simp [keys]) rfl
    have hput : pre ++ [entry] = put entry.1 entry.2 pre := (put_eq_append hnew).symm
    rw [hput, source_put]
    by_cases hx : x = entry.1
    · subst hx
      simp [scriptOf, Instance.script]
    · rw [if_neg hx, ← ih (List.nodup_append.mp hn).1 hpre]
      have hx' : x ≠ (scriptOf entry).specifier := hx
      rw [Function.update_of_ne hx']

theorem forall₂_congr_mem {α β : Type} {R S : α → β → Prop} {xs : List α} {ys : List β}
    (h : ∀ x ∈ xs, ∀ y, R x y ↔ S x y) : List.Forall₂ R xs ys ↔ List.Forall₂ S xs ys := by
  rw [List.forall₂_iff_get, List.forall₂_iff_get]
  refine and_congr_right fun _ => forall_congr' fun k => forall₂_congr fun hk _ => ?_
  exact h _ (List.get_mem _ _) _

/-- What is bound after part of a replay is what the recorded sources give, for
the names that stand there already and for those the ledger does not hold. -/
theorem current_iff {enabled : Bool} {realm : Realm} {entries pre post : Entries}
    (hn : (keys entries).Nodup) (hlate : NoLateImport w entries) (hsplit : entries = pre ++ post)
    (h : rebuild w enabled w.boot pre = some realm) {x : String}
    (hx : x ∈ keys pre ∨ x ∉ keys entries) (i : Instance) :
    Current w entries x i ↔ realm x = some i := by
  induction pre using List.reverseRecOn generalizing realm post x i with
  | nil =>
    cases h
    have hout : x ∉ keys entries := hx.resolve_left (by simp)
    constructor
    · intro hcurrent
      cases hcurrent with
      | recorded hmem _ => exact absurd (mem_keys.mpr ⟨_, hmem⟩) hout
      | boot _ hboot => exact hboot
    · exact Current.boot hout
  | append_singleton pre entry ih =>
    have hsplit' : entries = pre ++ entry :: post := by simpa using hsplit
    obtain ⟨middle, hpre, hlast⟩ := rebuild_snoc.mp h
    obtain ⟨seen, hseen, _, rfl⟩ := evaluate_eq_some.mp hlast
    have hmem : entry ∈ entries := by simp [hsplit']
    -- the imports stand in the part replayed before, or outside the ledger
    have hbefore : ∀ y ∈ w.imports (scriptOf entry), y ∈ keys pre ∨ y ∉ keys entries := by
      intro y hy
      have hafter := hlate pre entry post hsplit' y hy
      by_cases hin : y ∈ keys pre
      · exact Or.inl hin
      · refine Or.inr ?_
        rw [hsplit', keys_append, List.mem_append]
        exact fun hor => hor.elim hin hafter
    have himports : ∀ got, List.Forall₂ (Current w entries) (w.imports (scriptOf entry)) got ↔
        List.Forall₂ (fun y i => middle y = some i) (w.imports (scriptOf entry)) got := by
      intro got
      exact forall₂_congr_mem fun y hy i => ih hsplit' hpre (hbefore y hy) i
    by_cases hname : x = entry.1
    · subst hname
      have hbound : Function.update middle (scriptOf entry).specifier
          (some (Instance.mk (scriptOf entry) seen)) entry.1 =
          some (.mk (scriptOf entry) seen) := Function.update_self ..
      rw [hbound, Option.some.injEq]
      constructor
      · intro hcurrent
        generalize hkey : entry.1 = key at hcurrent
        cases hcurrent with
        | @recorded other got hother hgot =>
          have hsame : other = entry := by
            have hvalue := lookup_of_mem hn (show (other.1, other.2) ∈ entries from hother)
            rw [← hkey, lookup_of_mem hn (show (entry.1, entry.2) ∈ entries from hmem)] at hvalue
            exact Prod.ext hkey.symm (Option.some.inj hvalue).symm
          subst hsame
          have hgot' := mapM_eq_some.mpr ((himports got).mp hgot)
          rw [mapM_eq_some.mpr hseen] at hgot'
          rw [Option.some.inj hgot']
        | boot hout _ => exact absurd (hkey ▸ mem_keys.mpr ⟨_, hmem⟩) hout
      · rintro rfl
        exact Current.recorded hmem ((himports seen).mpr hseen)
    · have hname' : x ≠ (scriptOf entry).specifier := hname
      rw [Function.update_of_ne hname']
      refine ih hsplit' hpre (hx.imp_left fun hin => ?_) i
      rw [keys_append, List.mem_append] at hin
      exact hin.resolve_right (by simpa using hname)

/-! ### What a history keeps -/

/-- The realm and its hashes are what the ledger holds over a fresh realm, and
what the recorded scripts import is bound. -/
structure Kept (w : World) (engine : Engine) : Prop where
  nodup : (keys engine.ledger.entries).Nodup
  bound : ∀ x, (engine.realm x).map Instance.script = w.source engine.ledger.entries x
  hashes : ∀ x, (engine.ledger.hashTable x).or (w.bootHashes x) = engine.loadedModuleHashes x
  imports : ∀ entry ∈ engine.ledger.entries, ∀ y ∈ w.imports (scriptOf entry),
    (w.source engine.ledger.entries y).isSome = true

theorem kept_fresh (w : World) : Kept w (Engine.fresh w) where
  nodup := List.nodup_nil
  bound := fun _ => rfl
  hashes := fun _ => rfl
  imports := fun _ he => absurd he List.not_mem_nil

theorem Kept.register {engine engine' : Engine} (h : Kept w engine) {script : Script}
    {hash : UInt64} {origin : Origin} (hreg : engine.register w script hash origin = some engine') :
    Kept w engine' := by
  obtain ⟨realm, hev, rfl⟩ := Option.map_eq_some_iff.mp hreg
  obtain ⟨seen, hseen, _, rfl⟩ := evaluate_eq_some.mp hev
  have hsource (y : String) (hy : (w.source engine.ledger.entries y).isSome = true) :
      (w.source (put script.specifier ⟨script.text, hash, origin, w.stableSourceHash script.text⟩
        engine.ledger.entries) y).isSome = true := by
    rw [source_put]
    split_ifs
    · rfl
    · exact hy
  refine ⟨nodup_put _ _ h.nodup, fun x => ?_, fun x => ?_, fun entry he y hy => hsource y ?_⟩
  · rw [ModuleLedger.record, source_put]
    by_cases hx : x = script.specifier
    · subst hx
      simp [Instance.script]
    · simp only [if_neg hx, Function.update_of_ne hx, h.bound x]
  · rw [ModuleLedger.hashTable, ModuleLedger.record, lookup_put]
    by_cases hx : x = script.specifier
    · subst hx
      simp
    · simp only [if_neg hx, Function.update_of_ne hx, ← h.hashes x]
      rfl
  · rcases mem_of_mem_put he with rfl | hold
    · obtain ⟨i, hi⟩ : ∃ i, engine.realm y = some i := by
        obtain ⟨hlen, hat⟩ := List.forall₂_iff_get.mp hseen
        obtain ⟨k, hk⟩ := List.get_of_mem (show y ∈ w.imports script from hy)
        exact ⟨_, hk ▸ hat k k.2 (hlen ▸ k.2)⟩
      rw [← h.bound y, hi]
      rfl
    · exact h.imports entry hold y hy

theorem Kept.step {engine : Engine} (h : Kept w engine) (op : Op) : Kept w (engine.step w op) := by
  unfold Engine.step
  cases hcall : engine.call w op with
  | none => exact h
  | some engine' =>
    cases op with
    | load specifier code stamp =>
      simp only [Engine.call, Engine.loadModuleWithSpec] at hcall
      split_ifs at hcall with hsize hloaded
      · cases hcall
        exact h
      · obtain ⟨text, _, hreg⟩ := Option.bind_eq_some_iff.mp hcall
        exact h.register hreg
    | loadPrecompiled specifier compiledScript sourceHash =>
      simp only [Engine.call, Engine.loadPrecompiledModule] at hcall
      split_ifs at hcall with hloaded
      · cases hcall
        exact h
      · exact h.register hcall
    | clear =>
      cases hcall
      exact kept_fresh w

theorem Kept.run {engine : Engine} (h : Kept w engine) (history : List Op) :
    Kept w (engine.run w history) := by
  induction history generalizing engine with
  | nil => exact h
  | cons op history ih => exact ih (h.step op)

/-! ### When a replay rebuilds the engine -/

theorem Kept.evaluatedAfterImports {engine : Engine} (h : Kept w engine)
    (hlate : NoLateImport w engine.ledger.entries) :
    EvaluatedAfterImports w engine.ledger.entries := by
  intro pre entry post hsplit y hy
  have hafter := hlate pre entry post hsplit y hy
  by_cases hin : y ∈ keys pre
  · exact Or.inl hin
  · have hout : y ∉ keys engine.ledger.entries := by
      rw [hsplit, keys_append, List.mem_append]
      exact fun hor => hor.elim hin hafter
    have hbound := h.imports entry (by simp [hsplit]) y hy
    rw [source_of_not_mem hout, Option.isSome_map] at hbound
    exact Or.inr ⟨hout, hbound⟩

theorem noLateImport_of_evaluatedAfterImports {entries : Entries} (hn : (keys entries).Nodup)
    (h : EvaluatedAfterImports w entries) : NoLateImport w entries := by
  intro pre entry post hsplit y hy hlater
  have hin : y ∈ keys entries := by
    rw [hsplit, keys_append]
    exact List.mem_append_right _ hlater
  rcases h pre entry post hsplit y hy with hearlier | ⟨hout, _⟩
  · rw [hsplit, keys_append] at hn
    exact (List.nodup_append.mp hn).2.2 y hearlier y hlater rfl
  · exact hout hin

theorem Kept.exists_rebuild {enabled : Bool} {engine : Engine} (h : Kept w engine)
    (hlate : NoLateImport w engine.ledger.entries)
    (hbodies : BodiesRun w enabled engine.ledger.entries) (pre post : Entries)
    (hsplit : engine.ledger.entries = pre ++ post) :
    ∃ realm, rebuild w enabled w.boot pre = some realm := by
  induction pre using List.reverseRecOn generalizing post with
  | nil => exact ⟨w.boot, rfl⟩
  | append_singleton pre entry ih =>
    have hsplit' : engine.ledger.entries = pre ++ entry :: post := by simpa using hsplit
    have hmem : entry ∈ engine.ledger.entries := by simp [hsplit']
    obtain ⟨realm, hpre⟩ := ih (entry :: post) hsplit'
    have hafter := h.evaluatedAfterImports hlate pre entry post hsplit'
    have hnpre : (keys pre).Nodup := by
      have hn := h.nodup
      rw [hsplit', keys_append] at hn
      exact (List.nodup_append.mp hn).1
    have hbound : ∀ y ∈ w.imports (scriptOf entry), ∃ i, realm y = some i := by
      intro y hy
      have hsome : (w.source pre y).isSome = true := by
        rcases hafter y hy with hearlier | ⟨hout, hboot⟩
        · obtain ⟨value, hvalue⟩ := lookup_of_mem_keys hearlier
          rw [World.source, hvalue]
          rfl
        · have houtPre : y ∉ keys pre := by
            intro hin
            refine hout ?_
            rw [hsplit', keys_append]
            exact List.mem_append_left _ hin
          rw [source_of_not_mem houtPre, Option.isSome_map]
          exact hboot
      rw [← rebuild_source hnpre hpre y, Option.isSome_map] at hsome
      exact Option.isSome_iff_exists.mp hsome
    obtain ⟨seen, hseen⟩ := exists_mapM_eq_some hbound
    have hgot := mapM_eq_some.mp hseen
    have hcurrent : List.Forall₂ (Current w engine.ledger.entries) (w.imports (scriptOf entry))
        seen := by
      refine (forall₂_congr_mem fun y hy i => ?_).mpr hgot
      exact current_iff h.nodup hlate hsplit' hpre
        ((hafter y hy).imp_right fun hout => hout.1) i
    exact ⟨_, rebuild_snoc.mpr ⟨realm, hpre,
      evaluate_eq_some.mpr ⟨seen, hgot, hbodies entry hmem seen hcurrent, rfl⟩⟩⟩

theorem rebuild_prefix {enabled : Bool} {realm realm' : Realm} {pre post : Entries}
    (h : rebuild w enabled realm (pre ++ post) = some realm') :
    ∃ middle, rebuild w enabled realm pre = some middle ∧
      rebuild w enabled middle post = some realm' := by
  rw [rebuild, List.foldlM_append, Option.bind_eq_bind, Option.bind_eq_some_iff] at h
  exact h

theorem bodiesRun_of_rebuild {enabled : Bool} {entries : Entries} {realm : Realm}
    (hn : (keys entries).Nodup) (hlate : NoLateImport w entries)
    (h : rebuild w enabled w.boot entries = some realm) : BodiesRun w enabled entries := by
  intro entry hmem seen hcurrent
  obtain ⟨pre, post, hsplit⟩ := List.append_of_mem hmem
  have hsplit' : entries = (pre ++ [entry]) ++ post := by simpa using hsplit
  rw [hsplit'] at h
  obtain ⟨middle, hhead, _⟩ := rebuild_prefix h
  obtain ⟨before, hpre, hlast⟩ := rebuild_snoc.mp hhead
  obtain ⟨got, hgot, hruns, _⟩ := evaluate_eq_some.mp hlast
  have hseen : List.Forall₂ (fun y i => before y = some i) (w.imports (scriptOf entry)) seen := by
    refine (forall₂_congr_mem fun y hy i => ?_).mp hcurrent
    have hafter := hlate pre entry post hsplit y hy
    refine current_iff hn hlate hsplit hpre ?_ i
    by_cases hin : y ∈ keys pre
    · exact Or.inl hin
    · refine Or.inr ?_
      rw [hsplit, keys_append, List.mem_append]
      exact fun hor => hor.elim hin hafter
  have hsame := mapM_eq_some.mpr hseen
  rw [mapM_eq_some.mpr hgot] at hsame
  rw [← Option.some.inj hsame]
  exact hruns

theorem Kept.rebuilt_iff {enabled : Bool} {store : BytecodeStore w} {engine : Engine}
    (h : Kept w engine) (hapart : HashesApart store engine.ledger.entries) :
    Rebuilt enabled store engine ↔
      NoLateImport w engine.ledger.entries ∧ BodiesRun w enabled engine.ledger.entries := by
  constructor
  · rintro ⟨⟨engine', hconfine, _, _⟩, _, hafter⟩
    have hlate := noLateImport_of_evaluatedAfterImports h.nodup hafter
    obtain ⟨realm, hrebuild, _⟩ := (confine_eq_some hapart).mp hconfine
    exact ⟨hlate, bodiesRun_of_rebuild h.nodup hlate hrebuild⟩
  · rintro ⟨hlate, hbodies⟩
    obtain ⟨realm, hrebuild⟩ :=
      h.exists_rebuild hlate hbodies engine.ledger.entries [] (List.append_nil _).symm
    refine ⟨⟨_, (confine_eq_some hapart).mpr ⟨realm, hrebuild, rfl⟩, fun x => ?_, rfl⟩,
      h.hashes, h.evaluatedAfterImports hlate⟩
    rw [h.bound x]
    exact rebuild_source h.nodup hrebuild x

/-! ### The dirty bit -/

/-- The call registers a third-party script: it is not loaded under that hash
yet, and evaluating it succeeds. -/
def Engine.RegistersThirdParty (w : World) (engine : Engine) (specifier compiledScript : String)
    (sourceHash : UInt64) : Prop :=
  engine.loadedModuleHashes specifier ≠ some sourceHash ∧
    (w.evaluate false engine.realm ⟨specifier, compiledScript⟩).isSome = true

theorem holdsThirdParty_step {engine : Engine} {op : Op} (hop : op ≠ .clear)
    (h : engine.ledger.holdsThirdParty = true) :
    (engine.step w op).ledger.holdsThirdParty = true := by
  have hregister {script : Script} {hash : UInt64} {origin : Origin} {engine' : Engine}
      (hreg : engine.register w script hash origin = some engine') :
      engine'.ledger.holdsThirdParty = true := by
    obtain ⟨realm, _, rfl⟩ := Option.map_eq_some_iff.mp hreg
    exact Bool.or_eq_true_iff.mpr (Or.inl h)
  unfold Engine.step
  cases hcall : engine.call w op with
  | none => exact h
  | some engine' =>
    cases op with
    | load specifier code stamp =>
      simp only [Engine.call, Engine.loadModuleWithSpec] at hcall
      split_ifs at hcall with hsize hloaded
      · cases hcall
        exact h
      · obtain ⟨text, _, hreg⟩ := Option.bind_eq_some_iff.mp hcall
        exact hregister hreg
    | loadPrecompiled specifier compiledScript sourceHash =>
      simp only [Engine.call, Engine.loadPrecompiledModule] at hcall
      split_ifs at hcall with hloaded
      · cases hcall
        exact h
      · exact hregister hcall
    | clear => exact absurd rfl hop

theorem holdsThirdParty_run {engine : Engine} {history : List Op} (hops : .clear ∉ history)
    (h : engine.ledger.holdsThirdParty = true) :
    (engine.run w history).ledger.holdsThirdParty = true := by
  induction history generalizing engine with
  | nil => exact h
  | cons op history ih =>
    rw [List.mem_cons, not_or] at hops
    exact ih hops.2 (holdsThirdParty_step (Ne.symm hops.1) h)

theorem holdsThirdParty_of_registers {engine : Engine} {specifier compiledScript : String}
    {sourceHash : UInt64}
    (h : engine.RegistersThirdParty w specifier compiledScript sourceHash) :
    (engine.step w (.loadPrecompiled specifier compiledScript sourceHash)).ledger.holdsThirdParty
      = true := by
  obtain ⟨realm, hrealm⟩ := Option.isSome_iff_exists.mp h.2
  simp [Engine.step, Engine.call, Engine.loadPrecompiledModule, h.1, Engine.register, hrealm,
    ModuleLedger.record, ModuleLedger.holdsThirdParty, Origin.isThirdParty]

/-! ### The replay as a whole -/

/-- A replay rebuilds the engine exactly when no recorded module imports one that
was first registered after it and every body runs on the recorded sources of its
imports; the dirty bit is up after any third-party registration until a clear. -/
theorem replay_rebuilds_iff (w : World) (history : List Op) :
    (∀ (enabled : Bool) (store : BytecodeStore w),
      HashesApart store ((Engine.fresh w).run w history).ledger.entries →
        (Rebuilt enabled store ((Engine.fresh w).run w history) ↔
          NoLateImport w ((Engine.fresh w).run w history).ledger.entries ∧
            BodiesRun w enabled ((Engine.fresh w).run w history).ledger.entries)) ∧
    ∀ before specifier compiledScript sourceHash after,
      history = before ++ .loadPrecompiled specifier compiledScript sourceHash :: after →
      .clear ∉ after →
      ((Engine.fresh w).run w before).RegistersThirdParty w specifier compiledScript sourceHash →
        ((Engine.fresh w).run w history).ledger.holdsThirdParty = true := by
  refine ⟨fun enabled store hapart => ((kept_fresh w).run history).rebuilt_iff hapart, ?_⟩
  rintro before specifier compiledScript sourceHash after rfl hafter hregisters
  rw [Engine.run, List.foldl_append, List.foldl_cons]
  have hregistered := holdsThirdParty_of_registers hregisters
  exact holdsThirdParty_run hafter hregistered

/-- Sources are their own scripts; the one text that imports anything imports `b`. -/
def sampleWorld : World where
  stableSourceHash := fun text => text.length.toUInt64
  compileModuleScript := fun _ code _ => some code
  imports := fun script => if script.text = "a with b" then ["b"] else []
  runs := fun _ _ _ => true
  compiles := fun _ => true
  bytecodeSize := fun script => script.text.length
  boot := fun _ => none
  bootHashes := fun _ => none

theorem replay_rebuilds_iff_two :
    Rebuilt true (BytecodeStore.empty sampleWorld)
        ((Engine.fresh sampleWorld).run sampleWorld
          [.load "b" "b" none, .load "a" "a with b" none]) ∧
      ((Engine.fresh sampleWorld).run sampleWorld
        [.loadPrecompiled "b" "b" 0, .load "b" "other" none]).ledger.holdsThirdParty = true := by
  have hentries : ((Engine.fresh sampleWorld).run sampleWorld
      [.load "b" "b" none, .load "a" "a with b" none]).ledger.entries =
        [("b", ⟨"b", 1, .project, 1⟩), ("a", ⟨"a with b", 8, .project, 8⟩)] := by
    decide
  constructor
  · refine ((replay_rebuilds_iff sampleWorld _).1 true (BytecodeStore.empty sampleWorld) ?_).mpr
      ⟨?_, fun entry _ seen _ => rfl⟩
    · rw [hentries]
      constructor <;> simp [BytecodeStore.empty, eligibleForBytecode, Origin.isThirdParty]
    · rw [hentries]
      intro pre entry post hsplit y hy
      match pre, hsplit with
      | [], hsplit =>
        cases hsplit
        simp [sampleWorld, scriptOf] at hy
      | [first], hsplit =>
        cases hsplit
        simp only [sampleWorld, scriptOf, if_true, List.mem_singleton] at hy
        subst hy
        decide
      | _ :: _ :: pre, hsplit => simp at hsplit
  · exact (replay_rebuilds_iff sampleWorld _).2 [] "b" "b" 0 [.load "b" "other" none] rfl
      (by simp) ⟨by simp [Engine.run, Engine.fresh, sampleWorld], by rfl⟩

/-- Three loads succeed, the last one giving `a` an import of `b`; the replay
evaluates `a` first and fails. -/
theorem late_import_fails_replay :
    (((Engine.fresh sampleWorld).call sampleWorld (.load "a" "a" none)).isSome = true ∧
      (((Engine.fresh sampleWorld).run sampleWorld [.load "a" "a" none]).call sampleWorld
        (.load "b" "b" none)).isSome = true ∧
      (((Engine.fresh sampleWorld).run sampleWorld
        [.load "a" "a" none, .load "b" "b" none]).call sampleWorld
          (.load "a" "a with b" none)).isSome = true) ∧
    ¬ Rebuilt true (BytecodeStore.empty sampleWorld)
        ((Engine.fresh sampleWorld).run sampleWorld
          [.load "a" "a" none, .load "b" "b" none, .load "a" "a with b" none]) := by
  refine ⟨by decide, ?_⟩
  rintro ⟨⟨engine', hconfine, _⟩, _⟩
  have hfails : (((Engine.fresh sampleWorld).run sampleWorld
      [.load "a" "a" none, .load "b" "b" none, .load "a" "a with b" none]).confine true
        (BytecodeStore.empty sampleWorld)).isSome = false := by
    decide
  rw [hconfine] at hfails
  cases hfails

end Albedo.Confinement
