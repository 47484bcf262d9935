import Mathlib.Data.List.TakeWhile
import Albedo.Forge.Effect

/-!
# All or nothing

A call that fails before its commit leaves the world as it was, and one that returns
has performed every write and published every touched channel. A read that fails after
the commit makes the call report an error over durable state: `allOrNothing_iff` says
exactly when that shows.
-/
namespace Albedo.Forge
open Json Broadcast

def World.Unchanged (world world' : World) : Prop :=
  world'.db = world.db ∧ ∀ topic, world'.broadcast.value topic = world.broadcast.value topic

/-- The publication stands: its value is the channel's, unless it was reclaimed as idle. -/
def Publication.Stands (p : Publication) (broadcast : Registry) : Prop :=
  broadcast.value p.touched.channel = some p.value ∨ broadcast.value p.touched.channel = none

def AllOrNothing (substrate : Substrate) (schema : ForgeSchema) (writes : List ForgeWrite)
    (principal : Option PrincipalId) (world : World) (outcome : Outcome) : Prop :=
  match outcome.result with
  | .error _ => world.Unchanged outcome.world
  | .ok _ => ∃ touched steps, steps.map Step.write = writes ∧
      Ran substrate schema principal [] world.db steps touched outcome.world.db ∧
      outcome.published.map Publication.touched = touched ∧
      ∀ p ∈ outcome.published,
        deriveBytes substrate outcome.world.db world.broadcast p.touched = .ok p.value ∧
        p.Stands outcome.world.broadcast

def ReadsSucceed (substrate : Substrate) (db : Db) (broadcast : Registry)
    (touched : List Touched) : Prop :=
  ∀ t ∈ touched, t.splice broadcast = none →
    ∃ bytes, materializeSlot substrate (.read t.channel) db t.slot t.partition = .ok bytes

/-- The writes changed no row, and the channels ahead of the first failing read already
held the values they were given. -/
def NothingNew (substrate : Substrate) (db : Db) (world : World) (touched : List Touched) : Prop :=
  db = world.db ∧
    ∀ t ∈ touched.takeWhile (fun t => (deriveBytes substrate db world.broadcast t).isOk),
      ∀ bytes, deriveBytes substrate db world.broadcast t = .ok bytes →
        world.broadcast.value t.channel = some bytes

theorem deriveBytes_congr {substrate : Substrate} {db : Db} {a b : Registry} {t : Touched}
    (h : a.value t.channel = b.value t.channel) :
    deriveBytes substrate db a t = deriveBytes substrate db b t := by
  unfold deriveBytes Touched.splice
  rw [h]

theorem readsSucceed_iff {substrate : Substrate} {db : Db} {broadcast : Registry}
    {touched : List Touched} : ReadsSucceed substrate db broadcast touched ↔
      ∀ t ∈ touched, (deriveBytes substrate db broadcast t).isOk = true := by
  unfold ReadsSucceed deriveBytes
  refine forall₂_congr fun t _ => ?_
  cases t.splice broadcast with
  | some bytes => simp [Except.isOk, Except.toBool]
  | none =>
      cases materializeSlot substrate (.read t.channel) db t.slot t.partition <;>
        simp [Except.isOk, Except.toBool]

structure FanOutSpec (substrate : Substrate) (db : Db) (broadcast : Registry)
    (touched : List Touched)
    (result : List Publication × Registry × Option SubstrateError) : Prop where
  published : result.1.map Publication.touched =
    touched.takeWhile fun t => (deriveBytes substrate db broadcast t).isOk
  derived : ∀ p ∈ result.1, deriveBytes substrate db broadcast p.touched = .ok p.value
  stored : ∀ p ∈ result.1, result.2.1.value p.touched.channel = some p.value
  others : ∀ x, (∀ p ∈ result.1, x ≠ p.touched.channel) → result.2.1.value x = broadcast.value x
  error : result.2.2 = none ↔
    ∀ t ∈ touched, (deriveBytes substrate db broadcast t).isOk = true

theorem takeWhile_congr {α : Type} {p q : α → Bool} {l : List α} (h : ∀ a ∈ l, p a = q a) :
    l.takeWhile p = l.takeWhile q := by
  induction l with
  | nil => rfl
  | cons a l ih =>
      rw [List.takeWhile_cons, List.takeWhile_cons, h a (by simp),
        ih fun b hb => h b (by simp [hb])]

theorem fanOut_spec (substrate : Substrate) (wire : Wire) (projector : Option RowProjector)
    (db : Db) {touched : List Touched} (hn : (touched.map Touched.channel).Nodup)
    (broadcast : Registry) :
    FanOutSpec substrate db broadcast touched
      (fanOut substrate wire projector db broadcast touched) := by
  induction touched generalizing broadcast with
  | nil => exact ⟨rfl, by simp [fanOut], by simp [fanOut], fun _ _ => rfl, by simp [fanOut]⟩
  | cons t rest ih =>
      rw [List.map_cons, List.nodup_cons] at hn
      unfold fanOut
      cases hderive : deriveBytes substrate db broadcast t with
      | error err =>
          refine ⟨?_, by simp, by simp, fun _ _ => rfl, ?_⟩
          · simp [hderive, Except.isOk, Except.toBool]
          · simp [hderive, Except.isOk, Except.toBool]
      | ok bytes =>
          have htouched := publish_touched wire projector broadcast t bytes
          have hpublished := publish_value wire projector broadcast t bytes
          have hvalue := value_publish wire projector broadcast t bytes
          have hrest := ih hn.2 (publish wire projector broadcast t bytes).2
          dsimp only
          generalize publish wire projector broadcast t bytes = publication at *
          generalize fanOut substrate wire projector db publication.2 rest = result at *
          -- the channels still to come are not the one just published
          have hne : ∀ t' ∈ rest, t'.channel ≠ t.channel := fun t' ht' heq =>
            hn.1 (List.mem_map.mpr ⟨t', ht', heq⟩)
          have hsame : ∀ t' ∈ rest, deriveBytes substrate db publication.2 t' =
              deriveBytes substrate db broadcast t' := fun t' ht' =>
            deriveBytes_congr (by rw [hvalue, if_neg (hne t' ht')])
          have hmem : ∀ p ∈ result.1, p.touched ∈ rest := by
            intro p hp
            have htaken : p.touched ∈ result.1.map Publication.touched :=
              List.mem_map.mpr ⟨p, hp, rfl⟩
            rw [hrest.published] at htaken
            exact (List.takeWhile_sublist _).subset htaken
          refine ⟨?_, ?_, ?_, ?_, ?_⟩
          · rw [List.map_cons, htouched, hrest.published, List.takeWhile_cons_of_pos
              (by simp [hderive, Except.isOk, Except.toBool])]
            rw [takeWhile_congr fun t' ht' => by rw [hsame t' ht']]
          · intro p hp
            rcases List.mem_cons.mp hp with rfl | hp
            · rw [htouched, hpublished, hderive]
            · rw [← hsame _ (hmem p hp)]
              exact hrest.derived p hp
          · intro p hp
            rcases List.mem_cons.mp hp with rfl | hp
            · rw [htouched, hpublished, hrest.others, hvalue, if_pos rfl]
              exact fun q hq => (hne _ (hmem q hq)).symm
            · exact hrest.stored p hp
          · intro x hx
            rw [hrest.others x fun p hp => hx p (by simp [hp]), hvalue, if_neg]
            exact htouched ▸ hx publication.1 (by simp)
          · rw [hrest.error, List.forall_mem_cons]
            constructor
            · exact fun h => ⟨by simp [hderive, Except.isOk, Except.toBool],
                fun t' ht' => hsame t' ht' ▸ h t' ht'⟩
            · exact fun h t' ht' => (hsame t' ht').symm ▸ h.2 t' ht'

theorem unchanged_iff_nothingNew {substrate : Substrate} {db : Db} {world : World}
    {touched : List Touched} {result : List Publication × Registry × Option SubstrateError}
    (h : FanOutSpec substrate db world.broadcast touched result) :
    world.Unchanged ⟨db, result.2.1⟩ ↔ NothingNew substrate db world touched := by
  unfold World.Unchanged NothingNew
  refine and_congr_right fun _ => ?_
  rw [← h.published]
  constructor
  · intro hsame t ht bytes hbytes
    obtain ⟨p, hp, rfl⟩ := List.mem_map.mp ht
    obtain rfl := Except.ok.inj ((h.derived p hp).symm.trans hbytes)
    rw [← hsame, h.stored p hp]
  · intro hheld topic
    by_cases hpublished : ∃ p ∈ result.1, topic = p.touched.channel
    · obtain ⟨p, hp, rfl⟩ := hpublished
      rw [h.stored p hp, hheld p.touched (List.mem_map.mpr ⟨p, hp, rfl⟩) p.value (h.derived p hp)]
    · push Not at hpublished
      exact h.others topic hpublished

/-- A call keeps its promise exactly when no read after its commit fails, or one does
where there was nothing new to tell. -/
theorem allOrNothing_iff (substrate : Substrate) (wire : Wire) {schema : ForgeSchema}
    (writes : List ForgeWrite) (projector : Option RowProjector) (principal : Option PrincipalId)
    {world : World} (hd : schema.Deployed world.db) :
    AllOrNothing substrate schema writes principal world
        (applyWrites substrate wire schema writes projector principal world) ↔
      ∀ touched db, commitWrites substrate schema writes principal world.db = .ok (touched, db) →
        ReadsSucceed substrate db world.broadcast touched ∨
          NothingNew substrate db world touched := by
  unfold applyWrites
  by_cases hwrites : writes = []
  · subst hwrites
    rw [if_pos rfl]
    refine iff_of_true ⟨[], [], rfl, .nil, rfl, by simp⟩ fun touched db hcommit => Or.inl ?_
    obtain ⟨hsteps, hran⟩ := commitWrites_ran hd hcommit
    rw [List.map_eq_nil_iff.mp hsteps] at hran
    cases hran
    exact fun t ht => by cases ht
  rw [if_neg hwrites]
  cases hcommit : commitWrites substrate schema writes principal world.db with
  | error failure => exact iff_of_true ⟨rfl, fun _ => rfl⟩ fun _ _ h => by cases h
  | ok committed =>
      obtain ⟨touched, db⟩ := committed
      obtain ⟨hsteps, hran⟩ := commitWrites_ran hd hcommit
      have hspec := fanOut_spec substrate wire projector db (hran.channels_nodup (by simp))
        world.broadcast
      have hright : (∀ touched' db', (Except.ok (touched, db) : Except Failure _) =
          .ok (touched', db') → ReadsSucceed substrate db' world.broadcast touched' ∨
            NothingNew substrate db' world touched') ↔
          ReadsSucceed substrate db world.broadcast touched ∨
            NothingNew substrate db world touched :=
        ⟨fun h => h touched db rfl, fun h _ _ heq => by cases heq; exact h⟩
      rw [hright, readsSucceed_iff, ← hspec.error]
      dsimp only
      cases hresult : fanOut substrate wire projector db world.broadcast touched with
      | mk published rest =>
          obtain ⟨broadcast, err⟩ := rest
          rw [hresult] at hspec
          cases err with
          | some err =>
              rw [← unchanged_iff_nothingNew hspec]
              exact ⟨fun h => Or.inr h, fun h => h.resolve_left (by simp)⟩
          | none =>
              refine iff_of_true
                ⟨touched, _, hsteps, hran, ?_, fun p hp => ⟨hspec.derived p hp, ?_⟩⟩ (Or.inl rfl)
              · have hall := hspec.error.mp rfl
                exact hspec.published.trans (List.takeWhile_eq_self_iff.mpr hall)
              · have hstored := hspec.stored p hp
                rcases broadcast.value_enforceByteBudget defaultTopicValueBudget
                  p.touched.channel with h | h
                · exact Or.inl (h.trans hstored)
                · exact Or.inr h

def readFails : Substrate where
  engine := .plain
  honoursReturning := true
  fault := fun op => if op = .read "guestbook" then some (.query "disk I/O error") else none

def entry : ForgeWrite :=
  .append "guestbook" (.single "author" (.string "ada"))

/-- One append to the guestbook on that substrate. -/
theorem allOrNothing_iff_guestbook :
    AllOrNothing readFails guestbookSchema [entry] none (.quiet guestbookDb)
        (applyWrites readFails .plain guestbookSchema [entry] none none
          (.quiet guestbookDb)) ↔
      ∀ touched db, commitWrites readFails guestbookSchema [entry] none guestbookDb =
          .ok (touched, db) →
        ReadsSucceed readFails db .empty touched ∨
          NothingNew readFails db (.quiet guestbookDb) touched :=
  allOrNothing_iff readFails .plain [entry] none none
    guestbook_deployed

/-- An append to a guestbook whose topic holds no array yet, and whose read fails: the
call reports an error, and the row is there. -/
theorem append_reports_error_over_commit :
    ¬ AllOrNothing readFails guestbookSchema [entry] none (.quiet guestbookDb)
      (applyWrites readFails .plain guestbookSchema [entry] none none
        (.quiet guestbookDb)) := by
  generalize houtcome : applyWrites readFails .plain guestbookSchema
    [entry] none none (.quiet guestbookDb) = outcome
  have hresult : outcome.result = .error (.error (.query "disk I/O error")) := by
    rw [← houtcome]
    decide
  have hrows : (outcome.world.db.table "guestbook").map (fun t => t.rows.length) = some 1 := by
    rw [← houtcome]
    decide
  unfold AllOrNothing
  rw [hresult]
  rintro ⟨hdb, _⟩
  rw [hdb] at hrows
  revert hrows
  decide

end Albedo.Forge
