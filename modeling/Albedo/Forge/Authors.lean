import Albedo.Forge.RowChange

/-!
# The author rule over whole histories

`Creators` is kept beside the database for the proof alone: who appended each row, as
the steps of a history go by. The side table of authors agrees with it as long as no
update rewrites a key, and then only the creator of a row ever changes it.
-/
namespace Albedo.Forge
open Json Broadcast

/-- The principal whose append created each row, by folded table name and key: none for
a row of an anonymous append, or one that was there before the history began. -/
abbrev Creators := String × ℤ → Option String

def ForgeWrite.isUpdate : ForgeWrite → Bool
  | .update .. => true
  | _ => false

def Step.place (step : Step) (key : ℤ) : String × ℤ := (foldName step.slot.table, key)

/-- Follow one step: an appended row is its caller's, a moved row keeps its creator, and a
deleted row leaves none. -/
def Creators.after (creators : Creators) (engine : Engine) (principal : Option PrincipalId)
    (step : Step) : Creators :=
  match step.write with
  | .append .. =>
      match step.inserted engine principal with
      | some row => Function.update creators (step.place row.key) (principal.map PrincipalId.id)
      | none => creators
  | .update .. =>
      match step.found engine with
      | some row =>
          Function.update (Function.update creators (step.place row.key) none)
            (step.place (step.keyAfter engine principal row)) (creators (step.place row.key))
      | none => creators
  | .delete .. =>
      match step.found engine with
      | some row => Function.update creators (step.place row.key) none
      | none => creators

/-- A step that changes or removes a row was issued by the principal whose append created
it, and the row has a recorded author. -/
def Step.AuthorRule (engine : Engine) (principal : Option PrincipalId) (creators : Creators)
    (step : Step) : Prop :=
  ∀ row ∈ step.found engine,
    (∃ p ∈ principal, creators (step.place row.key) = some p.id) ∧
      (step.before.authors (step.slot.table, row.key)).isSome = true

instance (engine : Engine) (principal : Option PrincipalId) (creators : Creators) (step : Step) :
    Decidable (step.AuthorRule engine principal creators) := by
  unfold Step.AuthorRule
  infer_instance

def AuthorRules (engine : Engine) (principal : Option PrincipalId) :
    Creators → List Step → Prop
  | _, [] => True
  | creators, step :: steps =>
      step.AuthorRule engine principal creators ∧
        AuthorRules engine principal (creators.after engine principal step) steps

instance (engine : Engine) (principal : Option PrincipalId) :
    ∀ creators steps, Decidable (AuthorRules engine principal creators steps)
  | _, [] => isTrue trivial
  | creators, step :: steps =>
      have := instDecidableAuthorRules engine principal (creators.after engine principal step) steps
      inferInstanceAs (Decidable (_ ∧ _))

structure AuthorsKept (db : Db) (creators : Creators) : Prop where
  row_exists : ∀ name key author, db.authors (name, key) = some author →
    ∃ t, db.table name = some t ∧ t.has key = true
  created : ∀ name key author, db.authors (name, key) = some author →
    creators (foldName name, key) = some author

/-- The invariant of a history: of the spellings of a table's name, moreover, one at most
has an author for a row. -/
structure Ledger (db : Db) (creators : Creators) : Prop extends AuthorsKept db creators where
  one_spelling : ∀ name name' key, foldName name = foldName name' →
    (db.authors (name, key)).isSome = true → (db.authors (name', key)).isSome = true → name = name'

/-- The step is made through a collection whose rows only their authors change. -/
def Step.AuthorRuled (step : Step) : Prop :=
  step.slot.identityPartitioned = false ∧ step.slot.edit = .author

instance (step : Step) : Decidable step.AuthorRuled := inferInstanceAs (Decidable (_ ∧ _))

def Step.KeepsKey (engine : Engine) (principal : Option PrincipalId) (step : Step) : Prop :=
  ∀ row ∈ step.found engine, step.write.isUpdate = true →
    step.keyAfter engine principal row = row.key

instance (engine : Engine) (principal : Option PrincipalId) (step : Step) :
    Decidable (step.KeepsKey engine principal) := by
  unfold Step.KeepsKey
  infer_instance

section
variable {substrate : Substrate} {slot : ForgeCollection} {principal : Option PrincipalId}
variable {touched touched' : List Touched} {db db' : Db} {write : ForgeWrite}
variable {creators : Creators}

theorem AuthorAllowed.author {engine : Engine} {t : Table} {bound : SqlValue} {row : Row}
    (h : AuthorAllowed engine slot principal db t bound) (hidentity : slot.identityPartitioned = false)
    (hedit : slot.edit = .author) (hrow : t.at engine bound = some row) :
    ∃ p, principal = some p ∧ db.authors (slot.table, row.key) = some p.id := by
  rcases h with h | h | ⟨p, hp, h⟩
  · rw [hidentity] at h
    cases h
  · rw [hedit] at h
    cases h
  · exact ⟨p, hp, h row hrow⟩

theorem Performed.found_author
    (h : Performed substrate slot principal touched db write touched' db')
    (hruled : Step.AuthorRuled ⟨slot, db, write⟩) {row : Row}
    (hrow : Step.found substrate.engine ⟨slot, db, write⟩ = some row) :
    ∃ p, principal = some p ∧ db.authors (slot.table, row.key) = some p.id := by
  cases h with
  | append _ _ _ _ _ _ => cases hrow
  | update hbound ht hallowed _ _ _ _ _ _ _ =>
      refine hallowed.author hruled.1 hruled.2 ?_
      simpa [Step.found, Step.table, hbound, ht, Except.toOption] using hrow
  | delete hbound ht hallowed _ _ _ =>
      refine hallowed.author hruled.1 hruled.2 ?_
      simpa [Step.found, Step.table, hbound, ht, Except.toOption] using hrow

theorem Ledger.rule (hkept : Ledger db creators)
    (h : Performed substrate slot principal touched db write touched' db')
    (hruled : Step.AuthorRuled ⟨slot, db, write⟩) :
    Step.AuthorRule substrate.engine principal creators ⟨slot, db, write⟩ := by
  intro row hrow
  obtain ⟨p, hp, hauthor⟩ := h.found_author hruled hrow
  exact ⟨⟨p, hp, hkept.created _ _ _ hauthor⟩, by simp [hauthor]⟩

theorem Db.authors_appended (t : Table) (key : ℤ) (hidentity : slot.identityPartitioned = false)
    (place : String × ℤ) : (db.appended slot principal t key).authors place =
      if place = (slot.table, key) ∧ principal.isSome then principal.map PrincipalId.id
      else db.authors place := by
  unfold Db.appended
  rw [hidentity]
  cases principal with
  | none => simp [Db.setTable]
  | some p =>
      simp only [Db.setAuthor, Db.setTable, Function.update_apply, Option.isSome_some, and_true]
      rfl

theorem Ledger.append (hkept : Ledger db creators) (hidentity : slot.identityPartitioned = false)
    {t t' : Table} {row : Row} (ht : db.table slot.table = some t) (hfree : t.has row.key = false)
    (hrows : t'.rows = insertRow row t.rows) :
    Ledger (db.appended slot principal t' row.key)
      (Function.update creators (foldName slot.table, row.key) (principal.map PrincipalId.id)) := by
  -- an entry under another spelling would be about a row with the new row's key
  have hnone : ∀ name, foldName name = foldName slot.table → db.authors (name, row.key) = none := by
    intro name hname
    by_contra hsome
    obtain ⟨author, hauthor⟩ := Option.ne_none_iff_exists'.mp hsome
    obtain ⟨u, hu, hhas⟩ := hkept.row_exists _ _ _ hauthor
    rw [Db.table_congr db hname] at hu
    obtain rfl := Option.some.inj (ht.symm.trans hu)
    rw [hfree] at hhas
    cases hhas
  have hentry : ∀ name key author,
      (db.appended slot principal t' row.key).authors (name, key) = some author →
        (name, key) = (slot.table, row.key) ∧ principal.map PrincipalId.id = some author ∨
        db.authors (name, key) = some author ∧ (foldName name, key) ≠ (foldName slot.table, row.key) := by
    intro name key author hauthor
    rw [Db.authors_appended t' row.key hidentity] at hauthor
    split_ifs at hauthor with hplace
    · exact Or.inl ⟨hplace.1, hauthor⟩
    · refine Or.inr ⟨hauthor, fun hsame => ?_⟩
      obtain ⟨hname, rfl⟩ := Prod.mk.inj hsame
      rw [hnone name hname] at hauthor
      cases hauthor
  refine ⟨⟨?_, ?_⟩, ?_⟩
  · intro name key author hauthor
    rw [Db.table_appended]
    rcases hentry name key author hauthor with ⟨hplace, _⟩ | ⟨hold, _⟩
    · obtain ⟨rfl, rfl⟩ := Prod.mk.inj hplace
      exact ⟨t', by simp, Table.has_iff.mpr ⟨row, by simp [hrows, mem_insertRow], rfl⟩⟩
    · obtain ⟨u, hu, hhas⟩ := hkept.row_exists _ _ _ hold
      split_ifs with hname
      · rw [Db.table_congr db hname] at hu
        obtain rfl := Option.some.inj (ht.symm.trans hu)
        obtain ⟨r, hr, hkey⟩ := Table.has_iff.mp hhas
        exact ⟨t', rfl, Table.has_iff.mpr ⟨r, by simp [hrows, mem_insertRow, hr], hkey⟩⟩
      · exact ⟨u, hu, hhas⟩
  · intro name key author hauthor
    rcases hentry name key author hauthor with ⟨hplace, hp⟩ | ⟨hold, hne⟩
    · obtain ⟨rfl, rfl⟩ := Prod.mk.inj hplace
      rw [Function.update_self, hp]
    · rw [Function.update_of_ne hne]
      exact hkept.created _ _ _ hold
  · intro name name' key hname hsome hsome'
    obtain ⟨author, hauthor⟩ := Option.isSome_iff_exists.mp hsome
    obtain ⟨author', hauthor'⟩ := Option.isSome_iff_exists.mp hsome'
    rcases hentry _ _ _ hauthor with ⟨hplace, _⟩ | ⟨hold, hne⟩
    · obtain ⟨rfl, rfl⟩ := Prod.mk.inj hplace
      rcases hentry _ _ _ hauthor' with ⟨hplace', _⟩ | ⟨_, hne'⟩
      · exact (Prod.mk.inj hplace').1.symm
      · exact absurd (by rw [hname]) hne'
    · rcases hentry _ _ _ hauthor' with ⟨hplace', _⟩ | ⟨hold', _⟩
      · obtain ⟨rfl, rfl⟩ := Prod.mk.inj hplace'
        exact absurd (by rw [hname]) hne
      · exact hkept.one_spelling name name' key hname (by simp [hold]) (by simp [hold'])

theorem Ledger.update (hkept : Ledger db creators) {t t' : Table}
    (ht : db.table slot.table = some t) (hkeys : ∀ key, t.has key = true → t'.has key = true) :
    Ledger (db.setTable slot.table t') creators := by
  refine ⟨⟨fun name key author hauthor => ?_, hkept.created⟩, hkept.one_spelling⟩
  obtain ⟨u, hu, hhas⟩ := hkept.row_exists name key author hauthor
  rw [Db.table_setTable]
  split_ifs with hname
  · rw [Db.table_congr db hname] at hu
    obtain rfl := Option.some.inj (ht.symm.trans hu)
    exact ⟨t', rfl, hkeys key hhas⟩
  · exact ⟨u, hu, hhas⟩

theorem Ledger.delete (hkept : Ledger db creators) {engine : Engine} {t : Table} {bound : SqlValue}
    (ht : db.table slot.table = some t)
    (hauthor : ∀ row, t.at engine bound = some row →
      (db.authors (slot.table, row.key)).isSome = true) :
    Ledger (db.deleted engine slot t bound) (match t.at engine bound with
      | some row => Function.update creators (foldName slot.table, row.key) none
      | none => creators) := by
  have hentry : ∀ name key author, (db.deleted engine slot t bound).authors (name, key) = some author →
      db.authors (name, key) = some author ∧
        ∀ row, t.at engine bound = some row → (foldName name, key) ≠ (foldName slot.table, row.key) := by
    intro name key author hentry
    unfold Db.deleted at hentry
    cases hrowid : engine.rowid bound with
    | none =>
        rw [hrowid] at hentry
        refine ⟨hentry, fun row hrow => ?_⟩
        rw [(Table.at_eq_some.mp hrow).2] at hrowid
        cases hrowid
    | some k =>
        rw [hrowid] at hentry
        simp only [Db.setAuthor, Function.update_apply] at hentry
        split_ifs at hentry with hplace
        refine ⟨hentry, fun row hrow hsame => hplace ?_⟩
        obtain ⟨hname, rfl⟩ := Prod.mk.inj hsame
        obtain rfl := Option.some.inj ((Table.at_eq_some.mp hrow).2.symm.trans hrowid)
        rw [hkept.one_spelling name slot.table row.key hname
          (Option.isSome_iff_exists.mpr ⟨author, hentry⟩) (hauthor row hrow)]
  refine ⟨⟨?_, ?_⟩, ?_⟩
  · intro name key author hauthor
    obtain ⟨hold, hother⟩ := hentry name key author hauthor
    obtain ⟨u, hu, hhas⟩ := hkept.row_exists name key author hold
    rw [Db.table_deleted]
    split_ifs with hname
    · rw [Db.table_congr db hname] at hu
      obtain rfl := Option.some.inj (ht.symm.trans hu)
      obtain ⟨r, hr, rfl⟩ := Table.has_iff.mp hhas
      refine ⟨_, rfl, Table.has_iff.mpr ⟨r, Table.mem_delete.mpr ⟨hr, fun hat => ?_⟩, rfl⟩⟩
      exact hother r hat (by rw [hname])
    · exact ⟨u, hu, hhas⟩
  · intro name key author hauthor
    obtain ⟨hold, hother⟩ := hentry name key author hauthor
    cases hat : t.at engine bound with
    | none => exact hkept.created name key author hold
    | some row =>
        dsimp only
        rw [Function.update_of_ne (hother row hat)]
        exact hkept.created name key author hold
  · intro name name' key hname hsome hsome'
    obtain ⟨author, hauthor⟩ := Option.isSome_iff_exists.mp hsome
    obtain ⟨author', hauthor'⟩ := Option.isSome_iff_exists.mp hsome'
    exact hkept.one_spelling name name' key hname
      (Option.isSome_iff_exists.mpr ⟨author, (hentry _ _ _ hauthor).1⟩)
      (Option.isSome_iff_exists.mpr ⟨author', (hentry _ _ _ hauthor').1⟩)

/-- Every performed step through an author-ruled collection keeps the ledger, when an
update leaves its row under its key. -/
theorem Ledger.step (hkept : Ledger db creators)
    (h : Performed substrate slot principal touched db write touched' db')
    (hruled : Step.AuthorRuled ⟨slot, db, write⟩)
    (hkey : Step.KeepsKey substrate.engine principal ⟨slot, db, write⟩) :
    Ledger db' (creators.after substrate.engine principal ⟨slot, db, write⟩) := by
  have hauthor : ∀ row, Step.found substrate.engine ⟨slot, db, write⟩ = some row →
      ∃ p, principal = some p ∧ db.authors (slot.table, row.key) = some p.id :=
    fun _ hrow => h.found_author hruled hrow
  obtain ⟨u, u', hu, _, htables, hchange⟩ := h.rowChange
  cases h with
  | @append collection given record partition noted params t t' row hrecord _ _ hparams ht hinsert =>
      obtain ⟨_, _, _, _, hfree, hrows, _, _⟩ := Table.insert_ok hinsert
      have hrow : Step.inserted substrate.engine principal
          ⟨slot, db, .append collection given⟩ = some row := by
        simp [Step.inserted, Step.table, ht, hrecord, hparams, hinsert, Except.toOption]
      unfold Creators.after
      simp only [hrow]
      exact hkept.append hruled.1 ht hfree hrows
  | @update collection key fields _ _ _ _ _ t t' _ ht _ _ _ _ _ _ _ _ =>
      obtain rfl := Option.some.inj (hu.symm.trans ht)
      obtain rfl : t' = u' := by
        have := htables slot.table
        rw [Db.table_setTable, if_pos rfl, if_pos rfl] at this
        exact Option.some.inj this
      unfold Creators.after
      generalize hrows : t'.rows = rows at hchange
      cases hchange with
      | inserted _ hwrite => cases hwrite
      | removed _ hwrite => cases hwrite
      | missing hfound _ =>
          simp only [hfound]
          refine hkept.update ht fun k hk => ?_
          obtain ⟨r, hr, hrk⟩ := Table.has_iff.mp hk
          exact Table.has_iff.mpr ⟨r, hrows ▸ hr, hrk⟩
      | updated row row' _ hfound hmem _ _ hmoved =>
          have hsame : row'.key = row.key :=
            hmoved.trans (hkey row hfound rfl)
          simp only [hfound, ← hmoved, hsame, Function.update_idem, Function.update_eq_self]
          refine hkept.update ht fun k hk => ?_
          obtain ⟨r, hr, hrk⟩ := Table.has_iff.mp hk
          by_cases hrow : r.key = row.key
          · exact Table.has_iff.mpr ⟨row', hrows ▸ mem_insertRow.mpr (Or.inl rfl),
              hsame.trans (hrow.symm.trans hrk)⟩
          · exact Table.has_iff.mpr ⟨r, hrows ▸ mem_insertRow.mpr (Or.inr
              (Table.mem_remove.mpr ⟨hr, hrow⟩)), hrk⟩
  | @delete collection key bound _ _ t hbound ht _ _ _ _ =>
      have hfound : Step.found substrate.engine ⟨slot, db, .delete collection key⟩ =
          t.at substrate.engine bound := by
        simp [Step.found, Step.table, hbound, ht, Except.toOption]
      rw [hfound] at hauthor
      unfold Creators.after
      simp only [hfound]
      refine hkept.delete ht fun row hrow => ?_
      obtain ⟨p, _, hp⟩ := hauthor row hrow
      simp [hp]

end

/-! ### Runs and histories -/

def Creators.run (creators : Creators) (engine : Engine) (principal : Option PrincipalId)
    (steps : List Step) : Creators :=
  steps.foldl (fun creators step => creators.after engine principal step) creators

theorem Ledger.run {substrate : Substrate} {schema : ForgeSchema} {principal : Option PrincipalId}
    {touched touched' : List Touched} {db db' : Db} {steps : List Step} {creators : Creators}
    (hkept : Ledger db creators) (h : Ran substrate schema principal touched db steps touched' db')
    (hsteps : ∀ step ∈ steps, step.AuthorRuled ∧ step.KeepsKey substrate.engine principal) :
    AuthorRules substrate.engine principal creators steps ∧
      Ledger db' (creators.run substrate.engine principal steps) := by
  induction h generalizing creators with
  | nil => exact ⟨trivial, hkept⟩
  | cons _ _ hperformed _ ih =>
      obtain ⟨⟨hruled, hkey⟩, hrest⟩ := List.forall_mem_cons.mp hsteps
      obtain ⟨hrules, hend⟩ := ih (hkept.step hperformed hruled hkey) hrest
      exact ⟨⟨hkept.rule hperformed hruled, hrules⟩, hend⟩

structure Attributed where
  world : World
  creators : Creators

def Call.steps (schema : ForgeSchema) (call : Call) (world : World) : List Step :=
  committedSteps call.substrate schema call.writes call.principal world.db

def Attributed.call (schema : ForgeSchema) (s : Attributed) (call : Call) : Attributed where
  world := (applyWrites call.substrate call.wire schema call.writes call.projector call.principal
    s.world).world
  creators := s.creators.run call.substrate.engine call.principal (call.steps schema s.world)

/-- A property of every call of a history, in the state the call finds. -/
def Always (schema : ForgeSchema) (P : Attributed → Call → Prop) : Attributed → List Call → Prop
  | _, [] => True
  | s, call :: calls => P s call ∧ Always schema P (s.call schema call) calls

instance (schema : ForgeSchema) (P : Attributed → Call → Prop) [∀ s call, Decidable (P s call)] :
    ∀ s calls, Decidable (Always schema P s calls)
  | _, [] => isTrue trivial
  | s, call :: calls =>
      have := instDecidableAlways schema P (s.call schema call) calls
      inferInstanceAs (Decidable (_ ∧ _))

theorem Always.imp {schema : ForgeSchema} {P Q : Attributed → Call → Prop}
    (hpq : ∀ s call, P s call → Q s call) {s : Attributed} {calls : List Call}
    (h : Always schema P s calls) : Always schema Q s calls := by
  induction calls generalizing s with
  | nil => trivial
  | cons call calls ih => exact ⟨hpq s call h.1, ih h.2⟩

theorem Ledger.call {schema : ForgeSchema} {s : Attributed} {call : Call}
    (hkept : Ledger s.world.db s.creators) (hd : schema.Deployed s.world.db)
    (hsteps : ∀ step ∈ call.steps schema s.world,
      step.AuthorRuled ∧ step.KeepsKey call.substrate.engine call.principal) :
    AuthorRules call.substrate.engine call.principal s.creators (call.steps schema s.world) ∧
      Ledger (s.call schema call).world.db (s.call schema call).creators ∧
      schema.Deployed (s.call schema call).world.db := by
  rcases applyWrites_db call.substrate call.wire schema call.writes call.projector call.principal
    s.world with ⟨hsame, hnone⟩ | ⟨touched, db', hcommit, hafter⟩
  · have hnone' : call.steps schema s.world = [] := hnone
    have hworld : (s.call schema call).world.db = s.world.db := hsame
    have hcreators : (s.call schema call).creators = s.creators := by
      rw [Attributed.call, hnone']
      rfl
    rw [hnone', hworld, hcreators]
    exact ⟨trivial, hkept, hd⟩
  · have hworld : (s.call schema call).world.db = db' := hafter
    obtain ⟨_, hran⟩ := commitWrites_ran hd hcommit
    obtain ⟨hrules, hend⟩ := hkept.run hran hsteps
    rw [hworld]
    exact ⟨hrules, hend, hran.deployed hd⟩

theorem Ledger.history {schema : ForgeSchema} {s : Attributed} {calls : List Call}
    (hkept : Ledger s.world.db s.creators) (hd : schema.Deployed s.world.db)
    (hruled : Always schema (fun s call => ∀ step ∈ call.steps schema s.world, step.AuthorRuled)
      s calls)
    (hkeys : Always schema (fun s call => ∀ step ∈ call.steps schema s.world,
      step.KeepsKey call.substrate.engine call.principal) s calls) :
    Always schema (fun s call =>
      AuthorRules call.substrate.engine call.principal s.creators (call.steps schema s.world) ∧
        AuthorsKept (s.call schema call).world.db (s.call schema call).creators) s calls := by
  induction calls generalizing s with
  | nil => trivial
  | cons call calls ih =>
      obtain ⟨hrules, hend, hd'⟩ := hkept.call hd fun step hstep =>
        ⟨hruled.1 step hstep, hkeys.1 step hstep⟩
      exact ⟨⟨hrules, hend.toAuthorsKept⟩, ih hend hd' hruled.2 hkeys.2⟩

/-- In every history that starts with no recorded author, and whose updates leave their
rows under their keys, rows are changed only by the principals whose appends created
them, and every recorded author is that of a row that exists. -/
theorem authors_of_history {schema : ForgeSchema} {world : World} (calls : List Call)
    (hd : schema.Deployed world.db) (hnone : ∀ place, world.db.authors place = none)
    (hruled : Always schema (fun s call => ∀ step ∈ call.steps schema s.world, step.AuthorRuled)
      ⟨world, fun _ => none⟩ calls)
    (hkeys : Always schema (fun s call => ∀ step ∈ call.steps schema s.world,
      step.KeepsKey call.substrate.engine call.principal) ⟨world, fun _ => none⟩ calls) :
    Always schema (fun s call =>
      AuthorRules call.substrate.engine call.principal s.creators (call.steps schema s.world) ∧
        AuthorsKept (s.call schema call).world.db (s.call schema call).creators)
      ⟨world, fun _ => none⟩ calls := by
  refine Ledger.history ⟨⟨fun _ _ _ h => ?_, fun _ _ _ h => ?_⟩, fun _ _ _ _ h => ?_⟩ hd hruled
    hkeys
  all_goals simp [hnone] at h

def guestbookCall (principal : Option PrincipalId) (write : ForgeWrite) : Call :=
  ⟨.plain, .plain, none, principal, [write]⟩

def signed : List Call :=
  [guestbookCall (some ada) (.append "guestbook" (.single "author" (.string "ada"))),
    guestbookCall (some ada)
      (.update "guestbook" (.number (.int 1)) (.single "author" (.string "Ada")))]

/-- Ada signs and moves her entry to another key, somebody takes the key it had, and she
changes that entry too. -/
def moved : List Call :=
  [guestbookCall (some ada) (.append "guestbook" (.single "author" (.string "ada"))),
    guestbookCall (some ada)
      (.update "guestbook" (.number (.int 1)) (.single "ID" (.number (.int 7)))),
    guestbookCall none
      (.append "guestbook" ⟨[("author", .string "bob"), ("id", .number (.int 1))], by decide⟩),
    guestbookCall (some ada)
      (.update "guestbook" (.number (.int 1)) (.single "author" (.string "ada")))]

theorem authors_of_history_signed :
    Always guestbookSchema (fun s call =>
      AuthorRules call.substrate.engine call.principal s.creators
          (call.steps guestbookSchema s.world) ∧
        AuthorsKept (s.call guestbookSchema call).world.db (s.call guestbookSchema call).creators)
      ⟨.quiet guestbookDb, fun _ => none⟩ signed := by
  have hd : guestbookSchema.Deployed (World.quiet guestbookDb).db := guestbook_deployed
  exact authors_of_history signed hd (fun _ => rfl) (by decide) (by decide)

/-- The entry Ada changes last was not hers. -/
theorem moved_key_inherits_author :
    ¬ Always guestbookSchema (fun s call =>
      AuthorRules call.substrate.engine call.principal s.creators
          (call.steps guestbookSchema s.world) ∧
        AuthorsKept (s.call guestbookSchema call).world.db (s.call guestbookSchema call).creators)
      ⟨.quiet guestbookDb, fun _ => none⟩ moved := by
  intro h
  have hrules := h.imp (Q := fun s call => AuthorRules call.substrate.engine call.principal
    s.creators (call.steps guestbookSchema s.world)) fun _ _ h => h.1
  revert hrules
  decide +kernel

end Albedo.Forge
