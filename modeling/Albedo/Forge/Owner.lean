import Mathlib.Data.List.Dedup
import Albedo.Forge.RowChange

/-!
# Owner safety

A row of an identity-partitioned collection belongs to the principal its partition
column names. The checks look that column up under its exact name, and the statements
they guard are matched under folded names: `ownerSafe_iff` says when every commit leaves
each row with its owner.
-/
namespace Albedo.Forge
open Json Broadcast

/-- The principal a cell of an owner column names, as the checks read it back. -/
def cellOwner : SqlValue → Option String
  | .text text => some text
  | .integer i => partitionText (.number (.int i))
  | _ => none

def Owned (principal : Option PrincipalId) (cell : SqlValue) : Prop :=
  ∃ p, principal = some p ∧ cellOwner cell = some p.id

theorem cellPartition_owner {slot : ForgeCollection} {column key : String} {cell : SqlValue}
    (h : cellPartition slot column (some cell) = .ok key) : cellOwner cell = some key := by
  cases cell with
  | text text =>
      have hkey : partitionValueToKey slot.topic column (.string text) = .ok key := h
      exact (partitionValueToKey_spec hkey).1
  | integer i =>
      have hkey : partitionValueToKey slot.topic column (.number (.int i)) = .ok key := h
      exact (partitionValueToKey_spec hkey).1
  | null => cases h
  | real r => cases h
  | blob bytes => cases h

/-- What a commit may do to the rows: those of others stay as they are, the caller's own
stay theirs, and what is new is the caller's. Nobody changes nothing. -/
structure OwnerSafe (column : String) (principal : Option PrincipalId) (t t' : Table) : Prop where
  others_kept : ∀ r ∈ t.rows, ∀ owner, cellOwner (r.cells column) = some owner →
    (∀ p ∈ principal, owner ≠ p.id) → r ∈ t'.rows
  own_kept : ∀ r ∈ t.rows, Owned principal (r.cells column) →
    ∀ r' ∈ t'.rows, r'.key = r.key → Owned principal (r'.cells column)
  new_owned : ∀ r' ∈ t'.rows, t.has r'.key = false → Owned principal (r'.cells column)
  anonymous : principal = none → t'.rows = t.rows

structure Confined (column : String) (principal : Option PrincipalId) (t t' : Table) : Prop where
  kept : ∀ r ∈ t.rows, ¬ Owned principal (r.cells column) → r ∈ t'.rows
  rest : ∀ r ∈ t'.rows, r ∈ t.rows ∨ Owned principal (r.cells column)

theorem Confined.refl (column : String) (principal : Option PrincipalId) (t : Table) :
    Confined column principal t t :=
  ⟨fun _ hr _ => hr, fun _ hr => Or.inl hr⟩

theorem Confined.trans {column : String} {principal : Option PrincipalId} {t t' t'' : Table}
    (h : Confined column principal t t') (h' : Confined column principal t' t'') :
    Confined column principal t t'' := by
  refine ⟨fun r hr hne => h'.kept r (h.kept r hr hne) hne, fun r hr => ?_⟩
  rcases h'.rest r hr with hr | howned
  · exact h.rest r hr
  · exact Or.inr howned

theorem Table.rows_ext {t t' : Table} (h : ∀ r, r ∈ t.rows ↔ r ∈ t'.rows) : t.rows = t'.rows := by
  have hnodup : ∀ u : Table, u.rows.Nodup := fun u =>
    u.sorted.imp fun {a b} hab => fun heq => by subst heq; omega
  have hperm := (List.perm_ext_iff_of_nodup (hnodup t) (hnodup t')).mpr h
  refine hperm.eq_of_pairwise (fun a b _ _ hab hba => ?_) t.sorted t'.sorted
  omega

theorem Confined.safe {column : String} {principal : Option PrincipalId} {t t' : Table}
    (h : Confined column principal t t') : OwnerSafe column principal t t' where
  others_kept := by
    intro r hr owner howner hne
    refine h.kept r hr ?_
    rintro ⟨p, rfl, hp⟩
    exact hne p rfl (Option.some.inj (howner.symm.trans hp))
  own_kept := by
    intro r hr howned r' hr' hkey
    rcases h.rest r' hr' with hmem | howned'
    · rwa [Table.eq_of_key hmem hr hkey]
    · exact howned'
  new_owned := by
    intro r' hr' hfresh
    refine (h.rest r' hr').resolve_left fun hmem => ?_
    exact Table.not_has hfresh r' hmem rfl
  anonymous := by
    rintro rfl
    refine Table.rows_ext fun r => ⟨fun hr => ?_, fun hr => h.kept r hr (by simp [Owned])⟩
    exact (h.rest r hr).resolve_right (by simp [Owned])

/-! ### One step -/

/-- The step names the caller: the row it finds is the caller's, and so is the one it
leaves. -/
def Step.KeepsOwner (engine : Engine) (column : String) (principal : Option PrincipalId)
    (step : Step) : Prop :=
  (∀ row, step.found engine = some row → Owned principal (row.cells column)) ∧
    ∀ cell, step.stored engine principal column = some cell → Owned principal cell

def Step.Guards (column : String) (step : Step) : Prop :=
  step.slot.identityPartitioned = true ∧ step.slot.partitionBy = some column

section
variable {substrate : Substrate} {engine : Engine} {schema : ForgeSchema}
variable {principal : Option PrincipalId} {column : String} {slot : ForgeCollection}
variable {touched touched' : List Touched} {db db' : Db} {write : ForgeWrite} {t t' : Table}
variable {step : Step}

theorem RowChange.kept (h : RowChange engine principal step t t'.rows)
    (hfound : ∀ row, step.found engine = some row → Owned principal (row.cells column)) :
    ∀ r ∈ t.rows, ¬ Owned principal (r.cells column) → r ∈ t'.rows := by
  intro r hr hne
  have hother : ∀ row, step.found engine = some row → row ∈ t.rows → r.key ≠ row.key := by
    intro row hrow hmem hkey
    exact hne (Table.eq_of_key hr hmem hkey ▸ hfound row hrow)
  generalize hrows : t'.rows = rows at h
  cases h with
  | inserted row _ _ _ _ => exact mem_insertRow.mpr (Or.inr hr)
  | missing _ _ => exact hr
  | updated row row' _ hrow hmem _ _ _ =>
      exact mem_insertRow.mpr (Or.inr (Table.mem_remove.mpr ⟨hr, hother row hrow hmem⟩))
  | removed row _ hrow hmem => exact Table.mem_remove.mpr ⟨hr, hother row hrow hmem⟩

theorem RowChange.confined (h : RowChange engine principal step t t'.rows)
    (hcolumn : column ∈ t.fields.map Prod.fst)
    (hstep : step.KeepsOwner engine column principal) : Confined column principal t t' := by
  refine ⟨h.kept hstep.1, ?_⟩
  intro r hr
  generalize hrows : t'.rows = rows at h hr
  cases h with
  | inserted row _ _ _ hcells =>
      rcases mem_insertRow.mp hr with rfl | hr
      · exact Or.inr (hstep.2 _ (hcells column hcolumn))
      · exact Or.inl hr
  | missing _ _ => exact Or.inl hr
  | updated row row' _ hrow _ _ hcells _ =>
      rcases mem_insertRow.mp hr with rfl | hr
      · refine Or.inr ?_
        rw [hcells column hcolumn]
        cases hstored : step.stored engine principal column with
        | none => exact hstep.1 row hrow
        | some cell => exact hstep.2 cell hstored
      · exact Or.inl (Table.mem_remove.mp hr).1
  | removed row _ _ _ => exact Or.inl (Table.mem_remove.mp hr).1

theorem RowChange.stored_row (h : RowChange engine principal step t t'.rows)
    (ht : step.table = some t) (hcolumn : column ∈ t.fields.map Prod.fst) {cell : SqlValue}
    (hcell : step.stored engine principal column = some cell) :
    ∃ r' ∈ t'.rows, r'.cells column = cell ∧
      ∀ r ∈ t.rows, r.key = r'.key → step.found engine = some r := by
  generalize t'.rows = rows at h
  cases h with
  | inserted row _ _ hfree hcells =>
      refine ⟨row, mem_insertRow.mpr (Or.inl rfl), ?_, fun r hr hkey => ?_⟩
      · exact Option.some.inj ((hcells column hcolumn).symm.trans hcell)
      · exact absurd hkey (Table.not_has hfree r hr)
  | missing hfound happend =>
      unfold Step.stored at hcell
      rw [ht, hfound] at hcell
      cases hwrite : step.write with
      | append collection record => exact absurd hwrite (happend collection record)
      | update collection key fields => simp [hwrite] at hcell
      | delete collection key => simp [hwrite] at hcell
  | updated row row' _ hrow hmem hfree hcells _ =>
      refine ⟨row', mem_insertRow.mpr (Or.inl rfl), ?_, fun r hr hkey => ?_⟩
      · rw [hcells column hcolumn, hcell, Option.getD_some]
      · by_cases hsame : r.key = row.key
        · rw [Table.eq_of_key hr hmem hsame, hrow]
        · exact absurd hkey (Table.not_has hfree r (Table.mem_remove.mpr ⟨hr, hsame⟩))
  | removed row hwrite _ _ =>
      unfold Step.stored at hcell
      rw [ht, hwrite] at hcell
      simp at hcell

theorem Performed.found_owned
    (h : Performed substrate slot principal touched db write touched' db')
    (ht : db.table slot.table = some t) (hcolumn : column ∈ t.fields.map Prod.fst)
    (hguard : Step.Guards column ⟨slot, db, write⟩) :
    ∀ row, Step.found substrate.engine ⟨slot, db, write⟩ = some row →
      Owned principal (row.cells column) := by
  intro row hrow
  obtain ⟨hidentity, hpartition⟩ := hguard
  have hchecked : ∀ bound before, t.at substrate.engine bound = some row →
      ReadsPartition substrate.engine slot t bound before →
      authorizeExistingRow slot before principal = .ok () → Owned principal (row.cells column) := by
    intro bound before hat hreads hexisting
    unfold ReadsPartition at hreads
    rw [hpartition, hat] at hreads
    obtain ⟨col, owner, hcol, howner, rfl⟩ := hreads
    obtain rfl := Option.some.inj (hcol.symm.trans (Table.resolve_field hcolumn))
    have hcell := cellPartition_owner howner
    unfold authorizeExistingRow at hexisting
    rw [hidentity] at hexisting
    cases principal with
    | none => cases hexisting
    | some p =>
        simp only [Bool.not_true, Bool.false_eq_true, if_false] at hexisting
        split_ifs at hexisting with hsame
        exact ⟨p, rfl, hsame ▸ hcell⟩
  cases h with
  | append _ _ _ _ _ _ => cases hrow
  | @update _ _ _ bound before _ _ _ u _ hbound hu _ hreads hexisting _ _ _ _ _ =>
      obtain rfl := Option.some.inj (ht.symm.trans hu)
      refine hchecked bound before ?_ hreads hexisting
      simpa [Step.found, Step.table, hbound, ht, Except.toOption] using hrow
  | @delete _ _ bound before _ u hbound hu _ hreads hexisting _ =>
      obtain rfl := Option.some.inj (ht.symm.trans hu)
      refine hchecked bound before ?_ hreads hexisting
      simpa [Step.found, Step.table, hbound, ht, Except.toOption] using hrow

def ForgeWrite.names : ForgeWrite → List String
  | .append _ record => record.columns
  | .update _ _ fields => fields.columns
  | .delete .. => []

end

/-! ### Runs and calls -/

section
variable {substrate : Substrate} {schema : ForgeSchema} {principal : Option PrincipalId}
variable {c : ForgeCollection} {column : String} {touched touched' : List Touched} {db db' : Db}
variable {steps : List Step} {t t' : Table}

theorem ForgeSchema.Deployed.fields (hd : schema.Deployed db) (hc : c ∈ schema.collections)
    (ht : db.table c.table = some t) : t.fields = c.fields := by
  obtain ⟨_, ht₀, _, hfields⟩ := hd c hc
  rw [← Option.some.inj (ht₀.symm.trans ht), hfields]

theorem Ran.confined (h : Ran substrate schema principal touched db steps touched' db')
    (hd : schema.Deployed db) (hc : c ∈ schema.collections)
    (hcolumn : column ∈ c.fields.map Prod.fst) (ht : db.table c.table = some t)
    (ht' : db'.table c.table = some t')
    (hsteps : ∀ step ∈ steps, step.Fronts c →
      step.KeepsOwner substrate.engine column principal) : Confined column principal t t' := by
  induction h generalizing t with
  | nil =>
      obtain rfl := Option.some.inj (ht.symm.trans ht')
      exact .refl column principal t
  | cons _ _ hperformed _ ih =>
      obtain ⟨hstep, hrest⟩ := List.forall_mem_cons.mp hsteps
      have hd' := hperformed.deployed hd
      rcases hperformed.change_of ht with ⟨hfronts, _, u, hu, hchange⟩ | ⟨_, hu⟩
      · exact (hchange.confined (hd.fields hc ht ▸ hcolumn) (hstep hfronts)).trans
          (ih hd' hu ht' hrest)
      · exact ih hd' hu ht' hrest

theorem Ran.kept (h : Ran substrate schema principal touched db steps touched' db')
    (hd : schema.Deployed db) (hc : c ∈ schema.collections)
    (hcolumn : column ∈ c.fields.map Prod.fst) (ht : db.table c.table = some t)
    (ht' : db'.table c.table = some t')
    (hguards : ∀ step ∈ steps, step.Fronts c → step.Guards column) :
    ∀ r ∈ t.rows, ¬ Owned principal (r.cells column) → r ∈ t'.rows := by
  induction h generalizing t with
  | nil =>
      obtain rfl := Option.some.inj (ht.symm.trans ht')
      exact fun r hr _ => hr
  | cons _ _ hperformed _ ih =>
      obtain ⟨hguard, hrest⟩ := List.forall_mem_cons.mp hguards
      have hd' := hperformed.deployed hd
      rcases hperformed.change_of ht with ⟨hfronts, hslot, u, hu, hchange⟩ | ⟨_, hu⟩
      · have hfound := hperformed.found_owned hslot (hd.fields hc ht ▸ hcolumn) (hguard hfronts)
        exact fun r hr hne => ih hd' hu ht' hrest r (hchange.kept hfound r hr hne) hne
      · exact ih hd' hu ht' hrest

theorem Ran.keepsOwner (h : Ran substrate schema principal touched db steps touched' db')
    (hd : schema.Deployed db) (hc : c ∈ schema.collections)
    (hcolumn : column ∈ c.fields.map Prod.fst) {start : Table}
    (ht : db.table c.table = some t) (ht' : db'.table c.table = some t')
    (hguards : ∀ step ∈ steps, step.Fronts c → step.Guards column)
    (hkept : ∀ r ∈ start.rows, ¬ Owned principal (r.cells column) → r ∈ t.rows)
    (hsafe : OwnerSafe column principal start t') :
    ∀ step ∈ steps, step.Fronts c → step.KeepsOwner substrate.engine column principal := by
  induction h generalizing t with
  | nil => exact fun step hstep => by cases hstep
  | cons _ _ hperformed hran ih =>
      obtain ⟨hguard, hrest⟩ := List.forall_mem_cons.mp hguards
      have hd' := hperformed.deployed hd
      rw [List.forall_mem_cons]
      rcases hperformed.change_of ht with ⟨hfronts, hslot, u, hu, hchange⟩ | ⟨hfronts, hu⟩
      · have hfield : column ∈ t.fields.map Prod.fst := hd.fields hc ht ▸ hcolumn
        have hfound := hperformed.found_owned hslot hfield (hguard hfronts)
        refine ⟨fun _ => ⟨hfound, fun cell hcell => ?_⟩, ih hd' hu ht' hrest
          fun r hr hne => hchange.kept hfound r (hkept r hr hne) hne⟩
        by_contra hne
        obtain ⟨r', hr', rfl, hkey⟩ := hchange.stored_row hslot hfield hcell
        have hend := hran.kept hd' hc hcolumn hu ht' hrest r' hr' hne
        cases hhas : start.has r'.key with
        | false => exact hne (hsafe.new_owned r' hend hhas)
        | true =>
            obtain ⟨r, hr, hrkey⟩ := Table.has_iff.mp hhas
            by_cases howned : Owned principal (r.cells column)
            · exact hne (hsafe.own_kept r hr howned r' hend hrkey.symm)
            · exact howned (hfound r (hkey r (hkept r hr howned) hrkey))
      · exact ⟨fun hf => absurd hf hfronts, ih hd' hu ht' hrest hkept⟩

end

def OwnerSafeIn (c : ForgeCollection) (column : String) (principal : Option PrincipalId)
    (db db' : Db) : Prop :=
  ∃ t t', db.table c.table = some t ∧ db'.table c.table = some t' ∧
    OwnerSafe column principal t t'

/-- A call leaves the rows of an identity-partitioned collection with their owners when
each of its steps on the table names the caller, and, where all of them go through
guarded collections, exactly then. -/
theorem ownerSafe_iff (substrate : Substrate) (wire : Wire) {schema : ForgeSchema}
    (writes : List ForgeWrite) (projector : Option RowProjector) (principal : Option PrincipalId)
    {world : World} (hd : schema.Deployed world.db) {c : ForgeCollection}
    (hc : c ∈ schema.collections) {column : String} (hcolumn : c.partitionBy = some column) :
    let steps := committedSteps substrate schema writes principal world.db
    let after := (applyWrites substrate wire schema writes projector principal world).world.db
    ((∀ step ∈ steps, step.Fronts c → step.KeepsOwner substrate.engine column principal) →
        OwnerSafeIn c column principal world.db after) ∧
      ((∀ step ∈ steps, step.Fronts c → step.Guards column) →
        (OwnerSafeIn c column principal world.db after ↔
          ∀ step ∈ steps, step.Fronts c → step.KeepsOwner substrate.engine column principal)) := by
  intro steps after
  have hfield := c.partition_declared column hcolumn
  obtain ⟨t, ht, -⟩ := hd c hc
  rcases applyWrites_db substrate wire schema writes projector principal world with
    ⟨hsame, hnone⟩ | ⟨touched, db', hcommit, hafter⟩
  · have hsafe : OwnerSafeIn c column principal world.db after :=
      ⟨t, t, ht, by rw [show after = world.db from hsame, ht], (Confined.refl column principal t).safe⟩
    refine ⟨fun _ => hsafe, fun _ => iff_of_true hsafe fun step hstep => ?_⟩
    rw [show steps = [] from hnone] at hstep
    cases hstep
  · obtain ⟨_, hran⟩ := commitWrites_ran hd hcommit
    obtain ⟨t', ht', -⟩ := hran.deployed hd c hc
    have hforward : (∀ step ∈ steps, step.Fronts c →
        step.KeepsOwner substrate.engine column principal) →
          OwnerSafeIn c column principal world.db after := fun hsteps =>
      ⟨t, t', ht, by rw [show after = db' from hafter, ht'],
        (hran.confined hd hc hfield ht ht' hsteps).safe⟩
    refine ⟨hforward, fun hguards => ⟨?_, hforward⟩⟩
    rintro ⟨u, u', hu, hu', hsafe⟩
    obtain rfl := Option.some.inj (ht.symm.trans hu)
    obtain rfl := Option.some.inj (ht'.symm.trans ((show after = db' from hafter) ▸ hu'))
    exact hran.keepsOwner hd hc hfield ht ht' hguards (fun r hr _ => hr) hsafe

def notes : ForgeCollection where
  topic := "notes"
  table := "notes"
  keyColumn := "id"
  fields := [("body", ⟨.text, false⟩), ("owner", ⟨.text, false⟩)]
  orderBy := [⟨"id", .asc⟩]
  sort := [⟨"id", .asc⟩]
  partitionBy := some "owner"
  identityPartitioned := true
  edit := .author
  table_safe := by decide
  key_safe := guestbook.key_safe
  key_fresh := by decide
  fields_nodup := by decide
  partition_declared := by decide
  sort_head := guestbook.sort_head

def notesSchema : ForgeSchema := ⟨[notes], by simp⟩

def notesDb : Db where
  tables := fun name =>
    if name = "notes" then
      some
        { name := "notes"
          key := "id"
          fields := notes.fields
          rows := [⟨1, fun f => if f = "owner" then .text "ada" else .text "hello"⟩]
          seq := 1
          sorted := by simp
          names := by decide }
    else none
  authors := fun _ => none

theorem notes_deployed : notesSchema.Deployed notesDb := by
  intro c hc
  obtain rfl := List.mem_singleton.mp hc
  exact ⟨_, rfl, rfl, rfl⟩

def rewriteNote (fields : Record) : List ForgeWrite := [.update "notes" (.number (.int 1)) fields]

theorem ownerSafe_iff_notes :
    let writes := rewriteNote (.single "body" (.string "bye"))
    let steps := committedSteps .plain notesSchema writes (some ada) notesDb
    let after := (applyWrites .plain .plain notesSchema writes none (some ada)
      (.quiet notesDb)).world.db
    ((∀ step ∈ steps, step.Fronts notes → step.KeepsOwner .plain "owner" (some ada)) →
        OwnerSafeIn notes "owner" (some ada) notesDb after) ∧
      ((∀ step ∈ steps, step.Fronts notes → step.Guards "owner") →
        (OwnerSafeIn notes "owner" (some ada) notesDb after ↔
          ∀ step ∈ steps, step.Fronts notes → step.KeepsOwner .plain "owner" (some ada))) := by
  have hd : notesSchema.Deployed (World.quiet notesDb).db := notes_deployed
  exact ownerSafe_iff .plain .plain _ none (some ada) hd (List.mem_singleton.mpr rfl) rfl

/-- Under another spelling of the owner column the note is handed away. -/
theorem update_hands_note_away :
    ¬ OwnerSafeIn notes "owner" (some ada) notesDb
      (applyWrites .plain .plain notesSchema
        (rewriteNote (.single "Owner" (.string "bob"))) none (some ada)
        (.quiet notesDb)).world.db := by
  rintro ⟨t, t', ht, ht', hsafe⟩
  have hrows : (t.rows.map fun r => (r.key, r.cells "owner")) = [(1, .text "ada")] := by
    cases ht
    rfl
  have hrows' : (t'.rows.map fun r => (r.key, r.cells "owner")) = [(1, .text "bob")] := by
    have hdecide : ((applyWrites .plain .plain notesSchema
        (rewriteNote (.single "Owner" (.string "bob"))) none (some ada)
        (.quiet notesDb)).world.db.table notes.table).map
          (fun u => u.rows.map fun r => (r.key, r.cells "owner")) = some [(1, .text "bob")] := by
      decide
    rw [ht'] at hdecide
    exact Option.some.inj hdecide
  obtain ⟨r, hr, hkey⟩ := List.map_eq_singleton_iff.mp hrows
  obtain ⟨r', hr', hkey'⟩ := List.map_eq_singleton_iff.mp hrows'
  obtain ⟨hk, ho⟩ := Prod.mk.inj hkey
  obtain ⟨hk', ho'⟩ := Prod.mk.inj hkey'
  obtain ⟨p, hp, howner⟩ := hsafe.own_kept r (by simp [hr]) ⟨ada, rfl, by rw [ho]; rfl⟩ r'
    (by simp [hr']) (hk'.trans hk.symm)
  rw [ho'] at howner
  obtain rfl := Option.some.inj hp
  revert howner
  decide

end Albedo.Forge
