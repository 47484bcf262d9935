import Albedo.Forge.Effect
import Albedo.Forge.Rows

/-!
# What one step does to the rows

`RowChange` puts the effect of a performed write on the rows of its table in terms of
the step alone: the row its key finds, and what its record gives each column.
-/
namespace Albedo.Forge
open Json Broadcast

def Step.table (step : Step) : Option Table := step.before.table step.slot.table

def Step.found (engine : Engine) (step : Step) : Option Row :=
  match step.write with
  | .append .. => none
  | .update _ key _ | .delete _ key =>
      (keyToSqlvalue engine step.slot.topic step.slot.keyColumn key).toOption.bind fun bound =>
        step.table.bind fun t => t.at engine bound

/-- What the record of a step gives a column: of several names for one column, an insert
takes the first for a field and the last for the key, an update always the last. -/
def Step.given (engine : Engine) (principal : Option PrincipalId) (step : Step)
    (column : Column) : Option SqlValue :=
  step.table.bind fun t =>
    match step.write, column with
    | .append _ record, .field field =>
        (authorizeAppend step.slot record principal).toOption.bind fun record =>
          givenFor engine t (.field field) record.entries
    | .append _ record, .key =>
        (authorizeAppend step.slot record principal).toOption.bind fun record =>
          givenFor engine t .key record.entries.reverse
    | .update _ _ fields, column => givenFor engine t column fields.entries.reverse
    | .delete .., _ => none

/-- The cell a step puts in a field: an append one in each, an update in those it names. -/
def Step.stored (engine : Engine) (principal : Option PrincipalId) (step : Step)
    (field : String) : Option SqlValue :=
  step.table.bind fun t =>
    match step.write with
    | .append .. =>
        some (engine.store (t.typeOf field)
          ((step.given engine principal (.field field)).getD .null))
    | .update .. =>
        (step.found engine).bind fun _ =>
          (step.given engine principal (.field field)).map (engine.store (t.typeOf field))
    | .delete .. => none

def Step.inserted (engine : Engine) (principal : Option PrincipalId) (step : Step) : Option Row :=
  match step.write with
  | .append _ given => do
      let t ← step.table
      let record ← (authorizeAppend step.slot given principal).toOption
      let params ← (appendColumns engine record.entries).toOption
      let (row, _) ← (t.insert engine record.columns params).toOption
      return row
  | _ => none

def Step.keyAfter (engine : Engine) (principal : Option PrincipalId) (step : Step) (row : Row) :
    ℤ :=
  ((step.given engine principal .key).bind engine.rowid).getD row.key

inductive RowChange (engine : Engine) (principal : Option PrincipalId) (step : Step) (t : Table) :
    List Row → Prop
  | inserted {collection : String} {record : Record} (row : Row) :
      step.write = .append collection record → step.inserted engine principal = some row →
      t.has row.key = false →
      (∀ field ∈ t.fields.map Prod.fst,
        step.stored engine principal field = some (row.cells field)) →
      RowChange engine principal step t (insertRow row t.rows)
  | missing : step.found engine = none →
      (∀ collection record, step.write ≠ .append collection record) →
      RowChange engine principal step t t.rows
  | updated {collection : String} {key : Value} {fields : Record} (row row' : Row) :
      step.write = .update collection key fields → step.found engine = some row →
      row ∈ t.rows → (t.remove row.key).has row'.key = false →
      (∀ field ∈ t.fields.map Prod.fst,
        row'.cells field = (step.stored engine principal field).getD (row.cells field)) →
      row'.key = step.keyAfter engine principal row →
      RowChange engine principal step t (insertRow row' (t.remove row.key).rows)
  | removed {collection : String} {key : Value} (row : Row) :
      step.write = .delete collection key → step.found engine = some row → row ∈ t.rows →
      RowChange engine principal step t (t.remove row.key).rows

theorem Table.lookup_of_mem_fields {t : Table} {field : String} (h : field ∈ t.fields.map Prod.fst) :
    ∃ spec, t.fields.lookup field = some spec ∧ t.typeOf field = spec.ty := by
  obtain ⟨spec, hspec⟩ := KeyedList.lookup_of_mem_keys h
  exact ⟨spec, hspec, by simp [Table.typeOf, hspec]⟩

theorem Table.remove_of_not_has {t : Table} {key : ℤ} (h : t.has key = false) :
    (t.remove key).rows = t.rows :=
  List.filter_eq_self.mpr fun r hr => by simpa using Table.not_has h r hr

theorem Table.delete_rows (t : Table) (engine : Engine) (bound : SqlValue) :
    (t.delete engine bound).rows = match t.at engine bound with
      | none => t.rows
      | some row => (t.remove row.key).rows := by
  unfold Table.delete
  cases hat : t.at engine bound with
  | some row =>
      rw [(Table.at_eq_some.mp hat).2]
  | none =>
      cases hrowid : engine.rowid bound with
      | none => rfl
      | some key =>
          refine Table.remove_of_not_has (Bool.eq_false_iff.mpr fun hhas => ?_)
          obtain ⟨r, hr, rfl⟩ := Table.has_iff.mp hhas
          rw [Table.at_eq_some.mpr ⟨hr, hrowid⟩] at hat
          cases hat

theorem Table.updateKey_ok {engine : Engine} {given : List (Column × SqlValue)} {row : Row}
    {key : ℤ} (h : Table.updateKey engine given row = .ok key) :
    key = ((given.reverse.lookup .key).bind engine.rowid).getD row.key := by
  unfold Table.updateKey at h
  cases hv : given.reverse.lookup .key with
  | none =>
      rw [hv] at h
      exact (Except.ok.inj h).symm
  | some v =>
      rw [hv] at h
      dsimp only at h
      cases hrowid : engine.rowid v with
      | none => simp [hrowid] at h
      | some k =>
          rw [hrowid] at h
          simp [hrowid, Except.ok.inj h]

theorem Table.updateCells_field {t : Table} {engine : Engine} {entries : Fields}
    {given : List (Column × SqlValue)} (hgives : Gives engine t entries given) (row : Row)
    {field : String} (h : field ∈ t.fields.map Prod.fst) :
    t.updateCells engine given row field =
      ((givenFor engine t (.field field) entries.reverse).map
        (engine.store (t.typeOf field))).getD (row.cells field) := by
  obtain ⟨spec, hspec, hty⟩ := Table.lookup_of_mem_fields h
  unfold Table.updateCells
  rw [hspec, hgives.reverse.lookup, hty]
  cases givenFor engine t (.field field) entries.reverse <;> rfl

theorem Table.insertCells_field {t : Table} {engine : Engine} {entries : Fields}
    {given : List (Column × SqlValue)} (hgives : Gives engine t entries given)
    {field : String} (h : field ∈ t.fields.map Prod.fst) :
    t.insertCells engine given field =
      engine.store (t.typeOf field) ((givenFor engine t (.field field) entries).getD .null) := by
  obtain ⟨spec, hspec, hty⟩ := Table.lookup_of_mem_fields h
  unfold Table.insertCells
  rw [hspec, hgives.lookup, hty]

theorem Performed.rowChange {substrate : Substrate} {slot : ForgeCollection}
    {principal : Option PrincipalId} {touched touched' : List Touched} {db db' : Db}
    {write : ForgeWrite} (h : Performed substrate slot principal touched db write touched' db') :
    ∃ t t', db.table slot.table = some t ∧ t.SameShape t' ∧
      (∀ name, db'.table name =
        if foldName name = foldName slot.table then some t' else db.table name) ∧
      RowChange substrate.engine principal ⟨slot, db, write⟩ t t'.rows := by
  cases h with
  | @append collection given record partition noted params t t' row hrecord _ _ hparams ht hinsert =>
      obtain ⟨cols, hcols, _, hcells, hfree, hrows, _, hshape⟩ := Table.insert_ok hinsert
      refine ⟨t, t', ht, hshape, Db.table_appended _ _ _ _ _, ?_⟩
      rw [hrows]
      have hrow : Step.inserted substrate.engine principal
          ⟨slot, db, .append collection given⟩ = some row := by
        simp [Step.inserted, Step.table, ht, hrecord, hparams, hinsert, Except.toOption]
      refine .inserted row rfl hrow hfree fun field hfield => ?_
      rw [hcells, Table.insertCells_field (gives_of hcols (appendColumns_ok hparams)) hfield]
      simp [Step.stored, Step.given, Step.table, ht, hrecord, Except.toOption]
  | @update collection key fields bound before resolved noted params t t' hbound ht _ _ _ _ _ _
      hparams hupdate =>
      obtain ⟨cols, hcols, hshape, _, hrows⟩ := Table.update_ok hupdate
      refine ⟨t, t', ht, hshape, fun name => Db.table_setTable _ _ name _, ?_⟩
      have hfound : Step.found substrate.engine ⟨slot, db, .update collection key fields⟩ =
          t.at substrate.engine bound := by
        simp [Step.found, Step.table, hbound, ht, Except.toOption]
      have hgiven : ∀ column, Step.given substrate.engine principal
          ⟨slot, db, .update collection key fields⟩ column =
            givenFor substrate.engine t column fields.entries.reverse := by
        intro column
        simp [Step.given, Step.table, ht]
      -- the key is bound last, after the values of the columns
      have hlength : cols.length = params.length := by
        rw [← (updateColumns_ok hparams).length_eq, ← (resolved_of_mapM hcols).length_eq,
          Record.columns, List.length_map]
      have hzip : cols.zip (params ++ [bound]) = cols.zip params := by
        simpa using @List.zip_append _ _ cols [] params [bound] hlength
      have hgives := gives_of hcols (updateColumns_ok hparams)
      cases hat : t.at substrate.engine bound with
      | none =>
          rw [hat] at hrows
          rw [hrows]
          exact .missing (hfound.trans hat) (by simp)
      | some row =>
          rw [hat] at hrows
          obtain ⟨row', hrow', hfree, hrows⟩ := hrows
          rw [hzip] at hrow'
          obtain ⟨hkey, hcells⟩ := Table.updateRow_ok hrow'
          have hkey' := Table.updateKey_ok hkey
          rw [hgives.reverse.lookup] at hkey'
          rw [hrows]
          refine .updated row row' rfl (hfound.trans hat) (Table.at_eq_some.mp hat).1 hfree ?_ ?_
          · intro field hfield
            rw [hcells, Table.updateCells_field hgives row hfield]
            simp [Step.stored, hfound, hat, hgiven, Step.table, ht]
          · rw [hkey', Step.keyAfter, hgiven]
  | @delete collection key bound before noted t hbound ht _ _ _ _ =>
      have hfound : Step.found substrate.engine ⟨slot, db, .delete collection key⟩ =
          t.at substrate.engine bound := by
        simp [Step.found, Step.table, hbound, ht, Except.toOption]
      refine ⟨t, t.delete substrate.engine bound, ht, ?_, Db.table_deleted _ _ _ _ _, ?_⟩
      · unfold Table.delete
        split <;> exact ⟨rfl, rfl⟩
      · rw [Table.delete_rows]
        cases hat : t.at substrate.engine bound with
        | none => exact .missing (hfound.trans hat) (by simp)
        | some row => exact .removed row rfl (hfound.trans hat) (Table.at_eq_some.mp hat).1

def Step.Fronts (c : ForgeCollection) (step : Step) : Prop :=
  foldName step.slot.table = foldName c.table

theorem Db.table_congr (db : Db) {name name' : String} (h : foldName name = foldName name') :
    db.table name = db.table name' := by
  unfold Db.table
  rw [h]

theorem Performed.change_of {substrate : Substrate} {slot : ForgeCollection}
    {principal : Option PrincipalId} {touched touched' : List Touched} {db db' : Db}
    {write : ForgeWrite} (h : Performed substrate slot principal touched db write touched' db')
    {c : ForgeCollection} {t : Table} (ht : db.table c.table = some t) :
    Step.Fronts c ⟨slot, db, write⟩ ∧ db.table slot.table = some t ∧
        (∃ t', db'.table c.table = some t' ∧
          RowChange substrate.engine principal ⟨slot, db, write⟩ t t'.rows) ∨
      ¬ Step.Fronts c ⟨slot, db, write⟩ ∧ db'.table c.table = some t := by
  obtain ⟨u, u', hu, _, htables, hchange⟩ := h.rowChange
  by_cases hfronts : Step.Fronts c ⟨slot, db, write⟩
  · obtain rfl := Option.some.inj ((hu.symm.trans (Db.table_congr db hfronts)).trans ht)
    exact Or.inl ⟨hfronts, hu, u', by rw [htables, if_pos hfronts.symm], hchange⟩
  · refine Or.inr ⟨hfronts, ?_⟩
    rw [htables, if_neg (fun heq => hfronts heq.symm), ht]

end Albedo.Forge
