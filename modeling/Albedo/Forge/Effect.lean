import Albedo.Forge.Write

/-!
# What one write does

`Performed` says everything a successful write can do: what it was allowed to, which
partitions it resolved onto, the table it left and the row it handed back. Results
about runs of writes split on it instead of unfolding the steps.
-/
namespace Albedo.Forge
open Json Broadcast Fallible

def RowPartition (slot : ForgeCollection) (t : Table) (column : String) (before : Option String) :
    Option Row → Prop
  | none => before = none
  | some row => ∃ col key, t.resolve column = some col ∧
      cellPartition slot column (some (row.value col)) = .ok key ∧ before = some key

def ReadsPartition (engine : Engine) (slot : ForgeCollection) (t : Table) (bound : SqlValue)
    (before : Option String) : Prop :=
  match slot.partitionBy with
  | none => before = none
  | some column => RowPartition slot t column before (t.at engine bound)

/-- The author check passed: it does not apply, or the row is the caller's or missing. -/
def AuthorAllowed (engine : Engine) (slot : ForgeCollection) (principal : Option PrincipalId)
    (db : Db) (t : Table) (bound : SqlValue) : Prop :=
  slot.identityPartitioned = true ∨ slot.edit = .anyone ∨
    ∃ p, principal = some p ∧
      ∀ row, t.at engine bound = some row → db.authors (slot.table, row.key) = some p.id

/-- The database an append leaves, with its author recorded where there is one to record. -/
def Db.appended (db : Db) (slot : ForgeCollection) (principal : Option PrincipalId) (t : Table)
    (key : ℤ) : Db :=
  match principal, slot.identityPartitioned with
  | some p, false => (db.setTable slot.table t).setAuthor slot.table key (some p.id)
  | _, _ => db.setTable slot.table t

def Db.deleted (db : Db) (engine : Engine) (slot : ForgeCollection) (t : Table)
    (bound : SqlValue) : Db :=
  match engine.rowid bound with
  | some key => (db.setTable slot.table (t.remove key)).setAuthor slot.table key none
  | none => db.setTable slot.table t

/-- The row an append hands back: none when the substrate answers no `RETURNING`. -/
def persistedRow (substrate : Substrate) (slot : ForgeCollection) (t : Table) (row : Row)
    (record : Record) : Option Value :=
  if substrate.honoursReturning then
    ((slot.keyColumn :: record.columns).mapM t.resolve).bind fun cols =>
      returnedRecord (slot.keyColumn :: record.columns) (cols.map row.value) slot.typeOf
  else none

inductive Performed (substrate : Substrate) (slot : ForgeCollection)
    (principal : Option PrincipalId) (touched : List Touched) (db : Db) :
    ForgeWrite → List Touched → Db → Prop
  | append {collection : String} {given record : Record} {partition : Option String}
      {noted : List Touched} {params : List SqlValue} {t t' : Table} {row : Row} :
      authorizeAppend slot given principal = .ok record →
      appendPartition slot record = .ok partition →
      noteResolved slot touched [partition] = .ok noted →
      appendColumns substrate.engine record.entries = .ok params →
      db.table slot.table = some t →
      t.insert substrate.engine record.columns params = .ok (row, t') →
      Performed substrate slot principal touched db (.append collection given)
        (recordOutcome noted slot (persistedRow substrate slot t row record))
        (db.appended slot principal t' row.key)
  | update {collection : String} {key : Value} {fields : Record} {bound : SqlValue}
      {before : Option String} {resolved : List (Option String)} {noted : List Touched}
      {params : List SqlValue} {t t' : Table} :
      keyToSqlvalue substrate.engine slot.topic slot.keyColumn key = .ok bound →
      db.table slot.table = some t →
      AuthorAllowed substrate.engine slot principal db t bound →
      ReadsPartition substrate.engine slot t bound before →
      authorizeExistingRow slot before principal = .ok () →
      authorizePartitionMove slot fields principal = .ok () →
      updatePartitions slot before fields = .ok resolved →
      noteResolved slot touched resolved = .ok noted →
      updateColumns substrate.engine slot.table slot.keyColumn fields.entries = .ok params →
      t.update substrate.engine fields.columns (params ++ [bound]) bound = .ok t' →
      Performed substrate slot principal touched db (.update collection key fields)
        (recordOutcome noted slot none) (db.setTable slot.table t')
  | delete {collection : String} {key : Value} {bound : SqlValue} {before : Option String}
      {noted : List Touched} {t : Table} :
      keyToSqlvalue substrate.engine slot.topic slot.keyColumn key = .ok bound →
      db.table slot.table = some t →
      AuthorAllowed substrate.engine slot principal db t bound →
      ReadsPartition substrate.engine slot t bound before →
      authorizeExistingRow slot before principal = .ok () →
      noteResolved slot touched [before] = .ok noted →
      Performed substrate slot principal touched db (.delete collection key)
        (recordOutcome noted slot none) (db.deleted substrate.engine slot t bound)

/-! ### Reading the steps -/

theorem keyToSqlvalue_collection {engine : Engine} {collection collection' keyColumn : String}
    {key : Value} {bound : SqlValue}
    (h : keyToSqlvalue engine collection keyColumn key = .ok bound) :
    keyToSqlvalue engine collection' keyColumn key = .ok bound := by
  cases key with
  | null => cases h
  | _ => exact h

theorem Db.table_setTable (db : Db) (name name' : String) (t : Table) :
    (db.setTable name t).table name' =
      if foldName name' = foldName name then some t else db.table name' := by
  unfold Db.setTable Db.table Function.update
  split_ifs <;> simp_all

section
variable {substrate : Substrate} {slot : ForgeCollection} {principal : Option PrincipalId}
variable {tx tx' : Tx} {key : Value}

theorem authorizeAuthor_ok {u : Unit}
    (h : authorizeAuthor substrate slot principal key tx = .ok (u, tx')) :
    tx'.db = tx.db ∧ ∀ bound t,
      keyToSqlvalue substrate.engine slot.topic slot.keyColumn key = .ok bound →
      tx.db.table slot.table = some t →
      AuthorAllowed substrate.engine slot principal tx.db t bound := by
  unfold authorizeAuthor at h
  split_ifs at h with hfree
  · obtain ⟨_, rfl⟩ := TxM.pure_ok h
    refine ⟨rfl, fun _ _ _ _ => ?_⟩
    rcases hfree with hfree | hfree
    · exact Or.inl hfree
    · exact Or.inr (Or.inl hfree)
  · cases principal with
    | none => cases h
    | some p =>
        obtain ⟨bound, mid, hc, h⟩ := TxM.bind_ok h
        obtain ⟨hbound, rfl⟩ := check_ok hc
        obtain ⟨rows, mid', hrun, h⟩ := TxM.bind_ok h
        obtain ⟨t, ht, hdb, _, hrows⟩ := run_selectAuthor_ok (substrate.run_ok hrun)
        simp only [List.head?_cons, Option.getD_some, List.tail_cons] at hrows
        have hend : tx'.db = mid'.db ∧ ∀ row, t.at substrate.engine bound = some row →
            tx.db.authors (slot.table, row.key) = some p.id := by
          cases hat : t.at substrate.engine bound with
          | none =>
              rw [hrows, hat] at h
              obtain ⟨_, rfl⟩ := TxM.pure_ok h
              exact ⟨rfl, fun row hrow => by cases hrow⟩
          | some row =>
              rw [hrows, hat] at h
              obtain ⟨hcheck, rfl⟩ := check_ok h
              refine ⟨rfl, fun row' hrow => ?_⟩
              obtain rfl := Option.some.inj hrow
              unfold Db.authorOf checkAuthor at hcheck
              cases hauthor : tx.db.authors (slot.table, row.key) with
              | none => simp [hauthor] at hcheck
              | some author =>
                  simp only [hauthor, Option.map_some, Option.getD_some,
                    List.getElem?_cons_zero] at hcheck
                  split_ifs at hcheck with hsame
                  rw [hsame]
        refine ⟨hend.1.trans hdb, fun bound' t' hbound' ht' => ?_⟩
        obtain rfl := Except.ok.inj (hbound.symm.trans hbound')
        obtain rfl := Option.some.inj (ht.symm.trans ht')
        exact Or.inr (Or.inr ⟨p, rfl, hend.2⟩)

theorem readPartition_ok {before : Option String}
    (h : readPartition substrate slot key tx = .ok (before, tx')) :
    tx'.db = tx.db ∧ ∀ bound t,
      keyToSqlvalue substrate.engine slot.topic slot.keyColumn key = .ok bound →
      tx.db.table slot.table = some t →
      ReadsPartition substrate.engine slot t bound before := by
  unfold readPartition at h
  unfold ReadsPartition
  cases hcolumn : slot.partitionBy with
  | none =>
      rw [hcolumn] at h
      obtain ⟨rfl, rfl⟩ := TxM.pure_ok h
      exact ⟨rfl, fun _ _ _ _ => rfl⟩
  | some column =>
      rw [hcolumn] at h
      obtain ⟨bound, mid, hc, h⟩ := TxM.bind_ok h
      obtain ⟨hbound, rfl⟩ := check_ok hc
      obtain ⟨rows, mid', hrun, h⟩ := TxM.bind_ok h
      obtain ⟨t, col, ht, hcol, hdb, _, hrows⟩ := run_selectColumn_ok (substrate.run_ok hrun)
      simp only [List.head?_cons, Option.getD_some] at hrows
      have hend : tx'.db = mid'.db ∧
          RowPartition slot t column before (t.at substrate.engine bound) := by
        cases hat : t.at substrate.engine bound with
        | none =>
            rw [hrows, hat] at h
            obtain ⟨rfl, rfl⟩ := TxM.pure_ok h
            exact ⟨rfl, rfl⟩
        | some row =>
            rw [hrows, hat] at h
            obtain ⟨partition, after, hc, h⟩ := TxM.bind_ok h
            obtain ⟨hcell, rfl⟩ := check_ok hc
            obtain ⟨rfl, rfl⟩ := TxM.pure_ok h
            exact ⟨rfl, col, partition, hcol, hcell, rfl⟩
      refine ⟨hend.1.trans hdb, fun bound' t' hbound' ht' => ?_⟩
      obtain rfl := Except.ok.inj (hbound.symm.trans hbound')
      obtain rfl := Option.some.inj (ht.symm.trans ht')
      exact hend.2

theorem recordAuthor_ok {returned : Option SqlValue} {p : PrincipalId} {i : ℤ} {u : Unit}
    (hreturned : ∀ cell ∈ returned, cell = .integer i) (hlast : tx.last = i)
    (h : recordAuthor substrate slot returned p tx = .ok (u, tx')) :
    tx'.db = tx.db.setAuthor slot.table i (some p.id) := by
  obtain ⟨cell, mid, hcell, h⟩ := TxM.bind_ok h
  have hmid : cell = .integer i ∧ mid.db = tx.db := by
    unfold appendedKey at hcell
    cases returned with
    | some cell' =>
        obtain ⟨rfl, rfl⟩ := TxM.pure_ok hcell
        exact ⟨hreturned _ rfl, rfl⟩
    | none =>
        obtain ⟨rows, mid', hrun, hcell⟩ := TxM.bind_ok hcell
        obtain ⟨hdb, _, hrows⟩ := run_lastInsertRowid_ok (substrate.run_ok hrun)
        rw [hrows] at hcell
        obtain ⟨rfl, rfl⟩ := TxM.pure_ok hcell
        exact ⟨by rw [hlast], hdb⟩
  obtain ⟨rfl, hdb⟩ := hmid
  obtain ⟨rows, mid', hrun, h⟩ := TxM.bind_ok h
  obtain ⟨_, rfl⟩ := TxM.pure_ok h
  rw [(run_replaceAuthor_ok (substrate.run_ok hrun)).1, hdb]

theorem buildAppendReturning_ok {engine : Engine} {table keyColumn : String} {record : Record}
    {sql : Sql} {params : List SqlValue} {returned : List String}
    (h : buildAppendReturning engine table keyColumn record = .ok (sql, params, returned)) :
    appendColumns engine record.entries = .ok params ∧ returned = keyColumn :: record.columns ∧
      sql = .insert table record.columns returned := by
  obtain ⟨⟨_, params'⟩, hbuild, h⟩ := bind_eq_ok.mp h
  obtain ⟨rfl, rfl, rfl⟩ := Prod.mk.injEq .. ▸ Except.pure_ok h
  unfold buildAppend at hbuild
  split_ifs at hbuild
  obtain ⟨params'', hparams, hbuild⟩ := bind_eq_ok.mp hbuild
  obtain ⟨_, rfl⟩ := Prod.mk.injEq .. ▸ Except.pure_ok hbuild
  exact ⟨hparams, rfl, rfl⟩

theorem runAppend_ok {record : Record} {persisted : Option Value} (hslot : slot.DeployedIn tx.db)
    (h : runAppend substrate slot principal record tx = .ok (persisted, tx')) :
    ∃ params t t' row, appendColumns substrate.engine record.entries = .ok params ∧
      tx.db.table slot.table = some t ∧
      t.insert substrate.engine record.columns params = .ok (row, t') ∧
      persisted = persistedRow substrate slot t row record ∧
      tx'.db = tx.db.appended slot principal t' row.key := by
  obtain ⟨⟨sql, params, columns⟩, mid, hc, h⟩ := TxM.bind_ok h
  obtain ⟨hbuild, rfl⟩ := check_ok hc
  obtain ⟨hparams, rfl, rfl⟩ := buildAppendReturning_ok hbuild
  obtain ⟨rows, mid', hrun, h⟩ := TxM.bind_ok h
  obtain ⟨t, row, t', cols, ht, hinsert, hcols, hdb, hlast, hrows⟩ :=
    run_insert_ok (substrate.run_ok hrun)
  obtain ⟨t₀, ht₀, hkey, _⟩ := hslot
  obtain rfl := Option.some.inj (ht₀.symm.trans ht)
  -- the first returned column is the key of the new row
  obtain ⟨rest, rfl⟩ : ∃ rest, cols = .key :: rest := by
    rw [List.mapM_cons, ← hkey, t₀.resolve_key] at hcols
    cases hrest : record.columns.mapM t₀.resolve with
    | none => simp [hrest] at hcols
    | some rest => exact ⟨rest, by simpa [hrest, eq_comm] using hcols⟩
  obtain ⟨_, mid₂, hauthor, h⟩ := TxM.bind_ok h
  obtain ⟨rfl, rfl⟩ := TxM.pure_ok h
  refine ⟨params, t₀, t', row, hparams, ht, hinsert, ?_, ?_⟩
  · unfold persistedRow
    rw [hrows, hcols]
    split_ifs <;> rfl
  · unfold Db.appended
    have hreturned : ∀ cell ∈ rows.rows.head?.bind fun r => r[0]?, cell = .integer row.key := by
      intro cell hcell
      rw [hrows] at hcell
      split_ifs at hcell
      · simpa [Row.value, eq_comm] using hcell
      · simp at hcell
    unfold noteAuthor at hauthor
    cases principal with
    | none =>
        obtain ⟨_, rfl⟩ := TxM.pure_ok hauthor
        exact hdb
    | some p =>
        cases hidentity : slot.identityPartitioned with
        | true =>
            simp only [hidentity] at hauthor
            obtain ⟨_, rfl⟩ := TxM.pure_ok hauthor
            exact hdb
        | false =>
            simp only [hidentity] at hauthor
            rw [recordAuthor_ok hreturned hlast hauthor, hdb]

theorem runUpdate_ok {collection : String} {fields : Record} {u : Unit}
    (h : runUpdate substrate slot (.update collection key fields) tx = .ok (u, tx')) :
    ∃ bound params t t', keyToSqlvalue substrate.engine slot.topic slot.keyColumn key = .ok bound ∧
      updateColumns substrate.engine slot.table slot.keyColumn fields.entries = .ok params ∧
      tx.db.table slot.table = some t ∧
      t.update substrate.engine fields.columns (params ++ [bound]) bound = .ok t' ∧
      tx'.db = tx.db.setTable slot.table t' := by
  obtain ⟨⟨sql, params⟩, mid, hc, h⟩ := TxM.bind_ok h
  obtain ⟨hbuild, rfl⟩ := check_ok hc
  obtain ⟨rows, mid', hrun, h⟩ := TxM.bind_ok h
  obtain ⟨_, rfl⟩ := TxM.pure_ok h
  simp only [buildStatement, buildUpdate] at hbuild
  split_ifs at hbuild
  obtain ⟨params', hparams, hbuild⟩ := bind_eq_ok.mp hbuild
  obtain ⟨bound, hbound, hbuild⟩ := bind_eq_ok.mp hbuild
  obtain ⟨rfl, rfl⟩ := Prod.mk.injEq .. ▸ Except.pure_ok hbuild
  obtain ⟨t, t', ht, hupdate, hdb, _⟩ := run_update_ok (substrate.run_ok hrun)
  rw [List.getLast?_concat, Option.getD_some] at hupdate
  exact ⟨bound, params', t, t', keyToSqlvalue_collection hbound, hparams, ht, hupdate, hdb⟩

theorem runDelete_ok {collection : String} {u : Unit}
    (h : runDelete substrate slot (.delete collection key) key tx = .ok (u, tx')) :
    ∃ bound t, keyToSqlvalue substrate.engine slot.topic slot.keyColumn key = .ok bound ∧
      tx.db.table slot.table = some t ∧
      tx'.db = tx.db.deleted substrate.engine slot t bound := by
  obtain ⟨⟨sql, params⟩, mid, hc, h⟩ := TxM.bind_ok h
  obtain ⟨hbuild, rfl⟩ := check_ok hc
  obtain ⟨rows, mid', hrun, h⟩ := TxM.bind_ok h
  obtain ⟨bound, mid₂, hc', h⟩ := TxM.bind_ok h
  obtain ⟨hbound, rfl⟩ := check_ok hc'
  obtain ⟨rows', mid₃, hrun', h⟩ := TxM.bind_ok h
  obtain ⟨_, rfl⟩ := TxM.pure_ok h
  obtain ⟨_, hdb'⟩ := run_deleteAuthor_ok (substrate.run_ok hrun')
  simp only [buildStatement, buildDelete] at hbuild
  obtain ⟨bound', hbound', hbuild⟩ := bind_eq_ok.mp hbuild
  obtain rfl := Except.ok.inj (hbound.symm.trans (keyToSqlvalue_collection hbound'))
  obtain ⟨rfl, rfl⟩ := Prod.mk.injEq .. ▸ Except.pure_ok hbuild
  obtain ⟨t, ht, hdb, _⟩ := run_delete_ok (substrate.run_ok hrun)
  refine ⟨bound, t, hbound, ht, ?_⟩
  rw [List.head?_cons, Option.getD_some] at hdb
  rw [hdb', hdb]
  unfold Db.deleted Table.delete
  cases substrate.engine.rowid bound <;> rfl

theorem runWrite_performed {touched touched' : List Touched} {write : ForgeWrite}
    (hslot : slot.DeployedIn tx.db)
    (h : runWrite substrate slot principal touched write tx = .ok (touched', tx')) :
    Performed substrate slot principal touched tx.db write touched' tx'.db := by
  cases write with
  | append collection given =>
      obtain ⟨record, mid, hc, h⟩ := TxM.bind_ok h
      obtain ⟨hrecord, rfl⟩ := check_ok hc
      obtain ⟨partition, mid, hc, h⟩ := TxM.bind_ok h
      obtain ⟨hpartition, rfl⟩ := check_ok hc
      obtain ⟨noted, mid, hc, h⟩ := TxM.bind_ok h
      obtain ⟨hnoted, rfl⟩ := check_ok hc
      obtain ⟨persisted, mid, happend, h⟩ := TxM.bind_ok h
      obtain ⟨rfl, rfl⟩ := TxM.pure_ok h
      obtain ⟨params, t, t', row, hparams, ht, hinsert, rfl, hdb⟩ := runAppend_ok hslot happend
      rw [hdb]
      exact .append hrecord hpartition hnoted hparams ht hinsert
  | update collection key fields =>
      obtain ⟨_, mid, hauthor, h⟩ := TxM.bind_ok h
      obtain ⟨hdb₁, hallowed⟩ := authorizeAuthor_ok hauthor
      obtain ⟨before, mid₂, hbefore, h⟩ := TxM.bind_ok h
      obtain ⟨hdb₂, hreads⟩ := readPartition_ok hbefore
      obtain ⟨_, mid₃, hc, h⟩ := TxM.bind_ok h
      obtain ⟨hexisting, rfl⟩ := check_ok hc
      obtain ⟨_, mid₃, hc, h⟩ := TxM.bind_ok h
      obtain ⟨hmove, rfl⟩ := check_ok hc
      obtain ⟨resolved, mid₃, hc, h⟩ := TxM.bind_ok h
      obtain ⟨hresolved, rfl⟩ := check_ok hc
      obtain ⟨noted, mid₃, hc, h⟩ := TxM.bind_ok h
      obtain ⟨hnoted, rfl⟩ := check_ok hc
      obtain ⟨_, mid₃, hupdate, h⟩ := TxM.bind_ok h
      obtain ⟨rfl, rfl⟩ := TxM.pure_ok h
      obtain ⟨bound, params, t, t', hbound, hparams, ht, hupdate, hdb⟩ := runUpdate_ok hupdate
      rw [hdb, hdb₂, hdb₁]
      rw [hdb₂, hdb₁] at ht
      exact .update hbound ht (hallowed bound t hbound ht) (hreads bound t hbound (hdb₁ ▸ ht))
        hexisting hmove hresolved hnoted hparams hupdate
  | delete collection key =>
      obtain ⟨_, mid, hauthor, h⟩ := TxM.bind_ok h
      obtain ⟨hdb₁, hallowed⟩ := authorizeAuthor_ok hauthor
      obtain ⟨before, mid₂, hbefore, h⟩ := TxM.bind_ok h
      obtain ⟨hdb₂, hreads⟩ := readPartition_ok hbefore
      obtain ⟨_, mid₃, hc, h⟩ := TxM.bind_ok h
      obtain ⟨hexisting, rfl⟩ := check_ok hc
      obtain ⟨noted, mid₃, hc, h⟩ := TxM.bind_ok h
      obtain ⟨hnoted, rfl⟩ := check_ok hc
      obtain ⟨_, mid₃, hdelete, h⟩ := TxM.bind_ok h
      obtain ⟨rfl, rfl⟩ := TxM.pure_ok h
      obtain ⟨bound, t, hbound, ht, hdb⟩ := runDelete_ok hdelete
      rw [hdb, hdb₂, hdb₁]
      rw [hdb₂, hdb₁] at ht
      exact .delete hbound ht (hallowed bound t hbound ht) (hreads bound t hbound (hdb₁ ▸ ht))
        hexisting hnoted

end

/-! ### Tables keep their declaration -/

def Table.SameShape (t t' : Table) : Prop := t'.key = t.key ∧ t'.fields = t.fields

theorem Table.insert_ok {t t' : Table} {engine : Engine} {columns : List String}
    {params : List SqlValue} {row : Row} (h : t.insert engine columns params = .ok (row, t')) :
    ∃ cols, columns.mapM t.resolve = some cols ∧
      t.insertKey engine (cols.zip params) = .ok row.key ∧
      row.cells = t.insertCells engine (cols.zip params) ∧ t.has row.key = false ∧
      t'.rows = insertRow row t.rows ∧ t'.seq = max t.seq row.key ∧ t.SameShape t' := by
  obtain ⟨cols, hcols, h⟩ := bind_eq_ok.mp h
  obtain ⟨key, hkey, h⟩ := bind_eq_ok.mp h
  dsimp only at h
  split at h
  · cases h
  · split_ifs at h with hfree
    cases h
    exact ⟨cols, Table.resolveAll_ok hcols, hkey, rfl, hfree, rfl, rfl, rfl, rfl⟩

theorem Table.updateRow_ok {t : Table} {engine : Engine} {given : List (Column × SqlValue)}
    {row row' : Row} (h : t.updateRow engine given row = .ok row') :
    Table.updateKey engine given row = .ok row'.key ∧
      row'.cells = t.updateCells engine given row := by
  obtain ⟨key, hkey, h⟩ := bind_eq_ok.mp h
  dsimp only at h
  split at h
  · cases h
  · cases h
    exact ⟨hkey, rfl⟩

theorem Table.update_ok {t t' : Table} {engine : Engine} {columns : List String}
    {params : List SqlValue} {bound : SqlValue} (h : t.update engine columns params bound = .ok t') :
    ∃ cols, columns.mapM t.resolve = some cols ∧ t.SameShape t' ∧ t'.seq = t.seq ∧
      match t.at engine bound with
      | none => t'.rows = t.rows
      | some row => ∃ row', t.updateRow engine (cols.zip params) row = .ok row' ∧
          (t.remove row.key).has row'.key = false ∧
          t'.rows = insertRow row' (t.remove row.key).rows := by
  obtain ⟨cols, hcols, h⟩ := bind_eq_ok.mp h
  refine ⟨cols, Table.resolveAll_ok hcols, ?_⟩
  unfold Table.at
  cases hrow : (engine.rowid bound).bind t.row? with
  | none =>
      rw [hrow] at h
      cases h
      exact ⟨⟨rfl, rfl⟩, rfl, rfl⟩
  | some row =>
      rw [hrow] at h
      obtain ⟨row', hrow', h⟩ := bind_eq_ok.mp h
      split_ifs at h with hfree
      cases h
      exact ⟨⟨rfl, rfl⟩, rfl, row', hrow', hfree, rfl⟩

theorem Db.table_appended (db : Db) (slot : ForgeCollection) (principal : Option PrincipalId)
    (t : Table) (key : ℤ) (name : String) : (db.appended slot principal t key).table name =
      if foldName name = foldName slot.table then some t else db.table name := by
  rw [← Db.table_setTable]
  unfold Db.appended
  split <;> rfl

theorem Db.table_deleted (db : Db) (engine : Engine) (slot : ForgeCollection) (t : Table)
    (bound : SqlValue) (name : String) : (db.deleted engine slot t bound).table name =
      if foldName name = foldName slot.table then some (t.delete engine bound)
      else db.table name := by
  rw [← Db.table_setTable]
  unfold Db.deleted Table.delete
  cases engine.rowid bound <;> rfl

theorem Performed.tables {substrate : Substrate} {slot : ForgeCollection}
    {principal : Option PrincipalId} {touched touched' : List Touched} {db db' : Db}
    {write : ForgeWrite} (h : Performed substrate slot principal touched db write touched' db') :
    ∃ t t', db.table slot.table = some t ∧ t.SameShape t' ∧ ∀ name, db'.table name =
      if foldName name = foldName slot.table then some t' else db.table name := by
  cases h with
  | append _ _ _ _ ht hinsert =>
      obtain ⟨_, _, _, _, _, _, _, hshape⟩ := Table.insert_ok hinsert
      exact ⟨_, _, ht, hshape, Db.table_appended _ _ _ _ _⟩
  | update _ ht _ _ _ _ _ _ _ hupdate =>
      obtain ⟨_, _, hshape, _⟩ := Table.update_ok hupdate
      exact ⟨_, _, ht, hshape, fun name => Db.table_setTable _ _ name _⟩
  | delete _ ht _ _ _ _ =>
      refine ⟨_, _, ht, ?_, Db.table_deleted _ _ _ _ _⟩
      unfold Table.delete
      split <;> exact ⟨rfl, rfl⟩

theorem Performed.deployed {substrate : Substrate} {slot : ForgeCollection}
    {principal : Option PrincipalId} {touched touched' : List Touched} {db db' : Db}
    {write : ForgeWrite} {schema : ForgeSchema} (hd : schema.Deployed db)
    (h : Performed substrate slot principal touched db write touched' db') :
    schema.Deployed db' := by
  obtain ⟨t, t', ht, hshape, htables⟩ := h.tables
  intro c hc
  obtain ⟨t₀, ht₀, hkey, hfields⟩ := hd c hc
  unfold ForgeCollection.DeployedIn
  rw [htables]
  by_cases hname : foldName c.table = foldName slot.table
  · rw [if_pos hname]
    have hsame : db.table c.table = db.table slot.table := by simp [Db.table, hname]
    obtain rfl := Option.some.inj (ht₀.symm.trans (hsame.trans ht))
    exact ⟨t', rfl, hshape.1.trans hkey, hshape.2.trans hfields⟩
  · rw [if_neg hname]
    exact ⟨t₀, ht₀, hkey, hfields⟩

/-! ### Runs -/

/-- One write of a run: the collection it was made through, and the database it found. -/
structure Step where
  slot : ForgeCollection
  before : Db
  write : ForgeWrite

def stepsOf (substrate : Substrate) (principal : Option PrincipalId)
    (slots : List ForgeCollection) : List Touched → List ForgeWrite → Tx → List Step
  | _, [], _ => []
  | touched, write :: writes, tx =>
      match slots.find? fun slot => slot.topic = write.collection with
      | none => []
      | some slot =>
          ⟨slot, tx.db, write⟩ :: match runWrite substrate slot principal touched write tx with
            | .ok (touched, tx) => stepsOf substrate principal slots touched writes tx
            | .error _ => []

def committedSteps (substrate : Substrate) (schema : ForgeSchema) (writes : List ForgeWrite)
    (principal : Option PrincipalId) (db : Db) : List Step :=
  match commitWrites substrate schema writes principal db, resolveSlots schema [] writes with
  | .ok _, .ok slots => stepsOf substrate principal slots [] writes ⟨db, 0, 0⟩
  | _, _ => []

/-- The steps were performed in order, each on the database the one before left. -/
inductive Ran (substrate : Substrate) (schema : ForgeSchema) (principal : Option PrincipalId) :
    List Touched → Db → List Step → List Touched → Db → Prop
  | nil {touched : List Touched} {db : Db} :
      Ran substrate schema principal touched db [] touched db
  | cons {touched touched' touched'' : List Touched} {db db' db'' : Db} {slot : ForgeCollection}
      {write : ForgeWrite} {steps : List Step} :
      slot ∈ schema.collections → slot.topic = write.collection →
      Performed substrate slot principal touched db write touched' db' →
      Ran substrate schema principal touched' db' steps touched'' db'' →
      Ran substrate schema principal touched db (⟨slot, db, write⟩ :: steps) touched'' db''

theorem Ran.deployed {substrate : Substrate} {schema : ForgeSchema}
    {principal : Option PrincipalId} {touched touched' : List Touched} {db db' : Db}
    {steps : List Step} (h : Ran substrate schema principal touched db steps touched' db')
    (hd : schema.Deployed db) : schema.Deployed db' := by
  induction h with
  | nil => exact hd
  | cons _ _ hperformed _ ih => exact ih (hperformed.deployed hd)

theorem resolveSlots_mem {schema : ForgeSchema} {slots slots' : List ForgeCollection}
    {writes : List ForgeWrite} (h : resolveSlots schema slots writes = .ok slots')
    (hslots : ∀ slot ∈ slots, slot ∈ schema.collections) :
    ∀ slot ∈ slots', slot ∈ schema.collections := by
  induction writes generalizing slots with
  | nil =>
      obtain rfl := Except.ok.inj h
      exact hslots
  | cons write writes ih =>
      unfold resolveSlots at h
      cases hslot : schema.slotForTopic write.collection with
      | none => simp [hslot] at h
      | some slot =>
          simp only [hslot] at h
          split_ifs at h
          · exact ih h hslots
          · refine ih h fun s hs => ?_
            rcases List.mem_append.mp hs with hs | hs
            · exact hslots s hs
            · exact List.mem_singleton.mp hs ▸ ForgeSchema.slotForTopic_mem hslot

theorem runWrites_ran {substrate : Substrate} {schema : ForgeSchema}
    {principal : Option PrincipalId} {slots : List ForgeCollection}
    (hslots : ∀ slot ∈ slots, slot ∈ schema.collections) {touched touched' : List Touched}
    {writes : List ForgeWrite} {tx tx' : Tx} (hd : schema.Deployed tx.db)
    (h : runWrites substrate principal slots touched writes tx = .ok (touched', tx')) :
    (stepsOf substrate principal slots touched writes tx).map Step.write = writes ∧
      Ran substrate schema principal touched tx.db
        (stepsOf substrate principal slots touched writes tx) touched' tx'.db := by
  induction writes generalizing touched tx with
  | nil =>
      obtain ⟨rfl, rfl⟩ := TxM.pure_ok h
      exact ⟨rfl, .nil⟩
  | cons write writes ih =>
      unfold runWrites at h
      unfold stepsOf
      cases hslot : slots.find? fun slot => slot.topic = write.collection with
      | none =>
          rw [hslot] at h
          cases h
      | some slot =>
          rw [hslot] at h
          have hmem := hslots slot (List.mem_of_find?_eq_some hslot)
          have htopic : slot.topic = write.collection := by
            simpa using List.find?_some hslot
          obtain ⟨noted, mid, hwrite, h⟩ := TxM.bind_ok h
          have hperformed := runWrite_performed (hd slot hmem) hwrite
          obtain ⟨hwrites, hran⟩ := ih (hperformed.deployed hd) h
          simp only [hwrite, List.map_cons, hwrites, true_and]
          exact .cons hmem htopic hperformed hran

theorem commitWrites_ran {substrate : Substrate} {schema : ForgeSchema}
    {principal : Option PrincipalId} {writes : List ForgeWrite} {db db' : Db}
    {touched : List Touched} (hd : schema.Deployed db)
    (h : commitWrites substrate schema writes principal db = .ok (touched, db')) :
    (committedSteps substrate schema writes principal db).map Step.write = writes ∧
      Ran substrate schema principal [] db
        (committedSteps substrate schema writes principal db) touched db' := by
  unfold committedSteps
  rw [h]
  unfold commitWrites at h
  split at h
  · cases h
  · rename_i tx htransact
    split at h
    · cases h
    · cases h
      unfold transact at htransact
      cases hslots : resolveSlots schema [] writes with
      | error err => simp [hslots] at htransact
      | ok slots =>
          simp only [hslots] at htransact
          split at htransact
          · cases htransact
          · exact runWrites_ran (resolveSlots_mem hslots (by simp)) hd htransact

theorem applyWrites_db (substrate : Substrate) (wire : Wire) (schema : ForgeSchema)
    (writes : List ForgeWrite) (projector : Option RowProjector) (principal : Option PrincipalId)
    (world : World) :
    (applyWrites substrate wire schema writes projector principal world).world.db = world.db ∧
        committedSteps substrate schema writes principal world.db = [] ∨
      ∃ touched db', commitWrites substrate schema writes principal world.db = .ok (touched, db') ∧
        (applyWrites substrate wire schema writes projector principal world).world.db = db' := by
  unfold applyWrites
  split_ifs with hwrites
  · subst hwrites
    refine Or.inl ⟨rfl, ?_⟩
    unfold committedSteps
    split <;> rfl
  · cases hcommit : commitWrites substrate schema writes principal world.db with
    | error failure =>
        refine Or.inl ⟨rfl, ?_⟩
        unfold committedSteps
        rw [hcommit]
    | ok committed =>
        refine Or.inr ⟨committed.1, committed.2, rfl, ?_⟩
        dsimp only
        split <;> rfl

/-! ### The touched channels -/

theorem noteTouched_ok {touched noted : List Touched} {slot : ForgeCollection}
    {partition : Option String} (h : noteTouched touched slot partition = .ok noted) :
    noted = touched ∨ ∃ channel, channelOf slot partition = .ok (some channel) ∧
      channel ∉ touched.map Touched.channel ∧
      noted = touched ++ [⟨slot, partition, channel, [], false⟩] := by
  unfold noteTouched at h
  cases hchannel : channelOf slot partition with
  | error err => rw [hchannel] at h; cases h
  | ok channel =>
      rw [hchannel] at h
      cases channel with
      | none => exact Or.inl (Except.ok.inj h).symm
      | some channel =>
          obtain rfl := Except.ok.inj h
          simp only [addTouched]
          split_ifs with hknown
          · exact Or.inl rfl
          · refine Or.inr ⟨channel, rfl, fun hmem => hknown ?_, rfl⟩
            obtain ⟨known, hknown, hsame⟩ := List.mem_map.mp hmem
            exact List.any_eq_true.mpr ⟨known, hknown, by simpa using hsame⟩

theorem noteResolved_induction {slot : ForgeCollection} (I : List Touched → Prop)
    {resolved : List (Option String)}
    (hstep : ∀ touched partition channel, partition ∈ resolved → I touched →
      channelOf slot partition = .ok (some channel) → channel ∉ touched.map Touched.channel →
      I (touched ++ [⟨slot, partition, channel, [], false⟩]))
    {touched noted : List Touched} (h : noteResolved slot touched resolved = .ok noted)
    (hstart : I touched) : I noted := by
  induction resolved generalizing touched with
  | nil =>
      obtain rfl := Except.ok.inj h
      exact hstart
  | cons partition resolved ih =>
      obtain ⟨middle, hmiddle, hrest⟩ := bind_eq_ok.mp h
      refine ih (fun t p c hp => hstep t p c (by simp [hp])) hrest ?_
      rcases noteTouched_ok hmiddle with rfl | ⟨channel, hchannel, hfresh, rfl⟩
      · exact hstart
      · exact hstep touched partition channel (by simp) hstart hchannel hfresh

theorem recordOutcome_channels (touched : List Touched) (slot : ForgeCollection)
    (outcome : Option Value) :
    (recordOutcome touched slot outcome).map Touched.channel = touched.map Touched.channel := by
  unfold recordOutcome
  rw [List.map_map]
  apply List.map_congr_left
  intro t _
  simp only [Function.comp_apply]
  split_ifs
  · cases outcome <;> rfl
  · rfl

theorem Performed.channels_nodup {substrate : Substrate} {slot : ForgeCollection}
    {principal : Option PrincipalId} {touched touched' : List Touched} {db db' : Db}
    {write : ForgeWrite} (h : Performed substrate slot principal touched db write touched' db')
    (hn : (touched.map Touched.channel).Nodup) : (touched'.map Touched.channel).Nodup := by
  have hnoted : ∀ {resolved noted}, noteResolved slot touched resolved = .ok noted →
      (noted.map Touched.channel).Nodup := fun hnoted =>
    noteResolved_induction (fun l => (l.map Touched.channel).Nodup)
      (fun l partition channel _ hl _ hfresh => by
        rw [List.map_append]
        exact List.nodup_append.mpr ⟨hl, by simp, by
          intro a ha b hb
          obtain rfl := List.mem_singleton.mp hb
          exact fun hab => hfresh (hab ▸ ha)⟩) hnoted hn
  cases h with
  | append _ _ h _ _ _ => rw [recordOutcome_channels]; exact hnoted h
  | update _ _ _ _ _ _ _ h _ _ => rw [recordOutcome_channels]; exact hnoted h
  | delete _ _ _ _ _ h => rw [recordOutcome_channels]; exact hnoted h

theorem Ran.channels_nodup {substrate : Substrate} {schema : ForgeSchema}
    {principal : Option PrincipalId} {touched touched' : List Touched} {db db' : Db}
    {steps : List Step} (h : Ran substrate schema principal touched db steps touched' db')
    (hn : (touched.map Touched.channel).Nodup) : (touched'.map Touched.channel).Nodup := by
  induction h with
  | nil => exact hn
  | cons _ _ hperformed _ ih => exact ih (hperformed.channels_nodup hn)

@[simp] theorem Touched.record_slot (t : Touched) (outcome : Option Value) :
    (t.record outcome).slot = t.slot := by
  cases outcome <;> rfl

theorem recordOutcome_forall {P : Touched → Prop} {touched : List Touched} {slot : ForgeCollection}
    {outcome : Option Value} (h : ∀ t ∈ touched, P t)
    (hrecord : ∀ t, P t → P (t.record outcome)) : ∀ t ∈ recordOutcome touched slot outcome, P t := by
  unfold recordOutcome
  refine List.forall_mem_map.mpr fun t ht => ?_
  split_ifs
  · exact hrecord t (h t ht)
  · exact h t ht

theorem Performed.slots {substrate : Substrate} {slot : ForgeCollection}
    {principal : Option PrincipalId} {touched touched' : List Touched} {db db' : Db}
    {write : ForgeWrite} (h : Performed substrate slot principal touched db write touched' db')
    {P : ForgeCollection → Prop} (hslots : ∀ t ∈ touched, P t.slot) (hslot : P slot) :
    ∀ t ∈ touched', P t.slot := by
  have hnoted : ∀ {resolved noted}, noteResolved slot touched resolved = .ok noted →
      ∀ t ∈ noted, P t.slot := fun hnoted =>
    noteResolved_induction (fun l => ∀ t ∈ l, P t.slot)
      (fun l partition channel _ hl _ _ => by
        rw [List.forall_mem_append, List.forall_mem_singleton]
        exact ⟨hl, hslot⟩) hnoted hslots
  have hrecord : ∀ (outcome : Option Value) (t : Touched),
      P t.slot → P (t.record outcome).slot := by
    intro outcome t ht
    rwa [Touched.record_slot]
  cases h with
  | append _ _ h _ _ _ => exact recordOutcome_forall (hnoted h) (hrecord _)
  | update _ _ _ _ _ _ _ h _ _ => exact recordOutcome_forall (hnoted h) (hrecord _)
  | delete _ _ _ _ _ h => exact recordOutcome_forall (hnoted h) (hrecord _)

theorem Ran.slots {substrate : Substrate} {schema : ForgeSchema}
    {principal : Option PrincipalId} {touched touched' : List Touched} {db db' : Db}
    {steps : List Step} (h : Ran substrate schema principal touched db steps touched' db')
    (hslots : ∀ t ∈ touched, t.slot ∈ schema.collections) :
    ∀ t ∈ touched', t.slot ∈ schema.collections := by
  induction h with
  | nil => exact hslots
  | cons hmem _ hperformed _ ih => exact ih (hperformed.slots hslots hmem)

end Albedo.Forge
