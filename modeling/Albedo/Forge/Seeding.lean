import Albedo.Forge.Bootstrap

/-!
# Seeding an empty table

A row that names columns of a table as the table has them is inserted where it gives a value to each
required column and a row id that is free. What a run of such rows needs is said of the rows alone.
-/
namespace Albedo.Forge
open Json Fallible KeyedList

def Table.columns (t : Table) : List String := t.key :: t.fields.map Prod.fst

def Table.column (t : Table) (name : String) : Column := if name = t.key then .key else .field name

section Columns

variable {t : Table} {missing : String → String} {names : List String} {name : String}

theorem Table.resolve_column (h : name ∈ t.columns) : t.resolve name = some (t.column name) := by
  unfold column
  split_ifs with hkey
  · rw [hkey, t.resolve_key]
  · rcases List.mem_cons.mp h with heq | hfield
    · exact absurd heq hkey
    · exact Table.resolve_field hfield

theorem Table.column_injective (t : Table) : Function.Injective t.column := by
  intro a b h
  unfold column at h
  split_ifs at h with ha hb
  · rw [ha, hb]
  · exact Column.field.inj h

theorem Table.nameOf_column (t : Table) (name : String) : t.nameOf (t.column name) = name := by
  unfold column
  split_ifs with hkey
  · exact hkey.symm
  · rfl

theorem Table.resolveAll_columns (h : ∀ name ∈ names, name ∈ t.columns) :
    t.resolveAll missing names = .ok (names.map t.column) := by
  induction names with
  | nil => rfl
  | cons name names ih =>
      obtain ⟨hname, hnames⟩ := List.forall_mem_cons.mp h
      rw [Table.resolveAll, Table.resolve_column hname, ih hnames]
      rfl

end Columns

theorem lookup_zip_map {α β γ : Type} [DecidableEq α] [DecidableEq β] {f : α → β}
    (hf : Function.Injective f) (a : α) (xs : List α) (ys : List γ) :
    ((xs.map f).zip ys).lookup (f a) = (xs.zip ys).lookup a := by
  induction xs generalizing ys with
  | nil => rfl
  | cons x xs ih =>
      cases ys with
      | nil => rfl
      | cons y ys =>
          rw [List.map_cons, List.zip_cons_cons, List.zip_cons_cons, List.lookup_cons,
            List.lookup_cons, ih]
          by_cases ha : a = x
          · simp [ha]
          · have hfa : f a ≠ f x := fun h => ha (hf h)
            simp [beq_false_of_ne ha, beq_false_of_ne hfa]

theorem lookup_reverse {κ α : Type} [DecidableEq κ] {l : List (κ × α)} (hl : (keys l).Nodup)
    (k : κ) : l.reverse.lookup k = l.lookup k := by
  have hreverse : (keys l.reverse).Nodup := by
    rw [keys, List.map_reverse]
    exact List.nodup_reverse.mpr hl
  refine Option.ext fun v => ?_
  rw [lookup_eq_some_iff hreverse, lookup_eq_some_iff hl, List.mem_reverse]

/-! ### One row -/

def SeedRow.cells (row : SeedRow) : List (String × SqlValue) := row.columns.zip row.params

structure SeedRow.Formed (row : SeedRow) : Prop where
  nodup : row.columns.Nodup
  length_eq : row.params.length = row.columns.length

/-- The row id of a row: the next one, or the one it gives. -/
def seedKey (engine : Engine) (seq : ℤ) (cell : Option SqlValue) : Option ℤ :=
  match cell with
  | none | some .null => if seq + 1 < i64Bound then some (seq + 1) else none
  | some v => engine.rowid v

def Table.Required (t : Table) (row : SeedRow) : Prop :=
  ∀ f ∈ t.fields, f.2.nullable = false → ∃ v, row.cells.lookup f.1 = some v ∧ v ≠ .null

structure Table.Holds (t : Table) (seq : ℤ) (used : List ℤ) : Prop where
  seq_eq : t.seq = seq
  le_seq : ∀ r ∈ t.rows, r.key ≤ seq
  used_iff : ∀ key, t.has key = true ↔ key ∈ used

section Insert

variable {sqlite : Sqlite} {t : Table} {row : SeedRow} {seq : ℤ} {used : List ℤ}

theorem foldl_max_eq {rows : List Row} (h : ∀ r ∈ rows, r.key ≤ seq) :
    rows.foldl (fun m r => max m r.key) seq = seq := by
  induction rows with
  | nil => rfl
  | cons r rows ih =>
      obtain ⟨hr, hrows⟩ := List.forall_mem_cons.mp h
      rw [List.foldl_cons, max_eq_left hr, ih hrows]

theorem Table.Holds.nextKey_eq (h : t.Holds seq used) : t.nextKey = seq + 1 := by
  rw [Table.nextKey, h.seq_eq, foldl_max_eq h.le_seq]

def Table.given (t : Table) (row : SeedRow) : List (Column × SqlValue) :=
  (row.columns.map t.column).zip row.params

theorem Table.lookup_given (t : Table) (row : SeedRow) (name : String) :
    (t.given row).lookup (t.column name) = row.cells.lookup name :=
  lookup_zip_map t.column_injective name row.columns row.params

theorem Table.lookup_given_key (t : Table) (row : SeedRow) (hrow : row.Formed) :
    (t.given row).reverse.lookup .key = row.cells.lookup t.key := by
  have hkeys : keys (t.given row) = row.columns.map t.column := by
    refine List.map_fst_zip ?_
    rw [List.length_map, hrow.length_eq]
  have hkey : t.column t.key = .key := if_pos rfl
  rw [lookup_reverse (hkeys ▸ hrow.nodup.map t.column_injective), ← hkey, t.lookup_given row]

theorem Table.lookup_given_field {f : String × FieldSpec} (hf : f ∈ t.fields) :
    (t.given row).lookup (.field f.1) = row.cells.lookup f.1 := by
  have hne : f.1 ≠ t.key := by
    intro heq
    have hnames := t.names
    rw [List.map_cons, List.nodup_cons] at hnames
    exact hnames.1 (heq ▸ List.mem_map_of_mem (List.mem_map_of_mem hf))
  have hfield : t.column f.1 = .field f.1 := if_neg hne
  rw [← hfield, t.lookup_given row]

theorem Table.insertKey_iff (h : t.Holds seq used) (hrow : row.Formed) (k : ℤ) :
    t.insertKey sqlite.toEngine (t.given row) = .ok k ↔
      seedKey sqlite.toEngine seq (row.cells.lookup t.key) = some k := by
  unfold insertKey seedKey
  rw [t.lookup_given_key row hrow, h.nextKey_eq]
  cases row.cells.lookup t.key with
  | none =>
      dsimp only
      split_ifs <;> simp
  | some v =>
      cases v with
      | null =>
          dsimp only
          split_ifs <;> simp
      | _ =>
          dsimp only
          split <;> simp_all

variable (sqlite) in
theorem Table.nullViolation_eq_none (hfields : (keys t.fields).Nodup) :
    t.nullViolation (t.insertCells sqlite.toEngine (t.given row)) = none ↔ t.Required row := by
  have hcell : ∀ f ∈ t.fields, t.insertCells sqlite.toEngine (t.given row) f.1 =
      sqlite.store f.2.ty ((row.cells.lookup f.1).getD .null) := by
    intro f hf
    rw [insertCells, lookup_of_mem hfields hf, t.lookup_given_field hf]
  rw [nullViolation, Option.map_eq_none_iff, List.find?_eq_none]
  refine forall₂_congr fun f hf => ?_
  rw [hcell f hf]
  cases hnull : f.2.nullable with
  | true => simp
  | false =>
      simp only [Bool.not_false, Bool.true_and, decide_eq_true_eq, forall_true_left]
      cases hlookup : row.cells.lookup f.1 with
      | none => simp [sqlite.store_null]
      | some v =>
          rw [Option.getD_some]
          constructor
          · intro hstored
            refine ⟨v, rfl, ?_⟩
            rintro rfl
            exact hstored (sqlite.store_null f.2.ty)
          · rintro ⟨w, hw, hne⟩
            exact sqlite.store_ne_null f.2.ty v (Option.some.inj hw ▸ hne)

variable (sqlite) in
theorem Table.insert_iff (h : t.Holds seq used) (hfields : (keys t.fields).Nodup)
    (hrow : row.Formed) (hcolumns : ∀ name ∈ row.columns, name ∈ t.columns) :
    (∃ p, t.insert sqlite.toEngine row.columns row.params = .ok p) ↔
      t.Required row ∧
        ∃ k, seedKey sqlite.toEngine seq (row.cells.lookup t.key) = some k ∧ k ∉ used := by
  rw [← Table.nullViolation_eq_none sqlite hfields]
  constructor
  · rintro ⟨p, hp⟩
    obtain ⟨cols, hcols, hp⟩ := bind_eq_ok.mp hp
    rw [Table.resolveAll_columns hcolumns] at hcols
    obtain rfl := Except.ok.inj hcols
    obtain ⟨k, hk, hp⟩ := bind_eq_ok.mp hp
    dsimp only at hp
    split at hp
    · cases hp
    next hnone =>
      split_ifs at hp with hfree
      refine ⟨hnone, k, (Table.insertKey_iff h hrow k).mp hk, fun hused => ?_⟩
      rw [(h.used_iff k).mpr hused] at hfree
      cases hfree
  · rintro ⟨hnone, k, hk, hused⟩
    have hfree : t.has k = false := by
      rw [Bool.eq_false_iff]
      exact fun hhas => hused ((h.used_iff k).mp hhas)
    have hkey : t.insertKey sqlite.toEngine (t.given row) = .ok k :=
      (Table.insertKey_iff h hrow k).mpr hk
    let stored : Row := ⟨k, t.insertCells sqlite.toEngine (t.given row)⟩
    refine ⟨(stored, { t.put stored hfree with seq := max t.seq k }), ?_⟩
    refine bind_eq_ok.mpr ⟨_, Table.resolveAll_columns hcolumns, bind_eq_ok.mpr ⟨k, hkey, ?_⟩⟩
    dsimp only
    split
    next column hsome =>
      exact absurd (hnone.symm.trans hsome) (by simp)
    next => exact dif_pos hfree

theorem Table.Holds.insert (h : t.Holds seq used) (hrow : row.Formed)
    (hcolumns : ∀ name ∈ row.columns, name ∈ t.columns) {r : Row} {t' : Table}
    (hinsert : t.insert sqlite.toEngine row.columns row.params = .ok (r, t')) :
    ∃ k, seedKey sqlite.toEngine seq (row.cells.lookup t.key) = some k ∧
      t'.Holds (max seq k) (k :: used) ∧ t.SameShape t' ∧ t'.rows ≠ [] := by
  obtain ⟨cols, hcols, hkey, -, -, hrows, hseq, hshape⟩ := Table.insert_ok hinsert
  have hown : t.resolveAll id row.columns = .ok (row.columns.map t.column) :=
    Table.resolveAll_columns hcolumns
  have hresolved := Table.resolveAll_ok hown
  rw [hresolved] at hcols
  obtain rfl := Option.some.inj hcols
  refine ⟨r.key, (Table.insertKey_iff h hrow r.key).mp hkey, ?_, hshape, ?_⟩
  · constructor
    · rw [hseq, h.seq_eq]
    · intro r' hr'
      rw [hrows] at hr'
      rcases mem_insertRow.mp hr' with rfl | hr'
      · exact le_max_right _ _
      · exact le_trans (h.le_seq r' hr') (le_max_left _ _)
    · intro key
      rw [List.mem_cons, ← h.used_iff, Table.has_iff, Table.has_iff, hrows]
      constructor
      · rintro ⟨r', hr', rfl⟩
        exact (mem_insertRow.mp hr').imp (congrArg Row.key) fun hold => ⟨r', hold, rfl⟩
      · rintro (rfl | ⟨r', hr', rfl⟩)
        · exact ⟨r, mem_insertRow.mpr (Or.inl rfl), rfl⟩
        · exact ⟨r', mem_insertRow.mpr (Or.inr hr'), rfl⟩
  · intro hempty
    rw [hrows] at hempty
    exact absurd (mem_insertRow.mpr (Or.inl rfl)) (hempty ▸ List.not_mem_nil)

end Insert

/-! ### A run of rows -/

/-- The row ids of a run are free, one after the other. -/
def SeedKeys (engine : Engine) (seq : ℤ) (used : List ℤ) : List (Option SqlValue) → Prop
  | [] => True
  | cell :: cells =>
      ∃ k, seedKey engine seq cell = some k ∧ k ∉ used ∧
        SeedKeys engine (max seq k) (k :: used) cells

structure Store.Frame (table : String) (s s' : Store) : Prop where
  indexes_eq : s'.indexes = s.indexes
  others : ∀ name, foldName name ≠ foldName table → s'.db.table name = s.db.table name

theorem Store.Frame.refl (table : String) (s : Store) : s.Frame table s :=
  ⟨rfl, fun _ _ => rfl⟩

section Runs

variable {sqlite : Sqlite} {s s' : Store} {table : String} {t : Table} {seq : ℤ} {used : List ℤ}
variable {rows : List SeedRow}

theorem Store.insert_iff {row : SeedRow} (ht : s.db.table table = some t) :
    s.insert sqlite table row = .ok s' ↔ ∃ r t',
      t.insert sqlite.toEngine row.columns row.params = .ok (r, t') ∧
        s' = { s with db := s.db.setTable table t' } := by
  have hnamed : s.db.named table = .ok t := by
    rw [Db.named, ht]
  constructor
  · intro h
    obtain ⟨t₀, ht₀, h⟩ := bind_eq_ok.mp h
    obtain rfl := Except.ok.inj (hnamed.symm.trans ht₀)
    obtain ⟨⟨r, t'⟩, hinsert, h⟩ := bind_eq_ok.mp h
    exact ⟨r, t', hinsert, (Except.pure_ok h).symm⟩
  · rintro ⟨r, t', hinsert, rfl⟩
    exact bind_eq_ok.mpr ⟨t, hnamed, bind_eq_ok.mpr ⟨(r, t'), hinsert, rfl⟩⟩

theorem Store.Frame.setTable {s₁ : Store} {t' : Table}
    (h : Store.Frame table { s with db := s.db.setTable table t' } s₁) : s.Frame table s₁ where
  indexes_eq := h.indexes_eq
  others name hname := by
    rw [h.others name hname, Db.table_setTable, if_neg hname]

variable (sqlite) in
theorem Store.seed_iff (ht : s.db.table table = some t) (hholds : t.Holds seq used)
    (hfields : (keys t.fields).Nodup) (hrows : ∀ row ∈ rows, row.Formed)
    (hcolumns : ∀ row ∈ rows, ∀ name ∈ row.columns, name ∈ t.columns) :
    (∃ s', rows.foldlM (fun s row => s.insert sqlite table row) s = .ok s') ↔
      (∀ row ∈ rows, t.Required row) ∧
        SeedKeys sqlite.toEngine seq used (rows.map fun row => row.cells.lookup t.key) := by
  induction rows generalizing s t seq used with
  | nil => exact ⟨fun _ => ⟨fun row hrow => absurd hrow List.not_mem_nil, trivial⟩, fun _ => ⟨s, rfl⟩⟩
  | cons row rows ih =>
      obtain ⟨hrow, hrest⟩ := List.forall_mem_cons.mp hrows
      obtain ⟨hnames, hlater⟩ := List.forall_mem_cons.mp hcolumns
      have hiff := Table.insert_iff sqlite hholds hfields hrow hnames
      have hnext : ∀ r t', t.insert sqlite.toEngine row.columns row.params = .ok (r, t') →
          ∃ k, seedKey sqlite.toEngine seq (row.cells.lookup t.key) = some k ∧
            ((∃ s', rows.foldlM (fun s row => s.insert sqlite table row)
              { s with db := s.db.setTable table t' } = .ok s') ↔
              (∀ row ∈ rows, t.Required row) ∧ SeedKeys sqlite.toEngine (max seq k) (k :: used)
                (rows.map fun row => row.cells.lookup t.key)) := by
        intro r t' hinsert
        obtain ⟨k, hk, hholds', ⟨hkey, hshape⟩, -⟩ := hholds.insert hrow hnames hinsert
        have ht' : ({ s with db := s.db.setTable table t' } : Store).db.table table = some t' := by
          rw [Db.table_setTable, if_pos rfl]
        have hcols : t'.columns = t.columns := by
          rw [Table.columns, Table.columns, hkey, hshape]
        have hstep := ih ht' hholds' (hshape ▸ hfields) hrest (hcols ▸ hlater)
        have hrequired : t'.Required = t.Required := by
          unfold Table.Required
          rw [hshape]
        rw [hrequired, hkey] at hstep
        exact ⟨k, hk, hstep⟩
      rw [List.map_cons, List.forall_mem_cons]
      constructor
      · rintro ⟨s', hs'⟩
        rw [List.foldlM_cons] at hs'
        obtain ⟨s₁, hs₁, hs'⟩ := bind_eq_ok.mp hs'
        obtain ⟨r, t', hinsert, rfl⟩ := (Store.insert_iff ht).mp hs₁
        obtain ⟨hrequired, k, hk, hfree⟩ := hiff.mp ⟨(r, t'), hinsert⟩
        obtain ⟨k', hk', hstep⟩ := hnext r t' hinsert
        obtain rfl : k = k' := Option.some.inj (hk.symm.trans hk')
        obtain ⟨hreq, hkeys⟩ := hstep.mp ⟨s', hs'⟩
        exact ⟨⟨hrequired, hreq⟩, k, hk, hfree, hkeys⟩
      · rintro ⟨⟨hrequired, hreq⟩, k, hk, hfree, hkeys⟩
        obtain ⟨⟨r, t'⟩, hinsert⟩ := hiff.mpr ⟨hrequired, k, hk, hfree⟩
        obtain ⟨k', hk', hstep⟩ := hnext r t' hinsert
        obtain rfl : k = k' := Option.some.inj (hk.symm.trans hk')
        obtain ⟨s', hs'⟩ := hstep.mpr ⟨hreq, hkeys⟩
        refine ⟨s', ?_⟩
        rw [List.foldlM_cons]
        exact bind_eq_ok.mpr ⟨_, (Store.insert_iff ht).mpr ⟨r, t', hinsert, rfl⟩, hs'⟩

theorem Store.seed_ok (ht : s.db.table table = some t)
    (h : rows.foldlM (fun s row => s.insert sqlite table row) s = .ok s') :
    s.Frame table s' ∧ ∃ t', s'.db.table table = some t' ∧ t.SameShape t' ∧
      (rows ≠ [] ∨ t.rows ≠ [] → t'.rows ≠ []) := by
  induction rows generalizing s t with
  | nil =>
      cases h
      exact ⟨Store.Frame.refl table _, t, ht, ⟨rfl, rfl⟩, fun hne => hne.resolve_left (· rfl)⟩
  | cons row rows ih =>
      rw [List.foldlM_cons] at h
      obtain ⟨s₁, hs₁, h⟩ := bind_eq_ok.mp h
      obtain ⟨r, t₁, hinsert, rfl⟩ := (Store.insert_iff ht).mp hs₁
      obtain ⟨cols, -, -, -, -, hrows, -, hshape⟩ := Table.insert_ok hinsert
      have ht₁ : ({ s with db := s.db.setTable table t₁ } : Store).db.table table = some t₁ := by
        rw [Db.table_setTable, if_pos rfl]
      obtain ⟨hframe, t', ht', hshape', hne⟩ := ih ht₁ h
      refine ⟨hframe.setTable, t', ht', ⟨hshape'.1.trans hshape.1, hshape'.2.trans hshape.2⟩, fun _ => ?_⟩
      refine hne (Or.inr fun hempty => ?_)
      rw [hrows] at hempty
      exact absurd (mem_insertRow.mpr (Or.inl rfl)) (hempty ▸ List.not_mem_nil)

end Runs

/-! ### Declared rows -/

namespace CollectionDecl

def seedCell (d : CollectionDecl) (engine : Engine) (topic : String)
    (row : OrderedMap String Value) (name : String) : Option SqlValue :=
  (row.get name).bind fun value => (d.lowerSeedCell engine topic (name, value)).toOption

def Gives (d : CollectionDecl) (row : OrderedMap String Value) : Prop :=
  ∀ f ∈ d.fields.entries, f.2.nullable = false → ∃ v, row.get f.1 = some v ∧ v ≠ .null

end CollectionDecl

section Lowered

variable {engine : Engine} {d : CollectionDecl} {topic : String} {row : OrderedMap String Value}
variable {lowered : SeedRow}

theorem seedValue_eq_null {column : String} {spec : FieldSpec} {value : Value} {bound : SqlValue}
    (h : seedValue engine topic column spec value = .ok bound) : bound = .null ↔ value = .null := by
  unfold seedValue at h
  split at h
  · split_ifs at h
    cases h
    simp
  · cases h
    simp
  · cases h
    simp
  · split at h
    · cases h
      simp
    · cases h
  · split at h
    · cases h
      simp
    · cases h
  · cases h
    simp
  · cases h

theorem lowerSeedCell_ok {cell : String × Value} {bound : SqlValue}
    (h : d.lowerSeedCell engine topic cell = .ok bound) :
    cell.1 ∈ d.fieldNames ∧ (bound = .null ↔ cell.2 = .null) := by
  unfold CollectionDecl.lowerSeedCell at h
  cases hspec : d.fields.get cell.1 with
  | none =>
      rw [hspec] at h
      cases h
  | some spec =>
      rw [hspec] at h
      exact ⟨mem_keys_of_lookup hspec, seedValue_eq_null h⟩

theorem lookup_lowered {entries : List (String × Value)} {params : List SqlValue}
    (h : List.Forall₂ (fun cell bound => d.lowerSeedCell engine topic cell = .ok bound)
      entries params) (name : String) :
    ((entries.map Prod.fst).zip params).lookup name =
      (entries.lookup name).bind fun v => (d.lowerSeedCell engine topic (name, v)).toOption := by
  induction h with
  | nil => rfl
  | @cons cell bound entries params hcell _ ih =>
      rw [List.map_cons, List.zip_cons_cons, List.lookup_cons, ih]
      by_cases hname : name = cell.1
      · subst hname
        rw [beq_self_eq_true, show (cell :: entries).lookup cell.1 = some cell.2 from
          List.lookup_cons_self, Option.bind_some, hcell]
        rfl
      · rw [beq_false_of_ne hname]
        have hlookup : (cell :: entries).lookup name = entries.lookup name := by
          rw [List.lookup_cons, beq_false_of_ne hname]
        rw [hlookup]

theorem lowerSeedRow_ok (h : d.lowerSeedRow engine topic row = .ok lowered) :
    lowered.Formed ∧ (∀ name ∈ lowered.columns, name ∈ d.fieldNames) ∧
      (∀ name, lowered.cells.lookup name = d.seedCell engine topic row name) ∧
      ∀ name, (∃ v, lowered.cells.lookup name = some v ∧ v ≠ .null) ↔
        ∃ v, row.get name = some v ∧ v ≠ .null := by
  obtain ⟨params, hparams, h⟩ := bind_eq_ok.mp h
  obtain ⟨u, -, h⟩ := bind_eq_ok.mp h
  obtain rfl := Except.pure_ok h
  have hall := mapM_eq_ok.mp hparams
  have hcells := lookup_lowered hall
  refine ⟨⟨row.sorted.nodup_keys, ?_⟩, ?_, hcells, fun name => ?_⟩
  · rw [List.length_map]
    exact hall.length_eq.symm
  · intro name hname
    obtain ⟨cell, hcell, rfl⟩ := List.mem_map.mp hname
    obtain ⟨bound, -, hbound⟩ := exists_of_mem hall.flip hcell
    exact (lowerSeedCell_ok hbound).1
  · have hbound : ∀ v, row.get name = some v →
        ∃ b, d.lowerSeedCell engine topic (name, v) = .ok b ∧ (b = .null ↔ v = .null) := by
      intro v hv
      obtain ⟨b, -, hb⟩ := exists_of_mem hall.flip (mem_of_lookup hv)
      exact ⟨b, hb, (lowerSeedCell_ok hb).2⟩
    have hlookup : (⟨row.entries.map Prod.fst, params⟩ : SeedRow).cells.lookup name =
        (row.get name).bind fun v => (d.lowerSeedCell engine topic (name, v)).toOption :=
      hcells name
    rw [hlookup]
    cases hget : row.get name with
    | none => simp
    | some v =>
        obtain ⟨b, hb, hnull⟩ := hbound v hget
        simp [hb, Except.toOption, hnull]

end Lowered

end Albedo.Forge
