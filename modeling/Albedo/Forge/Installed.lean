import Albedo.Forge.Seeding

/-!
# What a boot has put in place

After some of the declarations are installed, each table is the one its first declaration describes,
and each index the one its first declaration asked for: whoever comes second finds the name taken. A
declaration is installed exactly where the engine takes its names and its seed rows fit.
-/
namespace Albedo.Forge
open Json Fallible KeyedList

abbrev Entry := String × CollectionDecl

def tableOf (e : Entry) : String := e.2.tableName e.1

def definer (pre : List Entry) (table : String) : Option Entry :=
  pre.find? fun e => foldName (tableOf e) = foldName table

def seeder (pre : List Entry) (table : String) : Option Entry :=
  pre.find? fun e => foldName (tableOf e) = foldName table && !e.2.seed.isEmpty

def indexer (pre : List Entry) (name : String) : Option Entry :=
  pre.find? fun e => e.2.partitionBy.any fun column =>
    foldName (e.2.indexName e.1 column) = foldName name

def owner (pre : List Entry) (e : Entry) : Entry := (definer pre (tableOf e)).getD e

def indexOwner (pre : List Entry) (e : Entry) (name : String) : Entry :=
  (indexer pre name).getD e

namespace CollectionDecl

variable (d : CollectionDecl)

def resolve (name : String) : Option Column :=
  if foldName name = foldName d.keyName then some .key
  else
    match d.fields.entries.find? fun f => foldName f.1 = foldName name with
    | some f => some (.field f.1)
    | none => if isRowidAlias name then some .key else none

def resolveTerms (terms : List SortKey) : Option (List (Column × SortDir)) :=
  terms.mapM fun k => (d.resolve k.column).map fun c => (c, k.dir)

end CollectionDecl

structure Table.Of (t : Table) (d : CollectionDecl) : Prop where
  key_eq : t.key = d.keyName
  fields_eq : t.fields = d.fields.entries

structure Installs (sqlite : Sqlite) (pre : List Entry) (e : Entry) : Prop where
  table_word : sqlite.tableWord (tableOf e) = false
  column_words : ∀ name ∈ e.2.columns, sqlite.columnWord name = false
  internal : isInternal (tableOf e) = false
  /-- Nobody declared the table before: the engine creates it. -/
  fresh : definer pre (tableOf e) = none → indexer pre (tableOf e) = none ∧
    e.2.columns.length ≤ sqlite.columnLimit ∧ (e.2.columns.map foldName).Nodup
  index_words : ∀ column ∈ e.2.partitionBy, ∀ k ∈ e.2.indexTerms column,
    sqlite.columnWord k.column = false
  index_name : ∀ column ∈ e.2.partitionBy,
    definer (pre ++ [e]) (e.2.indexName e.1 column) = none
  /-- Nobody declared the index before: the engine creates it. -/
  index_fresh : ∀ column ∈ e.2.partitionBy, indexer pre (e.2.indexName e.1 column) = none →
    (e.2.indexTerms column).length ≤ sqlite.columnLimit ∧
      ∀ k ∈ e.2.indexTerms column, sqlite.clockWord k.column = false ∧
        ((owner pre e).2.resolve k.column).isSome = true
  /-- Nobody seeded the table before: the rows are inserted. -/
  seeds : e.2.seed ≠ [] → seeder pre (tableOf e) = none →
    (∀ row ∈ e.2.seed, (owner pre e).2.Gives row) ∧
      SeedKeys sqlite.toEngine 0 [] (e.2.seed.map fun row =>
        e.2.seedCell sqlite.toEngine e.1 row (owner pre e).2.keyName)

/-- The indexes that are there after some declarations: who asks for a name first has it. -/
structure Indexed (pre : List Entry) (s : Store) : Prop where
  missing : ∀ name, indexer pre name = none → s.index name = none
  index : ∀ name f, indexer pre name = some f → ∃ ix column, column ∈ f.2.partitionBy ∧
    s.index name = some ix ∧ foldName ix.table = foldName (tableOf f) ∧
      ∃ g, definer pre (tableOf f) = some g ∧
        g.2.resolveTerms (f.2.indexTerms column) = some ix.columns

structure Installed (pre : List Entry) (s : Store) : Prop where
  missing : ∀ name, definer pre name = none → s.db.table name = none
  table : ∀ name f, definer pre name = some f → ∃ t, s.db.table name = some t ∧ t.Of f.2 ∧
    (seeder pre name = none → t.Holds 0 []) ∧ (seeder pre name ≠ none → t.rows ≠ [])
  indexed : Indexed pre s

section Lookups

variable {pre : List Entry} {e f : Entry} {name name' : String}

theorem definer_congr (h : foldName name = foldName name') : definer pre name = definer pre name' := by
  unfold definer
  rw [h]

theorem seeder_congr (h : foldName name = foldName name') : seeder pre name = seeder pre name' := by
  unfold seeder
  rw [h]

theorem definer_append (pre post : List Entry) (name : String) :
    definer (pre ++ post) name = (definer pre name).or (definer post name) := List.find?_append

theorem indexer_append (pre post : List Entry) (name : String) :
    indexer (pre ++ post) name = (indexer pre name).or (indexer post name) := List.find?_append

theorem seeder_append (pre post : List Entry) (name : String) :
    seeder (pre ++ post) name = (seeder pre name).or (seeder post name) := List.find?_append

theorem definer_self (pre : List Entry) (e : Entry) :
    definer (pre ++ [e]) (tableOf e) = some (owner pre e) := by
  rw [definer_append, owner]
  cases definer pre (tableOf e) with
  | none => simp [definer]
  | some f => rfl

theorem definer_other (h : foldName (tableOf e) ≠ foldName name) :
    definer (pre ++ [e]) name = definer pre name := by
  have hnone : definer [e] name = none := by simp [definer, h]
  rw [definer_append, hnone, Option.or_none]

theorem seeder_other (h : foldName (tableOf e) ≠ foldName name) :
    seeder (pre ++ [e]) name = seeder pre name := by
  have hnone : seeder [e] name = none := by simp [seeder, h]
  rw [seeder_append, hnone, Option.or_none]

theorem seeder_unseeded (h : e.2.seed = []) (name : String) :
    seeder (pre ++ [e]) name = seeder pre name := by
  have hnone : seeder [e] name = none := by simp [seeder, h]
  rw [seeder_append, hnone, Option.or_none]

theorem seeder_self (h : e.2.seed ≠ []) : seeder (pre ++ [e]) (tableOf e) ≠ none := by
  have hsome : seeder [e] (tableOf e) = some e := by simp [seeder, h]
  rw [seeder_append, hsome]
  cases seeder pre (tableOf e) <;> simp

theorem seeder_eq_none (h : definer pre name = none) : seeder pre name = none := by
  rw [definer, List.find?_eq_none] at h
  rw [seeder, List.find?_eq_none]
  intro f hf
  have hne := h f hf
  simp only [decide_eq_true_eq] at hne
  simp [hne]

theorem indexer_self {column : String} (pre : List Entry) (hcolumn : e.2.partitionBy = some column) :
    indexer (pre ++ [e]) (e.2.indexName e.1 column) =
      some (indexOwner pre e (e.2.indexName e.1 column)) := by
  rw [indexer_append, indexOwner]
  cases indexer pre (e.2.indexName e.1 column) with
  | none => simp [indexer, hcolumn]
  | some f => rfl

theorem indexer_other (h : ∀ column ∈ e.2.partitionBy,
    foldName (e.2.indexName e.1 column) ≠ foldName name) :
    indexer (pre ++ [e]) name = indexer pre name := by
  have hnone : indexer [e] name = none := by
    rw [indexer, List.find?_cons_of_neg, List.find?_nil]
    rw [Option.any_eq_true]
    rintro ⟨column, hcolumn, heq⟩
    exact h column hcolumn (by simpa using heq)
  rw [indexer_append, hnone, Option.or_none]

theorem indexer_congr (h : foldName name = foldName name') :
    indexer pre name = indexer pre name' := by
  unfold indexer
  rw [h]

theorem indexer_only {column : String} (hcolumn : e.2.partitionBy = some column)
    (h : foldName name ≠ foldName (e.2.indexName e.1 column)) :
    indexer (pre ++ [e]) name = indexer pre name := by
  refine indexer_other fun column' hcolumn' => ?_
  obtain rfl : column = column' := Option.some.inj (hcolumn.symm.trans hcolumn')
  exact Ne.symm h

theorem Store.index_congr {s : Store} (h : foldName name = foldName name') :
    s.index name = s.index name' := by
  rw [Store.index, Store.index, h]

end Lookups

/-! ### Names of a table -/

section Names

variable {t : Table} {d : CollectionDecl}

theorem Table.Of.resolve_eq (h : t.Of d) (name : String) : t.resolve name = d.resolve name := by
  unfold Table.resolve CollectionDecl.resolve
  rw [h.key_eq, h.fields_eq] <;> rfl

theorem Table.Of.columns_eq (h : t.Of d) : t.columns = d.columns := by
  simp only [Table.columns, CollectionDecl.columns, CollectionDecl.fieldNames, h.key_eq, h.fields_eq]

theorem Table.Of.sameShape {t' : Table} (h : t.Of d) (hshape : t.SameShape t') : t'.Of d :=
  ⟨hshape.1.trans h.key_eq, hshape.2.trans h.fields_eq⟩

theorem Table.Of.resolveTerms_eq (h : t.Of d) {missing : String → String} {terms : List SortKey}
    {cols : List Column} (hcols : t.resolveAll missing (terms.map SortKey.column) = .ok cols) :
    d.resolveTerms terms = some (cols.zip (terms.map SortKey.dir)) := by
  have hmapM := Table.resolveAll_ok hcols
  clear hcols
  unfold CollectionDecl.resolveTerms
  rw [mapM_eq_some] at hmapM ⊢
  induction terms generalizing cols with
  | nil =>
      cases hmapM
      exact .nil
  | cons k terms ih =>
      rw [List.map_cons] at hmapM
      cases hmapM with
      | cons hk hterms =>
          refine .cons ?_ (ih hterms)
          rw [← h.resolve_eq, hk]
          rfl

theorem Table.resolveAll_isOk (missing : String → String) {names : List String}
    (h : ∀ name ∈ names, (t.resolve name).isSome = true) :
    ∃ cols, t.resolveAll missing names = .ok cols := by
  induction names with
  | nil => exact ⟨[], rfl⟩
  | cons name names ih =>
      obtain ⟨hname, hnames⟩ := List.forall_mem_cons.mp h
      obtain ⟨c, hc⟩ := Option.isSome_iff_exists.mp hname
      obtain ⟨cols, hcols⟩ := ih hnames
      refine ⟨c :: cols, ?_⟩
      rw [Table.resolveAll, hc, hcols]
      rfl

theorem Table.isSome_of_resolveAll {missing : String → String} {names : List String}
    {cols : List Column} (h : t.resolveAll missing names = .ok cols) :
    ∀ name ∈ names, (t.resolve name).isSome = true := by
  induction names generalizing cols with
  | nil => exact fun name hname => absurd hname List.not_mem_nil
  | cons name names ih =>
      rw [Table.resolveAll] at h
      cases hc : t.resolve name with
      | none =>
          rw [hc] at h
          cases h
      | some c =>
          rw [hc] at h
          obtain ⟨rest, hrest, -⟩ := bind_eq_ok.mp h
          exact List.forall_mem_cons.mpr ⟨by rw [hc]; rfl, ih hrest⟩

theorem Table.Holds.rows_eq_nil (h : t.Holds 0 []) : t.rows = [] := by
  rw [List.eq_nil_iff_forall_not_mem]
  intro r hr
  exact absurd ((h.used_iff r.key).mp (Table.has_iff.mpr ⟨r, hr, rfl⟩)) List.not_mem_nil

end Names

/-! ### One declaration -/

section Install

variable {sqlite : Sqlite} {pre : List Entry} {e : Entry} {s s' : Store} {table column : String}

theorem Sqlite.reads_eq_ok {columns : List String} {u : Unit} :
    sqlite.reads table columns = .ok u ↔
      sqlite.tableWord table = false ∧ ∀ name ∈ columns, sqlite.columnWord name = false := by
  unfold reads
  constructor
  · intro h
    obtain ⟨v, htable, hcolumns⟩ := bind_eq_ok.mp h
    exact ⟨demand_eq_ok.mp htable, demand_eq_ok.mp hcolumns⟩
  · rintro ⟨htable, hcolumns⟩
    exact bind_eq_ok.mpr ⟨(), demand_eq_ok.mpr htable, demand_eq_ok.mpr hcolumns⟩

/-- The table of a declaration after its `CREATE TABLE`, and nothing else changed. -/
structure Tabled (pre : List Entry) (e : Entry) (s s' : Store) : Prop where
  frame : s.Frame (tableOf e) s'
  table : ∃ t, s'.db.table (tableOf e) = some t ∧ t.Of (owner pre e).2 ∧
    (seeder pre (tableOf e) = none → t.Holds 0 []) ∧
      (seeder pre (tableOf e) ≠ none → t.rows ≠ [])

def Table.created (table key : String) (fields : List (String × FieldSpec))
    (h : ((key :: fields.map Prod.fst).map foldName).Nodup) : Table :=
  ⟨table, key, fields, [], 0, rows_nil_sorted, h⟩

theorem Table.holds_created {key : String} {fields : List (String × FieldSpec)}
    (h : ((key :: fields.map Prod.fst).map foldName).Nodup) :
    (Table.created table key fields h).Holds 0 [] where
  seq_eq := rfl
  le_seq r hr := absurd hr List.not_mem_nil
  used_iff key := by simp [Table.created, Table.has]

theorem createTable_ok (h : Installed pre s)
    (hcreate : s.createTable sqlite (tableOf e) e.2.keyName e.2.fields.entries = .ok s') :
    Tabled pre e s s' := by
  obtain ⟨u, -, hcreate⟩ := bind_eq_ok.mp hcreate
  obtain ⟨v, -, hcreate⟩ := bind_eq_ok.mp hcreate
  cases hdefiner : definer pre (tableOf e) with
  | some f =>
      obtain ⟨t, ht, hof, hempty, hseeded⟩ := h.table (tableOf e) f hdefiner
      rw [ht] at hcreate
      obtain rfl := Except.pure_ok hcreate
      refine ⟨Store.Frame.refl _ _, t, ht, ?_, hempty, hseeded⟩
      rw [owner, hdefiner]
      exact hof
  | none =>
      rw [h.missing (tableOf e) hdefiner] at hcreate
      obtain ⟨w, -, hcreate⟩ := bind_eq_ok.mp hcreate
      obtain ⟨x, -, hcreate⟩ := bind_eq_ok.mp hcreate
      split_ifs at hcreate with hnames
      obtain rfl := Except.pure_ok hcreate
      refine ⟨⟨rfl, fun name hname => ?_⟩, Table.created (tableOf e) _ _ hnames, ?_, ?_, ?_, ?_⟩
      · rw [Db.table_setTable, if_neg hname]
      · rw [Db.table_setTable, if_pos rfl]
        rfl
      · rw [owner, hdefiner]
        exact ⟨rfl, rfl⟩
      · exact fun _ => Table.holds_created hnames
      · exact fun hseeded => absurd (seeder_eq_none hdefiner) hseeded

theorem Installed.index_eq_none (h : Installed pre s) (name : String) :
    s.index name = none ↔ indexer pre name = none := by
  constructor
  · intro hnone
    cases hindexer : indexer pre name with
    | none => rfl
    | some f =>
        obtain ⟨ix, -, -, hix, -⟩ := h.indexed.index name f hindexer
        cases hnone.symm.trans hix
  · exact h.indexed.missing name

theorem Installed.table_eq_none (h : Installed pre s) (name : String) :
    s.db.table name = none ↔ definer pre name = none := by
  constructor
  · intro hnone
    cases hdefiner : definer pre name with
    | none => rfl
    | some f =>
        obtain ⟨t, ht, -⟩ := h.table name f hdefiner
        cases hnone.symm.trans ht
  · exact h.missing name

variable (sqlite e) in
theorem createTable_iff (h : Installed pre s) :
    (∃ s', s.createTable sqlite (tableOf e) e.2.keyName e.2.fields.entries = .ok s') ↔
      (sqlite.tableWord (tableOf e) = false ∧ ∀ name ∈ e.2.columns, sqlite.columnWord name = false) ∧
        isInternal (tableOf e) = false ∧
          (definer pre (tableOf e) = none → indexer pre (tableOf e) = none ∧
            e.2.columns.length ≤ sqlite.columnLimit ∧ (e.2.columns.map foldName).Nodup) := by
  constructor
  · rintro ⟨s', hcreate⟩
    obtain ⟨u, hreads, hcreate⟩ := bind_eq_ok.mp hcreate
    obtain ⟨v, hinternal, hcreate⟩ := bind_eq_ok.mp hcreate
    refine ⟨Sqlite.reads_eq_ok.mp hreads, demand_eq_ok.mp hinternal, fun hdefiner => ?_⟩
    rw [h.missing (tableOf e) hdefiner] at hcreate
    obtain ⟨w, hindex, hcreate⟩ := bind_eq_ok.mp hcreate
    obtain ⟨x, hlimit, hcreate⟩ := bind_eq_ok.mp hcreate
    split_ifs at hcreate with hnames
    exact ⟨(h.index_eq_none _).mp (demand_eq_ok.mp hindex), demand_eq_ok.mp hlimit, hnames⟩
  · rintro ⟨hreads, hinternal, hfresh⟩
    cases hdefiner : definer pre (tableOf e) with
    | some f =>
        obtain ⟨t, ht, -⟩ := h.table (tableOf e) f hdefiner
        refine exists_bind_eq_ok.mpr ⟨(), Sqlite.reads_eq_ok.mpr hreads,
          exists_bind_eq_ok.mpr ⟨(), demand_eq_ok.mpr hinternal, s, ?_⟩⟩
        rw [ht]
        rfl
    | none =>
        obtain ⟨hindexer, hlimit, hnames⟩ := hfresh hdefiner
        refine exists_bind_eq_ok.mpr ⟨(), Sqlite.reads_eq_ok.mpr hreads,
          exists_bind_eq_ok.mpr ⟨(), demand_eq_ok.mpr hinternal, ?_⟩⟩
        rw [h.missing (tableOf e) hdefiner]
        exact exists_bind_eq_ok.mpr ⟨(), demand_eq_ok.mpr ((h.index_eq_none _).mpr hindexer),
          exists_bind_eq_ok.mpr ⟨(), demand_eq_ok.mpr hlimit, _, dif_pos hnames⟩⟩

theorem Tabled.table_eq_none {s₁ : Store} (h : Installed pre s) (htabled : Tabled pre e s s₁)
    (name : String) : s₁.db.table name = none ↔ definer (pre ++ [e]) name = none := by
  by_cases hname : foldName name = foldName (tableOf e)
  · obtain ⟨t, ht, -⟩ := htabled.table
    rw [Db.table_congr _ hname, ht, definer_congr hname, definer_self]
    simp
  · rw [htabled.frame.others name hname, h.table_eq_none, definer_other (Ne.symm hname)]

theorem createIndex_ok {s₁ : Store} (h : Installed pre s) (htabled : Tabled pre e s s₁)
    (hcreate : s₁.createIndex sqlite (tableOf e) (e.2.indexName e.1 column)
      (e.2.indexTerms column) = .ok s') :
    s'.db = s₁.db ∧ (∀ name, foldName name ≠ foldName (e.2.indexName e.1 column) →
      s'.index name = s.index name) ∧
      (indexer pre (e.2.indexName e.1 column) ≠ none →
        s'.index (e.2.indexName e.1 column) = s.index (e.2.indexName e.1 column)) ∧
      (indexer pre (e.2.indexName e.1 column) = none → ∃ ix,
        s'.index (e.2.indexName e.1 column) = some ix ∧ ix.table = tableOf e ∧
          (owner pre e).2.resolveTerms (e.2.indexTerms column) = some ix.columns) := by
  have hindexes : ∀ name, s₁.index name = s.index name := fun name => by
    rw [Store.index, Store.index, htabled.frame.indexes_eq]
  obtain ⟨t, ht, hof, -⟩ := htabled.table
  obtain ⟨u, -, hcreate⟩ := bind_eq_ok.mp hcreate
  obtain ⟨t', hnamed, hcreate⟩ := bind_eq_ok.mp hcreate
  obtain rfl : t = t' := Option.some.inj (ht.symm.trans (Db.named_ok hnamed))
  obtain ⟨v, -, hcreate⟩ := bind_eq_ok.mp hcreate
  cases hindexer : indexer pre (e.2.indexName e.1 column) with
  | some f =>
      obtain ⟨ix, -, -, hix, -⟩ := h.indexed.index _ f hindexer
      rw [hindexes, hix] at hcreate
      obtain rfl := Except.pure_ok hcreate
      exact ⟨rfl, fun name _ => hindexes name, fun _ => hindexes _, fun hnone => absurd hnone (by simp)⟩
  | none =>
      rw [hindexes, h.indexed.missing _ hindexer] at hcreate
      obtain ⟨w, -, hcreate⟩ := bind_eq_ok.mp hcreate
      obtain ⟨x, -, hcreate⟩ := bind_eq_ok.mp hcreate
      obtain ⟨cols, hcols, hcreate⟩ := bind_eq_ok.mp hcreate
      obtain rfl := Except.pure_ok hcreate
      let ix : Index := ⟨e.2.indexName e.1 column, tableOf e,
        cols.zip ((e.2.indexTerms column).map SortKey.dir)⟩
      refine ⟨rfl, fun name hname => ?_, fun hsome => absurd rfl hsome, fun _ => ⟨ix, ?_, rfl, ?_⟩⟩
      · rw [← hindexes name]
        exact Function.update_of_ne hname _ _
      · exact Function.update_self _ _ _
      · exact hof.resolveTerms_eq hcols

variable (sqlite column) in
theorem createIndex_iff {s₁ : Store} (h : Installed pre s) (htabled : Tabled pre e s s₁)
    (htable : sqlite.tableWord (tableOf e) = false) :
    (∃ s', s₁.createIndex sqlite (tableOf e) (e.2.indexName e.1 column)
      (e.2.indexTerms column) = .ok s') ↔
      (∀ k ∈ e.2.indexTerms column, sqlite.columnWord k.column = false) ∧
        definer (pre ++ [e]) (e.2.indexName e.1 column) = none ∧
          (indexer pre (e.2.indexName e.1 column) = none →
            (e.2.indexTerms column).length ≤ sqlite.columnLimit ∧
              ∀ k ∈ e.2.indexTerms column, sqlite.clockWord k.column = false ∧
                ((owner pre e).2.resolve k.column).isSome = true) := by
  have hindexes : ∀ name, s₁.index name = s.index name := fun name => by
    rw [Store.index, Store.index, htabled.frame.indexes_eq]
  obtain ⟨t, ht, hof, -⟩ := htabled.table
  have hnamed : s₁.db.named (tableOf e) = .ok t := by
    rw [Db.named, ht]
  have hterms : (∀ name ∈ (e.2.indexTerms column).map SortKey.column,
      sqlite.columnWord name = false) ↔
        ∀ k ∈ e.2.indexTerms column, sqlite.columnWord k.column = false := List.forall_mem_map
  constructor
  · rintro ⟨s', hcreate⟩
    obtain ⟨u, hreads, hcreate⟩ := bind_eq_ok.mp hcreate
    obtain ⟨t', hnamed', hcreate⟩ := bind_eq_ok.mp hcreate
    obtain rfl := Except.ok.inj (hnamed.symm.trans hnamed')
    obtain ⟨v, hname, hcreate⟩ := bind_eq_ok.mp hcreate
    refine ⟨hterms.mp (Sqlite.reads_eq_ok.mp hreads).2,
      (htabled.table_eq_none h _).mp (demand_eq_ok.mp hname), fun hindexer => ?_⟩
    rw [hindexes, h.indexed.missing _ hindexer] at hcreate
    obtain ⟨w, hlimit, hcreate⟩ := bind_eq_ok.mp hcreate
    obtain ⟨x, hclock, hcreate⟩ := bind_eq_ok.mp hcreate
    obtain ⟨cols, hcols, -⟩ := bind_eq_ok.mp hcreate
    refine ⟨demand_eq_ok.mp hlimit, fun k hk => ⟨demand_eq_ok.mp hclock k hk, ?_⟩⟩
    rw [← hof.resolve_eq]
    exact Table.isSome_of_resolveAll hcols k.column (List.mem_map_of_mem hk)
  · rintro ⟨hwords, hname, hfresh⟩
    have hreads := Sqlite.reads_eq_ok (u := ()).mpr ⟨htable, hterms.mpr hwords⟩
    have hfree := (htabled.table_eq_none h _).mpr hname
    cases hindexer : indexer pre (e.2.indexName e.1 column) with
    | some f =>
        obtain ⟨ix, -, -, hix, -⟩ := h.indexed.index _ f hindexer
        refine exists_bind_eq_ok.mpr ⟨(), hreads, exists_bind_eq_ok.mpr ⟨t, hnamed,
          exists_bind_eq_ok.mpr ⟨(), demand_eq_ok.mpr hfree, s₁, ?_⟩⟩⟩
        rw [hindexes, hix]
        rfl
    | none =>
        obtain ⟨hlimit, hkeys⟩ := hfresh hindexer
        have hresolved : ∀ name ∈ (e.2.indexTerms column).map SortKey.column,
            (t.resolve name).isSome = true := by
          refine List.forall_mem_map.mpr fun k hk => ?_
          rw [hof.resolve_eq]
          exact (hkeys k hk).2
        obtain ⟨cols, hcols⟩ := Table.resolveAll_isOk
          (fun column => s!"no such column: {column}") hresolved
        refine exists_bind_eq_ok.mpr ⟨(), hreads, exists_bind_eq_ok.mpr ⟨t, hnamed,
          exists_bind_eq_ok.mpr ⟨(), demand_eq_ok.mpr hfree, ?_⟩⟩⟩
        rw [hindexes, h.indexed.missing _ hindexer]
        exact exists_bind_eq_ok.mpr ⟨(), demand_eq_ok.mpr hlimit, exists_bind_eq_ok.mpr ⟨(),
          demand_eq_ok.mpr fun k hk => (hkeys k hk).1,
          exists_bind_eq_ok.mpr ⟨cols, hcols, _, rfl⟩⟩⟩

/-! ### Its index -/

theorem Installed.index_append (h : Installed pre s) {name : String} {f : Entry}
    (hf : indexer pre name = some f) : ∃ ix column, column ∈ f.2.partitionBy ∧
      s.index name = some ix ∧ foldName ix.table = foldName (tableOf f) ∧
        ∃ g, definer (pre ++ [e]) (tableOf f) = some g ∧
          g.2.resolveTerms (f.2.indexTerms column) = some ix.columns := by
  obtain ⟨ix, column, hcolumn, hix, htable, g, hg, hterms⟩ := h.indexed.index name f hf
  refine ⟨ix, column, hcolumn, hix, htable, g, ?_, hterms⟩
  rw [definer_append, hg]
  rfl

theorem indexStep_ok {s₁ : Store} (h : Installed pre s) (htabled : Tabled pre e s s₁)
    (hstep : s₁.indexStep sqlite e.1 e.2 = .ok s') : s'.db = s₁.db ∧ Indexed (pre ++ [e]) s' := by
  have hindexes : ∀ name, s₁.index name = s.index name := fun name => by
    rw [Store.index, Store.index, htabled.frame.indexes_eq]
  unfold Store.indexStep at hstep
  cases hpartition : e.2.partitionBy with
  | none =>
      rw [hpartition] at hstep
      obtain rfl := Except.pure_ok hstep
      have hsame : ∀ name, indexer (pre ++ [e]) name = indexer pre name := fun name =>
        indexer_other fun column hcolumn => by
          rw [hpartition] at hcolumn
          cases hcolumn
      refine ⟨rfl, fun name hnone => ?_, fun name f hf => ?_⟩
      · rw [hindexes]
        exact h.indexed.missing name (hsame name ▸ hnone)
      · rw [hindexes]
        exact h.index_append (hsame name ▸ hf)
  | some column =>
      rw [hpartition] at hstep
      obtain ⟨hdb, hother, hold, hnew⟩ := createIndex_ok h htabled hstep
      refine ⟨hdb, fun name hnone => ?_, fun name f hf => ?_⟩
      all_goals by_cases hname : foldName name = foldName (e.2.indexName e.1 column)
      · have hself := indexer_self pre hpartition
        rw [indexer_congr hname] at hnone
        cases hnone.symm.trans hself
      · rw [hother name hname]
        rw [indexer_only hpartition hname] at hnone
        exact h.indexed.missing name hnone
      · rw [indexer_congr hname, indexer_self pre hpartition] at hf
        rw [Store.index_congr hname]
        cases hindexer : indexer pre (e.2.indexName e.1 column) with
        | some g =>
            rw [indexOwner, hindexer] at hf
            obtain rfl : g = f := Option.some.inj hf
            rw [hold (by simp [hindexer])]
            exact h.index_append hindexer
        | none =>
            rw [indexOwner, hindexer] at hf
            obtain rfl : e = f := Option.some.inj hf
            obtain ⟨ix, hix, htable, hterms⟩ := hnew hindexer
            exact ⟨ix, column, hpartition, hix, congrArg foldName htable, owner pre e,
              definer_self pre e, hterms⟩
      · rw [hother name hname]
        rw [indexer_only hpartition hname] at hf
        exact h.index_append hf

theorem indexStep_iff {s₁ : Store} (h : Installed pre s) (htabled : Tabled pre e s s₁)
    (htable : sqlite.tableWord (tableOf e) = false) :
    (∃ s', s₁.indexStep sqlite e.1 e.2 = .ok s') ↔ ∀ column ∈ e.2.partitionBy,
      (∀ k ∈ e.2.indexTerms column, sqlite.columnWord k.column = false) ∧
        definer (pre ++ [e]) (e.2.indexName e.1 column) = none ∧
          (indexer pre (e.2.indexName e.1 column) = none →
            (e.2.indexTerms column).length ≤ sqlite.columnLimit ∧
              ∀ k ∈ e.2.indexTerms column, sqlite.clockWord k.column = false ∧
                ((owner pre e).2.resolve k.column).isSome = true) := by
  unfold Store.indexStep
  cases hpartition : e.2.partitionBy with
  | none => exact ⟨fun _ column hcolumn => (by cases hcolumn), fun _ => ⟨s₁, rfl⟩⟩
  | some column =>
      have hiff := createIndex_iff sqlite column h htabled htable
      refine hiff.trans ⟨fun hall column' hcolumn' => ?_, fun hall => hall column rfl⟩
      obtain rfl : column = column' := Option.some.inj hcolumn'
      exact hall

/-! ### Its seed rows -/

theorem install_eq (s : Store) (d : Declared sqlite.toEngine) :
    s.install sqlite d =
      s.createTable sqlite d.table d.decl.keyName d.decl.fields.entries >>= fun s₁ =>
        s₁.indexStep sqlite d.topic d.decl >>= Store.seedStep sqlite d.table d.seed := rfl

theorem Declared.seed_forall₂ (d : Declared sqlite.toEngine) :
    List.Forall₂ (fun row lowered =>
      d.decl.lowerSeedRow sqlite.toEngine d.topic row = .ok lowered) d.decl.seed d.seed :=
  mapM_eq_ok.mp d.checked.seed_eq

theorem Declared.seed_eq_nil (d : Declared sqlite.toEngine) : d.seed = [] ↔ d.decl.seed = [] := by
  have hlength := d.seed_forall₂.length_eq
  rw [← List.length_eq_zero_iff, ← List.length_eq_zero_iff, hlength]

theorem Declared.fits_iff (d : Declared sqlite.toEngine) {o : CollectionDecl} {t : Table}
    (hof : t.Of o) :
    ((∀ row ∈ d.seed, t.Required row) ↔ ∀ row ∈ d.decl.seed, o.Gives row) ∧
      (d.seed.map fun row => row.cells.lookup t.key) =
        d.decl.seed.map fun row => d.decl.seedCell sqlite.toEngine d.topic row o.keyName := by
  have hall := d.seed_forall₂
  generalize d.decl.seed = declared, d.seed = lowered at hall
  induction hall with
  | nil => exact ⟨by simp, rfl⟩
  | @cons row low declared lowered hrow _ ih =>
      obtain ⟨-, -, hcells, hgiven⟩ := lowerSeedRow_ok hrow
      have hrequired : t.Required low ↔ o.Gives row := by
        unfold Table.Required CollectionDecl.Gives
        rw [hof.fields_eq]
        exact forall₂_congr fun f hf => imp_congr_right fun _ => hgiven f.1
      rw [List.forall_mem_cons, List.forall_mem_cons, List.map_cons, List.map_cons, hcells,
        hof.key_eq, ih.2.symm, hof.key_eq]
      exact ⟨and_congr hrequired ih.1, rfl⟩

theorem seedStep_ok {d : Declared sqlite.toEngine} {t : Table} (ht : s.db.table d.table = some t)
    (hstep : s.seedStep sqlite d.table d.seed = .ok s') :
    s.Frame d.table s' ∧ ∃ t', s'.db.table d.table = some t' ∧ t.SameShape t' ∧
      (d.seed = [] → t' = t) ∧ (d.seed ≠ [] → t'.rows ≠ []) := by
  unfold Store.seedStep at hstep
  split_ifs at hstep with hseed
  · obtain rfl := Except.pure_ok hstep
    exact ⟨Store.Frame.refl _ _, t, ht, ⟨rfl, rfl⟩, fun _ => rfl, fun hne => absurd hseed hne⟩
  · obtain ⟨t₀, ht₀, hstep⟩ := bind_eq_ok.mp hstep
    obtain rfl : t = t₀ := Option.some.inj (ht.symm.trans (Db.named_ok ht₀))
    split_ifs at hstep with hempty
    · obtain ⟨hframe, t', ht', hshape, hrows⟩ := Store.seed_ok ht hstep
      exact ⟨hframe, t', ht', hshape, fun hnil => absurd hnil hseed, fun _ => hrows (Or.inl hseed)⟩
    · obtain rfl := Except.pure_ok hstep
      exact ⟨Store.Frame.refl _ _, t, ht, ⟨rfl, rfl⟩, fun _ => rfl, fun _ => hempty⟩

theorem seedStep_iff {d : Declared sqlite.toEngine} {t : Table} {o : CollectionDecl}
    (ht : s.db.table d.table = some t) (hof : t.Of o)
    (hempty : seeder pre d.table = none → t.Holds 0 [])
    (hseeded : seeder pre d.table ≠ none → t.rows ≠ []) (hcolumns : d.decl.columns ⊆ o.columns) :
    (∃ s', s.seedStep sqlite d.table d.seed = .ok s') ↔
      (d.decl.seed ≠ [] → seeder pre d.table = none →
        (∀ row ∈ d.decl.seed, o.Gives row) ∧ SeedKeys sqlite.toEngine 0 []
          (d.decl.seed.map fun row => d.decl.seedCell sqlite.toEngine d.topic row o.keyName)) := by
  have hnamed : s.db.named d.table = .ok t := by
    rw [Db.named, ht]
  unfold Store.seedStep
  split_ifs with hseed
  · rw [d.seed_eq_nil] at hseed
    exact ⟨fun _ hne => absurd hseed hne, fun _ => ⟨s, rfl⟩⟩
  · have hdeclared : d.decl.seed ≠ [] := fun hnil => hseed (d.seed_eq_nil.mpr hnil)
    rw [exists_bind_eq_ok]
    cases hseeder : seeder pre d.table with
    | some f =>
        have hne : t.rows ≠ [] := hseeded (by simp [hseeder])
        constructor
        · intro _ _ hnone
          cases hnone
        · intro _
          refine ⟨t, hnamed, s, ?_⟩
          rw [if_neg hne]
          rfl
    | none =>
        have hholds := hempty hseeder
        obtain ⟨hrequired, hkeys⟩ := d.fits_iff hof
        have hrows : ∀ row ∈ d.seed, row.Formed ∧ ∀ name ∈ row.columns, name ∈ t.columns := by
          intro row hrow
          obtain ⟨declared, -, hlower⟩ := exists_of_mem d.seed_forall₂ hrow
          obtain ⟨hformed, hnames, -⟩ := lowerSeedRow_ok hlower
          refine ⟨hformed, fun name hname => ?_⟩
          rw [hof.columns_eq]
          exact hcolumns (List.mem_cons_of_mem _ (hnames name hname))
        have hfields : (keys t.fields).Nodup := by
          have hnames := t.names
          rw [List.map_cons, List.nodup_cons] at hnames
          exact hnames.2.of_map
        have hiff := Store.seed_iff sqlite ht hholds hfields
          (fun row hrow => (hrows row hrow).1) fun row hrow => (hrows row hrow).2
        rw [hrequired, hkeys] at hiff
        constructor
        · rintro ⟨t', ht', hrun⟩
          obtain rfl := Except.ok.inj (hnamed.symm.trans ht')
          rw [if_pos hholds.rows_eq_nil] at hrun
          exact fun _ _ => hiff.mp hrun
        · intro hfits
          refine ⟨t, hnamed, ?_⟩
          rw [if_pos hholds.rows_eq_nil]
          exact hiff.mpr (hfits hdeclared rfl)

end Install

/-! ### The installation -/

section Whole

variable {sqlite : Sqlite} {pre : List Entry} {s s' : Store} {d : Declared sqlite.toEngine}

theorem Installed.install (h : Installed pre s) (hinstall : s.install sqlite d = .ok s') :
    Installed (pre ++ [d.entry]) s' := by
  rw [install_eq] at hinstall
  obtain ⟨s₁, hcreate, hinstall⟩ := bind_eq_ok.mp hinstall
  obtain ⟨s₂, hindex, hseed⟩ := bind_eq_ok.mp hinstall
  have htabled : Tabled pre d.entry s s₁ := createTable_ok h hcreate
  obtain ⟨hdb, hindexed⟩ := indexStep_ok h htabled hindex
  obtain ⟨t, ht, hof, hempty, hseeded⟩ := htabled.table
  obtain ⟨hframe, t', ht', hshape, hsame, hrows⟩ := seedStep_ok (hdb ▸ ht) hseed
  have hother : ∀ name, foldName name ≠ foldName (tableOf d.entry) →
      s'.db.table name = s.db.table name := by
    intro name hname
    rw [hframe.others name hname, hdb, htabled.frame.others name hname]
  refine ⟨fun name hnone => ?_, fun name f hf => ?_, ?_, ?_⟩
  · have hname : foldName name ≠ foldName (tableOf d.entry) := by
      intro heq
      rw [definer_congr heq, definer_self] at hnone
      cases hnone
    rw [hother name hname]
    rw [definer_other (Ne.symm hname)] at hnone
    exact h.missing name hnone
  · by_cases hname : foldName name = foldName (tableOf d.entry)
    · rw [definer_congr hname, definer_self] at hf
      obtain rfl := Option.some.inj hf
      rw [Db.table_congr _ hname, seeder_congr hname]
      refine ⟨t', ht', hof.sameShape hshape, fun hnone => ?_, fun hsome => ?_⟩
      · have hnil : d.decl.seed = [] := by
          by_contra hne
          exact seeder_self (e := d.entry) hne hnone
        rw [seeder_unseeded (e := d.entry) hnil] at hnone
        rw [hsame (d.seed_eq_nil.mpr hnil)]
        exact hempty hnone
      · by_cases hnil : d.decl.seed = []
        · rw [seeder_unseeded (e := d.entry) hnil] at hsome
          rw [hsame (d.seed_eq_nil.mpr hnil)]
          exact hseeded hsome
        · exact hrows fun heq => hnil (d.seed_eq_nil.mp heq)
    · rw [definer_other (Ne.symm hname)] at hf
      rw [hother name hname, seeder_other (Ne.symm hname)]
      exact h.table name f hf
  · intro name hnone
    rw [Store.index, hframe.indexes_eq]
    exact hindexed.missing name hnone
  · intro name f hf
    rw [Store.index, hframe.indexes_eq]
    exact hindexed.index name f hf

/-- A declaration is installed exactly where its installation has what it needs, its columns being
the table's. -/
theorem Installed.install_iff (h : Installed pre s)
    (hcolumns : d.decl.columns ⊆ (owner pre d.entry).2.columns) :
    (∃ s', s.install sqlite d = .ok s') ↔ Installs sqlite pre d.entry := by
  rw [install_eq, exists_bind_eq_ok]
  have htableIff := createTable_iff sqlite d.entry h
  have hrest : ∀ s₁, s.createTable sqlite d.table d.decl.keyName d.decl.fields.entries = .ok s₁ →
      sqlite.tableWord d.table = false →
      ((∃ s', s₁.indexStep sqlite d.topic d.decl >>= Store.seedStep sqlite d.table d.seed = .ok s') ↔
        (∃ s₂, s₁.indexStep sqlite d.topic d.decl = .ok s₂) ∧
          (d.decl.seed ≠ [] → seeder pre d.table = none →
            (∀ row ∈ d.decl.seed, (owner pre d.entry).2.Gives row) ∧
              SeedKeys sqlite.toEngine 0 [] (d.decl.seed.map fun row =>
                d.decl.seedCell sqlite.toEngine d.topic row (owner pre d.entry).2.keyName))) := by
    intro s₁ hcreate htable
    have htabled : Tabled pre d.entry s s₁ := createTable_ok h hcreate
    obtain ⟨t, ht, hof, hempty, hseeded⟩ := htabled.table
    have hseedIff : ∀ s₂, s₁.indexStep sqlite d.topic d.decl = .ok s₂ →
        ((∃ s', s₂.seedStep sqlite d.table d.seed = .ok s') ↔ _) := fun s₂ hs₂ =>
      seedStep_iff ((indexStep_ok h htabled hs₂).1 ▸ ht) hof hempty hseeded hcolumns
    rw [exists_bind_eq_ok]
    constructor
    · rintro ⟨s₂, hs₂, hseed⟩
      exact ⟨⟨s₂, hs₂⟩, (hseedIff s₂ hs₂).mp hseed⟩
    · rintro ⟨⟨s₂, hs₂⟩, hfits⟩
      exact ⟨s₂, hs₂, (hseedIff s₂ hs₂).mpr hfits⟩
  constructor
  · rintro ⟨s₁, hcreate, hinstall⟩
    obtain ⟨⟨htable, hwords⟩, hinternal, hfresh⟩ := htableIff.mp ⟨s₁, hcreate⟩
    obtain ⟨hindex, hseeds⟩ := (hrest s₁ hcreate htable).mp hinstall
    have hcolumn := (indexStep_iff h (createTable_ok h hcreate) htable).mp hindex
    exact {
      table_word := htable
      column_words := hwords
      internal := hinternal
      fresh := hfresh
      index_words := fun column hmem => (hcolumn column hmem).1
      index_name := fun column hmem => (hcolumn column hmem).2.1
      index_fresh := fun column hmem => (hcolumn column hmem).2.2
      seeds := hseeds }
  · intro hinstalls
    obtain ⟨s₁, hcreate⟩ := htableIff.mpr
      ⟨⟨hinstalls.table_word, hinstalls.column_words⟩, hinstalls.internal, hinstalls.fresh⟩
    refine ⟨s₁, hcreate, (hrest s₁ hcreate hinstalls.table_word).mpr ⟨?_, hinstalls.seeds⟩⟩
    exact (indexStep_iff h (createTable_ok h hcreate) hinstalls.table_word).mpr fun column hmem =>
      ⟨hinstalls.index_words column hmem, hinstalls.index_name column hmem,
        hinstalls.index_fresh column hmem⟩

end Whole

end Albedo.Forge
