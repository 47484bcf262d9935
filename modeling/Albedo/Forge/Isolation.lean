import Albedo.Forge.Installed

/-!
# When a declared schema is isolated and valid

The checks of a declaration look at each name by itself, and at the reserved prefix only in the
collection's own name. So an accepted schema can name a reserved table through its `table`, use a
word SQLite keeps for itself, declare two columns that differ only in case, or meet another
declaration at a table or an index. What is needed besides the checks is said here of the
declarations, each with those that are installed before it; it is exactly what makes the boot
succeed, every query answer with its columns and every partition have its index.
-/
namespace Albedo.Forge
open Json Fallible KeyedList

def isReservedSpelling (name : String) : Bool :=
  reservedPrefix.toList.isPrefixOf (foldName name).toList

/-- The columns an index of the collection is for: its partition column, then its sort. -/
def CollectionDecl.indexSort (d : CollectionDecl) (column : String) : List SortKey :=
  ⟨column, .asc⟩ :: d.ordering.filter fun k => k.column ≠ column

def Table.resolveTerms (t : Table) (terms : List SortKey) : Option (List (Column × SortDir)) :=
  terms.mapM fun k => (t.resolve k.column).map fun c => (c, k.dir)

section Property

variable (sqlite : Sqlite) (s : Store) (d : Declared sqlite.toEngine)

/-- The collection's query runs, and gives its key and its declared fields in their order. -/
def Store.Reads : Prop :=
  ∃ (t : Table) (cols : List Column), s.prepare sqlite d.collection.query = .ok (t, cols.map Source.column) ∧
    cols.map t.nameOf = d.decl.columns ∧
    ∀ params, ∃ rows, t.select sqlite.toEngine d.collection.query params = .ok rows ∧
      rows.columns = d.decl.columns

/-- The collection has its own index: on its table, by its partition column and then its sort. -/
def Store.HasIndex (column : String) : Prop :=
  ∃ t ix, s.db.table d.table = some t ∧ s.index (d.decl.indexName d.topic column) = some ix ∧
    foldName ix.table = foldName d.table ∧ t.resolveTerms (d.decl.indexSort column) = some ix.columns

/-- No statement names a reserved table, the boot on an empty database succeeds, and after it every
query runs and every partitioned collection has its index. -/
structure DeclaredSchema.Valid (schema : DeclaredSchema sqlite.toEngine) : Prop where
  isolated : ∀ d ∈ schema.declared, ∀ statement ∈ d.statements,
    isReservedSpelling statement.table = false
  runs : ∃ s, bootstrapSchema sqlite schema = .ok s ∧ ∀ d ∈ schema.declared,
    s.Reads sqlite d ∧ ∀ column ∈ d.decl.partitionBy, s.HasIndex sqlite d column

end Property

/-- What a declaration needs besides its checks, after others were installed. -/
structure Fits (sqlite : Sqlite) (pre : List Entry) (e : Entry) : Prop
    extends Installs sqlite pre e where
  apart : isReservedSpelling (tableOf e) = false
  clock_words : ∀ name ∈ e.2.columns, sqlite.clockWord name = false
  width : e.2.columns.length ≤ sqlite.columnLimit
  terms : e.2.ordering.length ≤ sqlite.columnLimit
  /-- A table that is shared has all the columns. -/
  shared : e.2.columns ⊆ (owner pre e).2.columns
  /-- An index that is shared is on the same table and by the same columns, and one that is its own
  is by the ordering as it was declared. -/
  index_sort : ∀ column ∈ e.2.partitionBy,
    ∀ f, f = indexOwner pre e (e.2.indexName e.1 column) → ∀ column' ∈ f.2.partitionBy,
      foldName (tableOf f) = foldName (tableOf e) ∧
        (owner pre e).2.resolveTerms (f.2.indexTerms column') =
          (owner pre e).2.resolveTerms (e.2.indexSort column)

/-! ### A whole boot -/

section Boot

variable {sqlite : Sqlite} {pre post : List Entry} {e : Entry} {s s' : Store}
variable {declared : List (Declared sqlite.toEngine)}

theorem Installed.empty : Installed [] Store.empty where
  missing _ _ := rfl
  table _ _ hf := by cases hf
  indexed := ⟨fun _ _ => rfl, fun _ _ hf => by cases hf⟩

theorem Installed.boot (h : Installed pre s)
    (hrun : declared.foldlM (Store.install sqlite) s = .ok s') :
    Installed (pre ++ declared.map Declared.entry) s' := by
  induction declared generalizing pre s with
  | nil =>
      obtain rfl := Except.pure_ok hrun
      rw [List.map_nil, List.append_nil]
      exact h
  | cons d declared ih =>
      rw [List.foldlM_cons] at hrun
      obtain ⟨s₁, hs₁, hrun⟩ := bind_eq_ok.mp hrun
      have hrest := ih (h.install hs₁) hrun
      rw [List.append_assoc] at hrest
      exact hrest

theorem Installed.boot_iff (h : Installed pre s)
    (hcolumns : ∀ before d after, declared = before ++ d :: after →
      d.decl.columns ⊆ (owner (pre ++ before.map Declared.entry) d.entry).2.columns) :
    (∃ s', declared.foldlM (Store.install sqlite) s = .ok s') ↔
      ∀ before d after, declared = before ++ d :: after →
        Installs sqlite (pre ++ before.map Declared.entry) d.entry := by
  induction declared generalizing pre s with
  | nil =>
      refine ⟨fun _ before d after heq => ?_, fun _ => ⟨s, rfl⟩⟩
      exact absurd heq.symm (by simp)
  | cons d declared ih =>
      have hhead : d.decl.columns ⊆ (owner pre d.entry).2.columns := by
        have hnil := hcolumns [] d declared rfl
        rwa [List.map_nil, List.append_nil] at hnil
      have htail : ∀ before f after, declared = before ++ f :: after → f.decl.columns ⊆
          (owner ((pre ++ [d.entry]) ++ before.map Declared.entry) f.entry).2.columns := by
        intro before f after heq
        have hlater := hcolumns (d :: before) f after (by rw [heq]; rfl)
        rwa [List.map_cons, List.append_cons] at hlater
      have hiff := h.install_iff (d := d) hhead
      rw [List.foldlM_cons, exists_bind_eq_ok]
      constructor
      · rintro ⟨s₁, hs₁, hrun⟩ before f after heq
        have hrest := (ih (h.install hs₁) htail).mp hrun
        cases before with
        | nil =>
            obtain ⟨rfl, rfl⟩ := List.cons.inj heq
            rw [List.map_nil, List.append_nil]
            exact hiff.mp ⟨s₁, hs₁⟩
        | cons g before =>
            obtain ⟨rfl, htail'⟩ := List.cons.inj heq
            have hf := hrest before f after htail'
            rwa [List.append_assoc] at hf
      · intro hall
        have hfirst := hall [] d declared rfl
        rw [List.map_nil, List.append_nil] at hfirst
        obtain ⟨s₁, hs₁⟩ := hiff.mpr hfirst
        refine ⟨s₁, hs₁, (ih (h.install hs₁) htail).mpr fun before f after heq => ?_⟩
        have hf := hall (d :: before) f after (by rw [heq]; rfl)
        rwa [List.map_cons, List.append_cons] at hf

variable (pre post e) in
theorem definer_split : definer (pre ++ e :: post) (tableOf e) = some (owner pre e) := by
  rw [List.append_cons, definer_append, definer_self]
  rfl

theorem indexer_split {column : String} (hcolumn : e.2.partitionBy = some column) :
    indexer (pre ++ e :: post) (e.2.indexName e.1 column) =
      some (indexOwner pre e (e.2.indexName e.1 column)) := by
  rw [List.append_cons, indexer_append, indexer_self pre hcolumn]
  rfl

end Boot

/-! ### What a query and an index need -/

section Needs

variable {sqlite : Sqlite} {s : Store} {d : Declared sqlite.toEngine} {t : Table}
variable {o : CollectionDecl} {names : List String}

theorem Table.nameOf_mem {name : String} {c : Column} (h : t.resolve name = some c) :
    t.nameOf c ∈ t.columns := by
  unfold Table.resolve at h
  by_cases hkey : foldName name = foldName t.key
  · rw [if_pos hkey] at h
    obtain rfl := Option.some.inj h
    exact List.mem_cons_self
  · rw [if_neg hkey] at h
    cases hfound : t.fields.find? fun f => foldName f.1 = foldName name with
    | some f =>
        rw [hfound] at h
        obtain rfl := Option.some.inj h
        exact List.mem_cons_of_mem _ (List.mem_map_of_mem (List.mem_of_find?_eq_some hfound))
    | none =>
        rw [hfound] at h
        replace h : (if isRowidAlias name then some Column.key else none) = some c := h
        split_ifs at h
        obtain rfl := Option.some.inj h
        exact List.mem_cons_self

theorem Table.source_eq_column {name : String} {c : Column} :
    t.source sqlite name = .ok (.column c) ↔
      sqlite.clockWord name = false ∧ t.resolve name = some c := by
  unfold Table.source
  split_ifs with hclock
  · simp [hclock]
  · cases hc : t.resolve name <;> simp [hclock]

theorem sources_columns (hclock : ∀ name ∈ names, sqlite.clockWord name = false)
    (hcolumns : ∀ name ∈ names, name ∈ t.columns) :
    names.mapM (t.source sqlite) = .ok ((names.map t.column).map Source.column) := by
  refine mapM_eq_ok.mpr ?_
  rw [List.map_map, List.forall₂_map_right_iff, List.forall₂_same]
  exact fun name hname => Table.source_eq_column.mpr
    ⟨hclock name hname, Table.resolve_column (hcolumns name hname)⟩

theorem columns_of_sources {cols : List Column}
    (h : names.mapM (t.source sqlite) = .ok (cols.map Source.column))
    (hnames : cols.map t.nameOf = names) :
    ∀ name ∈ names, sqlite.clockWord name = false ∧ name ∈ t.columns := by
  have hall := mapM_eq_ok.mp h
  rw [List.forall₂_map_right_iff, ← hnames, List.forall₂_map_left_iff, List.forall₂_same] at hall
  rw [← hnames]
  refine List.forall_mem_map.mpr fun c hc => ?_
  obtain ⟨hclock, hresolve⟩ := Table.source_eq_column.mp (hall c hc)
  exact ⟨hclock, Table.nameOf_mem hresolve⟩

theorem query_columns (d : Declared sqlite.toEngine) :
    (∀ name ∈ d.collection.query.filter.toList, name ∈ d.decl.columns) ∧
      ∀ k ∈ d.collection.query.orderBy, k.column ∈ d.decl.columns := by
  refine ⟨fun name hname => ?_, d.checked.ordering_declared⟩
  exact List.mem_cons_of_mem _ (d.checked.partition_declared name (Option.mem_toList.mp hname))

theorem select_columns {q : Select} (hcolumns : ∀ name ∈ q.columns, name ∈ t.columns)
    (hfilter : ∀ name ∈ q.filter.toList, name ∈ t.columns)
    (horder : ∀ k ∈ q.orderBy, k.column ∈ t.columns) (params : List SqlValue) :
    ∃ rows, t.select sqlite.toEngine q params = .ok rows ∧ rows.columns = q.columns := by
  have hwhere : ∃ filter, t.selectFilter q params = .ok filter := by
    unfold Table.selectFilter
    cases hname : q.filter with
    | none => exact ⟨none, rfl⟩
    | some name =>
        rw [hname] at hfilter
        dsimp only
        rw [Table.resolve_column (hfilter name List.mem_cons_self)]
        exact ⟨_, rfl⟩
  obtain ⟨filter, hwhere⟩ := hwhere
  refine ⟨⟨(q.columns.map t.column).map t.nameOf, _⟩, bind_eq_ok.mpr
    ⟨_, Table.resolveAll_columns hcolumns, bind_eq_ok.mpr ⟨filter, hwhere, bind_eq_ok.mpr
      ⟨_, Table.resolveAll_columns (List.forall_mem_map.mpr horder), rfl⟩⟩⟩, ?_⟩
  rw [List.map_map]
  exact (List.map_congr_left fun name _ => t.nameOf_column name).trans (List.map_id _)

theorem reads_iff (ht : s.db.table d.table = some t) (hof : t.Of o) :
    s.Reads sqlite d ↔ (sqlite.tableWord d.table = false ∧
      ∀ name ∈ d.decl.columns, sqlite.columnWord name = false) ∧
        (∀ name ∈ d.decl.columns, sqlite.clockWord name = false) ∧
          d.decl.columns.length ≤ sqlite.columnLimit ∧
            d.decl.ordering.length ≤ sqlite.columnLimit ∧ d.decl.columns ⊆ o.columns := by
  have hnamed : s.db.named d.collection.query.table = .ok t := by
    change s.db.named d.table = .ok t
    rw [Db.named, ht]
  obtain ⟨hfilter, horder⟩ := query_columns d
  constructor
  · rintro ⟨t', cols, hprepare, hnames, -⟩
    obtain ⟨u, hreads, hprepare⟩ := bind_eq_ok.mp hprepare
    obtain ⟨htable, hwords⟩ := Sqlite.reads_eq_ok.mp hreads
    obtain ⟨t₀, ht₀, hprepare⟩ := bind_eq_ok.mp hprepare
    obtain rfl := Except.ok.inj (hnamed.symm.trans ht₀)
    obtain ⟨v, hwidth, hprepare⟩ := bind_eq_ok.mp hprepare
    obtain ⟨results, hresults, hprepare⟩ := bind_eq_ok.mp hprepare
    obtain ⟨w, -, hprepare⟩ := bind_eq_ok.mp hprepare
    obtain ⟨x, hterms, hprepare⟩ := bind_eq_ok.mp hprepare
    obtain ⟨y, -, hprepare⟩ := bind_eq_ok.mp hprepare
    obtain ⟨rfl, rfl⟩ := Prod.mk.inj (Except.pure_ok hprepare)
    have hcolumns := columns_of_sources hresults hnames
    refine ⟨⟨htable, fun name hname => hwords name ?_⟩, fun name hname => (hcolumns name hname).1,
      demand_eq_ok.mp hwidth, demand_eq_ok.mp hterms, fun name hname => ?_⟩
    · exact List.mem_append_left _ (List.mem_append_left _ hname)
    · rw [← hof.columns_eq]
      exact (hcolumns name hname).2
  · rintro ⟨⟨htable, hwords⟩, hclock, hwidth, hterms, hshared⟩
    have hcolumns : ∀ name ∈ d.decl.columns, name ∈ t.columns := by
      intro name hname
      rw [hof.columns_eq]
      exact hshared hname
    have hreads : sqlite.reads d.collection.query.table (d.collection.query.columns ++
        d.collection.query.filter.toList ++ d.collection.query.orderBy.map SortKey.column) =
          .ok () := by
      refine Sqlite.reads_eq_ok.mpr ⟨htable, fun name hname => hwords name ?_⟩
      rcases List.mem_append.mp hname with hname | hname
      · rcases List.mem_append.mp hname with hname | hname
        · exact hname
        · exact hfilter name hname
      · obtain ⟨k, hk, rfl⟩ := List.mem_map.mp hname
        exact horder k hk
    have hresults : d.collection.query.columns.mapM (t.source sqlite) =
        .ok ((d.decl.columns.map t.column).map Source.column) := sources_columns hclock hcolumns
    have hwhere : d.collection.query.filter.toList.mapM (t.source sqlite) =
        .ok ((d.collection.query.filter.toList.map t.column).map Source.column) :=
      sources_columns (fun name hname => hclock name (hfilter name hname))
        fun name hname => hcolumns name (hfilter name hname)
    have hsorted : d.collection.query.orderBy.mapM (fun k => t.source sqlite k.column) =
        .ok (d.collection.query.orderBy.map fun k => Source.column (t.column k.column)) := by
      refine mapM_eq_ok.mpr ?_
      rw [List.forall₂_map_right_iff, List.forall₂_same]
      exact fun k hk => Table.source_eq_column.mpr
        ⟨hclock _ (horder k hk), Table.resolve_column (hcolumns _ (horder k hk))⟩
    refine ⟨t, d.decl.columns.map t.column, ?_, ?_, fun params => ?_⟩
    · exact bind_eq_ok.mpr ⟨(), hreads, bind_eq_ok.mpr ⟨t, hnamed, bind_eq_ok.mpr
        ⟨(), demand_eq_ok.mpr hwidth, bind_eq_ok.mpr ⟨_, hresults, bind_eq_ok.mpr ⟨_, hwhere,
          bind_eq_ok.mpr ⟨(), demand_eq_ok.mpr hterms, bind_eq_ok.mpr ⟨_, hsorted, rfl⟩⟩⟩⟩⟩⟩⟩
    · rw [List.map_map]
      exact (List.map_congr_left fun name _ => t.nameOf_column name).trans (List.map_id _)
    · exact select_columns hcolumns (fun name hname => hcolumns name (hfilter name hname))
        (fun k hk => hcolumns k.column (horder k hk)) params

theorem hasIndex_iff {all : List Entry} {f g : Entry} {column : String} (h : Installed all s)
    (ht : s.db.table d.table = some t) (hof : t.Of o) (hdefiner : definer all d.table = some g)
    (ho : g.2 = o) (hindexer : indexer all (d.decl.indexName d.topic column) = some f) :
    s.HasIndex sqlite d column ↔ ∀ column' ∈ f.2.partitionBy,
      foldName (tableOf f) = foldName d.table ∧
        o.resolveTerms (f.2.indexTerms column') = o.resolveTerms (d.decl.indexSort column) := by
  have hterms : ∀ terms, t.resolveTerms terms = o.resolveTerms terms := by
    intro terms
    unfold Table.resolveTerms CollectionDecl.resolveTerms
    exact congrArg (fun resolve => List.mapM resolve terms)
      (funext fun k => by rw [hof.resolve_eq])
  obtain ⟨ix, c, hc, hix, htable, g', hg', hresolved⟩ := h.indexed.index _ f hindexer
  have howner : foldName (tableOf f) = foldName d.table →
      o.resolveTerms (f.2.indexTerms c) = some ix.columns := by
    intro hfold
    rw [definer_congr hfold, hdefiner] at hg'
    obtain rfl := Option.some.inj hg'
    exact ho ▸ hresolved
  constructor
  · rintro ⟨t', ix', ht', hix', htable', hcolumns⟩ c' hc'
    obtain rfl : t = t' := Option.some.inj (ht.symm.trans ht')
    obtain rfl : ix = ix' := Option.some.inj (hix.symm.trans hix')
    obtain rfl : c = c' := Option.some.inj (hc.symm.trans hc')
    have hfold := htable.symm.trans htable'
    exact ⟨hfold, (howner hfold).trans (hterms _ ▸ hcolumns).symm⟩
  · intro hall
    obtain ⟨hfold, heq⟩ := hall c hc
    exact ⟨t, ix, ht, hix, htable.trans hfold, (hterms _).trans (heq ▸ howner hfold)⟩

end Needs

/-! ### The whole schema -/

section Schema

variable {sqlite : Sqlite} {declarations : OrderedMap String CollectionDecl}
variable {schema : DeclaredSchema sqlite.toEngine}

theorem isolated_iff {d : Declared sqlite.toEngine} :
    (∀ statement ∈ d.statements, isReservedSpelling statement.table = false) ↔
      isReservedSpelling d.table = false := by
  have htables : ∀ statement ∈ d.statements, statement.table = d.table := by
    intro statement hmem
    rcases List.mem_append.mp hmem with hmem | hmem
    · rcases List.mem_cons.mp hmem with rfl | hmem
      · rfl
      · obtain ⟨column, -, rfl⟩ := Option.map_eq_some_iff.mp (Option.mem_toList.mp hmem)
        rfl
    · rcases List.mem_cons.mp hmem with rfl | hmem
      · rfl
      · rcases List.mem_cons.mp hmem with rfl | hmem
        · rfl
        · obtain ⟨row, -, rfl⟩ := List.mem_map.mp hmem
          rfl
  constructor
  · exact fun hall => hall d.createTable List.mem_cons_self
  · intro hapart statement hmem
    rw [htables statement hmem]
    exact hapart

theorem forall_split_iff {P : List Entry → Entry → Prop} (declared : List (Declared sqlite.toEngine)) :
    (∀ pre e post, declared.map Declared.entry = pre ++ e :: post → P pre e) ↔
      ∀ before d after, declared = before ++ d :: after → P (before.map Declared.entry) d.entry := by
  constructor
  · rintro h before d after rfl
    exact h _ _ (after.map Declared.entry) (by rw [List.map_append, List.map_cons])
  · intro h pre e post heq
    obtain ⟨before, rest, rfl, rfl, hrest⟩ := List.map_eq_append_iff.mp heq
    obtain ⟨d, after, rfl, rfl, -⟩ := List.map_eq_cons_iff.mp hrest
    exact h before d after rfl

theorem served_iff {before after : List (Declared sqlite.toEngine)} {d : Declared sqlite.toEngine}
    {s : Store} (h : Installed ((before ++ d :: after).map Declared.entry) s) :
    (s.Reads sqlite d ↔ (sqlite.tableWord d.table = false ∧
      ∀ name ∈ d.decl.columns, sqlite.columnWord name = false) ∧
        (∀ name ∈ d.decl.columns, sqlite.clockWord name = false) ∧
          d.decl.columns.length ≤ sqlite.columnLimit ∧
            d.decl.ordering.length ≤ sqlite.columnLimit ∧
              d.decl.columns ⊆ (owner (before.map Declared.entry) d.entry).2.columns) ∧
    ∀ column ∈ d.decl.partitionBy, (s.HasIndex sqlite d column ↔
      ∀ f, f = indexOwner (before.map Declared.entry) d.entry (d.decl.indexName d.topic column) →
        ∀ column' ∈ f.2.partitionBy, foldName (tableOf f) = foldName d.table ∧
          (owner (before.map Declared.entry) d.entry).2.resolveTerms (f.2.indexTerms column') =
            (owner (before.map Declared.entry) d.entry).2.resolveTerms (d.decl.indexSort column)) := by
  rw [List.map_append, List.map_cons] at h
  have hdefiner := definer_split (before.map Declared.entry) (after.map Declared.entry) d.entry
  obtain ⟨t, ht, hof, -⟩ := h.table _ _ hdefiner
  refine ⟨reads_iff ht hof, fun column hcolumn => ?_⟩
  rw [forall_eq]
  exact hasIndex_iff h ht hof hdefiner rfl (indexer_split (e := d.entry) hcolumn)

/-- An accepted set of declarations is isolated and valid exactly where each declaration fits those
that are installed before it. -/
theorem declared_valid_iff_fits (h : fromDeclarations sqlite.toEngine declarations = .ok schema) :
    schema.Valid sqlite ↔
      ∀ pre e post, bootOrder declarations = pre ++ e :: post → Fits sqlite pre e := by
  rw [← fromDeclarations_ok h, forall_split_iff schema.declared]
  constructor
  · rintro ⟨hisolated, s, hboot, hserved⟩ before d after heq
    have hinstalled : Installed (schema.declared.map Declared.entry) s :=
      Installed.empty.boot hboot
    have hneeds : ∀ before d after, schema.declared = before ++ d :: after → _ :=
      fun before d after heq => served_iff (heq ▸ hinstalled)
    have hmem : ∀ before d after, schema.declared = before ++ d :: after → d ∈ schema.declared :=
      fun before d after heq => heq ▸ List.mem_append_right before List.mem_cons_self
    have hreads : ∀ before d after, schema.declared = before ++ d :: after → _ :=
      fun before d after heq =>
        (hneeds before d after heq).1.mp (hserved d (hmem before d after heq)).1
    have hinstalls := (Installed.empty.boot_iff fun before d after heq =>
      (hreads before d after heq).2.2.2.2).mp ⟨s, hboot⟩ before d after heq
    obtain ⟨-, hclock, hwidth, hterms, hshared⟩ := hreads before d after heq
    exact {
      toInstalls := hinstalls
      apart := isolated_iff.mp (hisolated d (hmem before d after heq))
      clock_words := hclock
      width := hwidth
      terms := hterms
      shared := hshared
      index_sort := fun column hcolumn => ((hneeds before d after heq).2 column hcolumn).mp
        ((hserved d (hmem before d after heq)).2 column hcolumn) }
  · intro hfits
    have hruns : ∃ s, bootstrapSchema sqlite schema = .ok s :=
      (Installed.empty.boot_iff fun before d after heq => (hfits before d after heq).shared).mpr
        fun before d after heq => (hfits before d after heq).toInstalls
    obtain ⟨s, hboot⟩ := hruns
    have hinstalled : Installed (schema.declared.map Declared.entry) s :=
      Installed.empty.boot hboot
    refine ⟨fun d hd => ?_, s, hboot, fun d hd => ?_⟩
    all_goals obtain ⟨before, after, heq⟩ := List.append_of_mem hd
    all_goals have hfit := hfits before d after heq
    · exact isolated_iff.mpr hfit.apart
    · obtain ⟨hreads, hindex⟩ := served_iff (heq ▸ hinstalled)
      refine ⟨hreads.mpr ⟨⟨hfit.table_word, hfit.column_words⟩, hfit.clock_words, hfit.width,
        hfit.terms, hfit.shared⟩, fun column hcolumn => ?_⟩
      exact (hindex column hcolumn).mpr (hfit.index_sort column hcolumn)

end Schema

/-! ### Accepted declarations -/

theorem exists_of_isOk {ε α : Type} {x : Except ε α} (h : x.isOk = true) : ∃ a, x = .ok a := by
  cases x with
  | error e => cases h
  | ok a => exact ⟨a, rfl⟩

def journalDecl (table : Option String) : CollectionDecl :=
  ⟨table, none, ⟨[("body", ⟨.text, false⟩)], List.pairwise_singleton _ _⟩, none, none, [], .author⟩

def journal (table : Option String) : OrderedMap String CollectionDecl :=
  ⟨[("journal", journalDecl table)], List.pairwise_singleton _ _⟩

theorem journal_fits : Fits Sqlite.plain [] ("journal", journalDecl none) where
  table_word := by decide
  column_words := by decide
  internal := by decide
  fresh _ := ⟨rfl, by decide, by decide⟩
  index_words _ hcolumn := by cases hcolumn
  index_name _ hcolumn := by cases hcolumn
  index_fresh _ hcolumn := by cases hcolumn
  seeds hseed := absurd rfl hseed
  apart := by decide
  clock_words := by decide
  width := by decide
  terms := by decide
  shared := List.Subset.refl _
  index_sort _ hcolumn := by cases hcolumn

/-- The collection is isolated and valid in its own table. -/
theorem journal_valid :
    ∃ schema, fromDeclarations Sqlite.plain.toEngine (journal none) = .ok schema ∧
      schema.Valid Sqlite.plain := by
  have hok : (fromDeclarations Sqlite.plain.toEngine (journal none)).isOk = true := by
    decide +kernel
  obtain ⟨schema, h⟩ := exists_of_isOk hok
  refine ⟨schema, h, (declared_valid_iff_fits h).mpr fun pre e post heq => ?_⟩
  replace heq : [("journal", journalDecl none)] = pre ++ e :: post := heq
  cases pre with
  | nil =>
      obtain ⟨rfl, -⟩ := List.cons.inj heq
      exact journal_fits
  | cons f pre => exact absurd (List.cons.inj heq).2 (by simp)

/-- A collection whose table is one of the framework's is accepted. -/
theorem reserved_table_accepted :
    ∃ schema, fromDeclarations Sqlite.plain.toEngine (journal (some "albedo_users")) = .ok schema ∧
      ¬ schema.Valid Sqlite.plain := by
  have hok : (fromDeclarations Sqlite.plain.toEngine (journal (some "albedo_users"))).isOk = true := by
    decide +kernel
  obtain ⟨schema, h⟩ := exists_of_isOk hok
  refine ⟨schema, h, fun hvalid => ?_⟩
  have hentries := fromDeclarations_ok h
  obtain ⟨d, hdeclared, hentry⟩ := List.map_eq_singleton_iff.mp
    (show schema.declared.map Declared.entry = [_] from hentries)
  have hapart := isolated_iff.mp (hvalid.isolated d (hdeclared ▸ List.mem_singleton_self d))
  have htable : d.table = "albedo_users" := congrArg tableOf hentry
  rw [htable] at hapart
  exact absurd hapart (by decide)

end Albedo.Forge
