import Albedo.Forge.Drift

/-!
# Evolution is complete

A refusal changes nothing, and a failing statement leaves the tables with the columns added
before it. Where no table that is short of a column is shared by two collections, evolving
ends with every table in its declared shape, and there is nothing left to do.
-/
namespace Albedo.Forge
open KeyedList Fallible

/-! ### What is read of a live table -/

def LiveColumn.shape (c : LiveColumn) : ColumnShape := ⟨upperName c.type.toList, c.notNull⟩

def addLive (shape : Option String × OrderedMap String ColumnShape) (c : LiveColumn) :
    Option String × OrderedMap String ColumnShape :=
  if c.pk ≠ 0 then (some c.name, shape.2) else (shape.1, shape.2.insert c.name c.shape)

def shapeOf (columns : List LiveColumn) : Option String × OrderedMap String ColumnShape :=
  columns.foldl addLive (none, OrderedMap.empty)

def LiveTable.shape (t : LiveTable) (table : String) : TableShape :=
  ⟨table, (shapeOf t.columns).1, (shapeOf t.columns).2⟩

theorem readColumn_info (shape : Option String × OrderedMap String ColumnShape) (cid : ℕ)
    (c : LiveColumn) : readColumn 1 2 3 5 shape (c.info cid) = some (addLive shape c) := by
  by_cases hpk : c.pk = 0 <;> cases hnull : c.notNull <;>
    simp [readColumn, LiveColumn.info, SqlValue.asStr, SqlValue.asInteger, addLive,
      LiveColumn.shape, hpk, hnull]

theorem foldlM_readColumn (columns : List LiveColumn) (cid : ℕ)
    (shape : Option String × OrderedMap String ColumnShape) :
    ((columns.zipIdx cid).map fun c => c.1.info c.2).foldlM (readColumn 1 2 3 5) shape =
      some (columns.foldl addLive shape) := by
  induction columns generalizing cid shape with
  | nil => rfl
  | cons c columns ih =>
      rw [List.zipIdx_cons, List.map_cons, List.foldlM_cons, readColumn_info]
      exact ih (cid + 1) (addLive shape c)

theorem readTableShape_tableInfo (cat : Catalog) (name : String) :
    readTableShape (cat.tableInfo name) name = (cat.table name).map fun t => t.shape name := by
  cases htable : cat.table name with
  | none => simp [readTableShape, Catalog.tableInfo, htable]
  | some t =>
      have hcolumns := foldlM_readColumn t.columns 0 (none, OrderedMap.empty)
      have hne := t.not_empty
      simp [readTableShape, Catalog.tableInfo, htable, Rows.columnAt, List.findIdx?_cons, hne, hcolumns, LiveTable.shape, shapeOf]

theorem foldl_addLive {columns : List LiveColumn} (h : ∀ c ∈ columns, c.pk = 0)
    (shape : Option String × OrderedMap String ColumnShape) :
    columns.foldl addLive shape = (shape.1,
      (columns.map fun c => (c.name, c.shape)).foldl (fun m e => m.insert e.1 e.2) shape.2) := by
  induction columns generalizing shape with
  | nil => rfl
  | cons c columns ih =>
      have hadd : addLive shape c = (shape.1, shape.2.insert c.name c.shape) := by
        simp [addLive, h c List.mem_cons_self]
      rw [List.foldl_cons, hadd, ih fun d hd => h d (List.mem_cons_of_mem c hd)]
      rfl

theorem shapeOf_append {columns added : List LiveColumn} (hpk : ∀ c ∈ added, c.pk = 0)
    (hnames : (added.map LiveColumn.name).Nodup) (field : String) :
    (shapeOf (columns ++ added)).1 = (shapeOf columns).1 ∧
      (shapeOf (columns ++ added)).2.get field =
        ((added.map fun c => (c.name, c.shape)).lookup field).or ((shapeOf columns).2.get field) := by
  have hfold : shapeOf (columns ++ added) = added.foldl addLive (shapeOf columns) :=
    List.foldl_append
  have hkeys : keys (added.map fun c => (c.name, c.shape)) = added.map LiveColumn.name := by
    simp [keys]
  rw [hfold, foldl_addLive hpk]
  exact ⟨rfl, OrderedMap.get_foldl_insert (hkeys ▸ hnames) _ _⟩

/-! ### What the differences say -/

/-- The live table has only columns the declaration has, and is short of nullable ones only. -/
structure Extends (expected live : TableShape) : Prop where
  key : expected.key = live.key
  held : ∀ field shape, live.columns.get field = some shape →
    expected.columns.get field = some shape
  nullable : ∀ field shape, expected.columns.get field = some shape →
    live.columns.get field = none → shape.notNull = false

theorem keyChange_eq_nil {expected live : TableShape} (h : expected.key = live.key) :
    keyChange expected live = [] := by
  unfold keyChange
  cases hkey : expected.key with
  | none => rfl
  | some key => simp [← h, hkey]

theorem extends_of_additive {expected live : TableShape} (hkey : expected.key.isSome = true)
    (h : (changesBetween expected live).all Change.isAdditive = true) : Extends expected live := by
  simp only [changesBetween, List.all_append, Bool.and_eq_true, List.all_eq_true,
    List.mem_filterMap, Prod.exists] at h
  obtain ⟨⟨hchange, hcolumn⟩, hremoved⟩ := h
  have hkeys : expected.key = live.key := by
    obtain ⟨key, hsome⟩ := Option.isSome_iff_exists.mp hkey
    by_contra hne
    have hadditive := hchange (.keyChanged (live.key.getD "(none)") key) (by
      unfold keyChange
      rw [hsome] at hne ⊢
      simp [hne])
    cases hadditive
  have hadditive : ∀ field want, expected.columns.get field = some want →
      ∀ change, columnChange live field want = some change → change.isAdditive = true :=
    fun field want hwant change hsome =>
      hcolumn change ⟨field, want, OrderedMap.mem_entries.mpr hwant, hsome⟩
  have hexpected : ∀ field shape, live.columns.get field = some shape →
      ∃ want, expected.columns.get field = some want := by
    intro field shape hlive
    by_contra hnone
    have hwant : expected.columns.get field = none := by
      cases hget : expected.columns.get field with
      | none => rfl
      | some want => exact absurd ⟨want, hget⟩ hnone
    have hchange := hremoved (.fieldRemoved field shape.sqlType)
      ⟨field, shape, OrderedMap.mem_entries.mpr hlive, by simp [removedChange, hwant]⟩
    cases hchange
  refine ⟨hkeys, ?_, ?_⟩
  · intro field shape hlive
    obtain ⟨want, hwant⟩ := hexpected field shape hlive
    have hall := hadditive field want hwant
    rw [hwant]
    simp only [columnChange, hlive] at hall
    split_ifs at hall with htype hnull
    · cases hall _ rfl
    · cases hall _ rfl
    · obtain ⟨sqlType, notNull⟩ := shape
      obtain ⟨sqlType', notNull'⟩ := want
      simp_all
  · intro field shape hwant hlive
    have hall := hadditive field shape hwant
    simp only [columnChange, hlive] at hall
    simpa [Change.isAdditive] using hall _ rfl

def TableShape.missing (expected live : TableShape) : List (String × ColumnShape) :=
  expected.columns.entries.filter fun e => (live.columns.get e.1).isNone

theorem Extends.changesBetween_eq {expected live : TableShape} (h : Extends expected live) :
    changesBetween expected live =
      (expected.missing live).map fun e => .fieldAdded e.1 e.2.sqlType !e.2.notNull := by
  have hremoved : live.columns.entries.filterMap (fun e => removedChange expected e.1 e.2) = [] := by
    refine List.filterMap_eq_nil_iff.mpr fun e he => ?_
    have hheld := h.held e.1 e.2 (OrderedMap.mem_entries.mp he)
    simp [removedChange, hheld]
  have hcolumn : ∀ e ∈ expected.columns.entries, columnChange live e.1 e.2 =
      if (live.columns.get e.1).isNone then some (.fieldAdded e.1 e.2.sqlType !e.2.notNull)
      else none := by
    intro e he
    have hexpected := OrderedMap.mem_entries.mp he
    cases hlive : live.columns.get e.1 with
    | none => simp [columnChange, hlive]
    | some shape =>
        have heq : shape = e.2 := by
          have hheld := h.held e.1 shape hlive
          rw [hexpected] at hheld
          exact (Option.some.inj hheld).symm
        simp [columnChange, hlive, heq]
  rw [changesBetween, keyChange_eq_nil h.key, hremoved, List.nil_append, List.append_nil,
    List.filterMap_congr hcolumn, TableShape.missing, ← List.filterMap_eq_map', List.filterMap_filter]

theorem Extends.additive {expected live : TableShape} (h : Extends expected live) :
    (changesBetween expected live).all Change.isAdditive = true := by
  rw [h.changesBetween_eq, List.all_map, List.all_eq_true]
  intro e he
  obtain ⟨hexpected, hlive⟩ := List.mem_filter.mp he
  have hnull := h.nullable e.1 e.2 (OrderedMap.mem_entries.mp hexpected) (by simpa using hlive)
  simp [Change.isAdditive, hnull]

/-! ### What a collection calls for -/

def ForgeCollection.additions (c : ForgeCollection) (cat : Catalog) : List Addition :=
  (c.plan (cat.tableInfo c.table)).1

def ForgeCollection.drift (c : ForgeCollection) (cat : Catalog) : List CollectionDrift :=
  (c.plan (cat.tableInfo c.table)).2

def ForgeCollection.missing (c : ForgeCollection) (e : String × ColumnShape) : Addition :=
  ⟨c.topic, c.table, e.1, e.2.sqlType⟩

theorem ForgeCollection.plan_absent {c : ForgeCollection} {cat : Catalog}
    (h : cat.table c.table = none) : c.additions cat = [] ∧ c.drift cat = [] := by
  have hshape : readTableShape (cat.tableInfo c.table) c.table = none := by
    rw [readTableShape_tableInfo, h]
    rfl
  unfold additions drift plan
  rw [hshape]
  cases c.expectedShape <;> exact ⟨rfl, rfl⟩

theorem ForgeCollection.plan_present {c : ForgeCollection} {cat : Catalog} {t : LiveTable}
    (hfields : ∀ f ∈ c.fields, isSafeIdentifier f.1 = true) (h : cat.table c.table = some t) :
    (¬ Extends c.declaredShape (t.shape c.table) ∧ c.additions cat = [] ∧ c.drift cat ≠ []) ∨
      (Extends c.declaredShape (t.shape c.table) ∧ c.drift cat = [] ∧
        c.additions cat = (c.declaredShape.missing (t.shape c.table)).map c.missing) := by
  have hshape : readTableShape (cat.tableInfo c.table) c.table = some (t.shape c.table) := by
    rw [readTableShape_tableInfo, h]
    rfl
  unfold additions drift plan
  rw [hshape, c.expectedShape_eq hfields]
  by_cases hadditive :
      (changesBetween c.declaredShape (t.shape c.table)).all Change.isAdditive = true
  · have hextends : Extends c.declaredShape (t.shape c.table) := extends_of_additive rfl hadditive
    have hchanges := hextends.changesBetween_eq
    refine .inr ⟨hextends, ?_⟩
    cases hempty : (changesBetween c.declaredShape (t.shape c.table)).isEmpty with
    | true =>
        rw [List.isEmpty_iff] at hempty
        rw [hempty] at hchanges
        have hmissing := List.map_eq_nil_iff.mp hchanges.symm
        simp [diff, hempty, hmissing]
    | false =>
        have hdiff : diff c c.declaredShape (t.shape c.table) =
            some ⟨c.topic, c.table, changesBetween c.declaredShape (t.shape c.table)⟩ := by
          simp [diff, hempty]
        simp only [hdiff, hadditive, if_true]
        refine ⟨trivial, ?_⟩
        rw [hchanges, List.filterMap_map]
        exact congrFun List.filterMap_eq_map' _
  · refine .inl ⟨fun hextends => hadditive hextends.additive, ?_⟩
    have hempty : (changesBetween c.declaredShape (t.shape c.table)).isEmpty = false := by
      by_contra htrue
      rw [Bool.not_eq_false, List.isEmpty_iff] at htrue
      rw [htrue] at hadditive
      exact hadditive rfl
    simp [diff, hempty, hadditive]

theorem ForgeCollection.mem_additions {c : ForgeCollection} {cat : Catalog} {a : Addition}
    (hfields : ∀ f ∈ c.fields, isSafeIdentifier f.1 = true) (ha : a ∈ c.additions cat) :
    ∃ t shape, cat.table c.table = some t ∧ Extends c.declaredShape (t.shape c.table) ∧
      c.declaredShape.columns.get a.field = some shape ∧
      (t.shape c.table).columns.get a.field = none ∧ a = c.missing (a.field, shape) := by
  cases htable : cat.table c.table with
  | none => simp [(plan_absent htable).1] at ha
  | some t =>
      rcases plan_present hfields htable with ⟨-, hnone, -⟩ | ⟨hextends, -, hadditions⟩
      · simp [hnone] at ha
      · rw [hadditions, List.mem_map] at ha
        obtain ⟨e, he, rfl⟩ := ha
        obtain ⟨hexpected, hlive⟩ := List.mem_filter.mp he
        exact ⟨t, e.2, rfl, hextends, OrderedMap.mem_entries.mp hexpected,
          Option.isNone_iff_eq_none.mp hlive, rfl⟩

def ForgeSchema.additions (schema : ForgeSchema) (cat : Catalog) : List Addition :=
  schema.collections.flatMap fun c => c.additions cat

def ForgeSchema.drift (schema : ForgeSchema) (cat : Catalog) : List CollectionDrift :=
  schema.collections.flatMap fun c => c.drift cat

theorem ForgeCollection.plan_eq (c : ForgeCollection) (cat : Catalog) :
    c.plan (cat.tableInfo c.table) = (c.additions cat, c.drift cat) := by
  rw [additions, drift]

theorem ForgeCollection.inspect_ok {fault : Op → Option SubstrateError} {cat : Catalog}
    {c : ForgeCollection} {plan : List Addition × List CollectionDrift}
    (h : c.inspect fault cat = .ok plan) : plan = (c.additions cat, c.drift cat) := by
  unfold inspect at h
  split_ifs at h with hexpected
  · split at h
    · cases h
    · rw [c.plan_eq] at h
      exact (Except.ok.inj h).symm
  · rw [Bool.not_eq_true, Option.isSome_eq_false_iff, Option.isNone_iff_eq_none] at hexpected
    have hplan : c.plan (cat.tableInfo c.table) = ([], []) := by
      rw [ForgeCollection.plan, hexpected]
    rw [← c.plan_eq, hplan]
    exact (Except.ok.inj h).symm

theorem planSchema_ok {fault : Op → Option SubstrateError} {cat : Catalog}
    {cs : List ForgeCollection} {plan : List Addition × List CollectionDrift}
    (h : planSchema fault cat cs = .ok plan) :
    plan = (cs.flatMap fun c => c.additions cat, cs.flatMap fun c => c.drift cat) := by
  induction cs generalizing plan with
  | nil =>
      cases h
      rfl
  | cons c cs ih =>
      obtain ⟨first, hfirst, h⟩ := bind_eq_ok.mp h
      obtain ⟨rest, hrest, h⟩ := bind_eq_ok.mp h
      rw [c.inspect_ok hfirst, ih hrest] at h
      rw [List.flatMap_cons, List.flatMap_cons, ← Except.ok.inj h]

theorem planSchema_quiet {fault : Op → Option SubstrateError} {cat : Catalog}
    {cs : List ForgeCollection} (h : ∀ topic, fault (.read topic) = none) :
    planSchema fault cat cs =
      .ok (cs.flatMap fun c => c.additions cat, cs.flatMap fun c => c.drift cat) := by
  induction cs with
  | nil => rfl
  | cons c cs ih =>
      have hinspect : c.inspect fault cat = .ok (c.additions cat, c.drift cat) := by
        obtain ⟨plan, hplan⟩ : ∃ plan, c.inspect fault cat = .ok plan := by
          unfold ForgeCollection.inspect
          rw [h]
          split_ifs <;> exact ⟨_, rfl⟩
        rw [hplan, c.inspect_ok hplan]
      rw [planSchema, hinspect, ih, List.flatMap_cons, List.flatMap_cons]
      rfl

/-! ### What the statements do -/

/-- One `ALTER` after another, while none fails. -/
def Catalog.addColumns (cat : Catalog) (additions : List Addition) :
    Except SubstrateError Catalog :=
  additions.foldlM Catalog.addColumn cat

def additionsTo (name : String) (additions : List Addition) : List Addition :=
  additions.filter fun a => foldName a.table = foldName name

theorem Catalog.addColumn_columns {cat cat' : Catalog} {a : Addition}
    (h : cat.addColumn a = .ok cat') (name : String) :
    (cat'.table name).map LiveTable.columns =
      (cat.table name).map fun t => t.columns ++ (additionsTo name [a]).map Addition.column := by
  unfold Catalog.addColumn at h
  split at h
  · cases h
  · next t htable =>
      split_ifs at h with hfresh
      obtain rfl := Except.ok.inj h
      by_cases hname : foldName name = foldName a.table
      · have hcat : cat.table name = some t := by
          rw [Catalog.table, hname]
          exact htable
        simp [Catalog.table, hname, additionsTo, LiveTable.add] at hcat ⊢
        simp [hcat]
      · have hne : foldName a.table ≠ foldName name := Ne.symm hname
        simp [Catalog.table, hname, hne, additionsTo]

theorem Catalog.addColumns_columns {cat cat' : Catalog} {additions : List Addition}
    (h : cat.addColumns additions = .ok cat') (name : String) :
    (cat'.table name).map LiveTable.columns = (cat.table name).map fun t =>
      t.columns ++ (additionsTo name additions).map Addition.column := by
  induction additions generalizing cat with
  | nil =>
      obtain rfl := Except.ok.inj h
      simp [additionsTo]
  | cons a additions ih =>
      rw [Catalog.addColumns, List.foldlM_cons] at h
      cases hfirst : cat.addColumn a with
      | error err =>
          rw [hfirst] at h
          cases h
      | ok next =>
          rw [hfirst] at h
          have hcolumns := Catalog.addColumn_columns hfirst name
          rw [ih h]
          cases hnext : next.table name with
          | none =>
              rw [hnext] at hcolumns
              rw [Option.map_none, eq_comm, Option.map_eq_none_iff] at hcolumns ⊢
              exact hcolumns
          | some t' =>
              rw [hnext, Option.map_some, eq_comm, Option.map_eq_some_iff] at hcolumns
              obtain ⟨t, ht, hcolumns⟩ := hcolumns
              rw [ht, Option.map_some, Option.map_some, ← hcolumns, List.append_assoc,
                ← List.map_append, additionsTo, additionsTo, additionsTo, ← List.filter_append]
              rfl

theorem applyAdditions_spec (fault : Op → Option SubstrateError) (n : ℕ)
    (additions : List Addition) (cat : Catalog) :
    ∃ applied, applied <+: additions ∧
      cat.addColumns applied = .ok (applyAdditions fault n additions cat).2 ∧
      ((applyAdditions fault n additions cat).1 = .ok () → applied = additions) := by
  induction additions generalizing n cat with
  | nil => exact ⟨[], List.prefix_rfl, rfl, fun _ => rfl⟩
  | cons a additions ih =>
      rw [applyAdditions]
      cases fault (.statement n) with
      | some err => exact ⟨[], List.nil_prefix, rfl, fun h => by cases h⟩
      | none =>
          cases hfirst : cat.addColumn a with
          | error err => exact ⟨[], List.nil_prefix, rfl, fun h => by cases h⟩
          | ok next =>
              obtain ⟨applied, hprefix, hadded, hall⟩ := ih (n + 1) next
              refine ⟨a :: applied, List.cons_prefix_cons.mpr ⟨rfl, hprefix⟩, ?_, ?_⟩
              · rw [Catalog.addColumns, List.foldlM_cons, hfirst]
                exact hadded
              · intro h
                rw [hall h]

theorem applyAdditions_quiet {fault : Op → Option SubstrateError} (h : ∀ op, fault op = none)
    (n : ℕ) {additions : List Addition} {cat cat' : Catalog}
    (hadded : cat.addColumns additions = .ok cat') :
    applyAdditions fault n additions cat = (.ok (), cat') := by
  induction additions generalizing n cat with
  | nil =>
      obtain rfl := Except.ok.inj hadded
      rfl
  | cons a additions ih =>
      rw [Catalog.addColumns, List.foldlM_cons] at hadded
      rw [applyAdditions, h]
      cases hfirst : cat.addColumn a with
      | error err =>
          rw [hfirst] at hadded
          cases hadded
      | ok next =>
          rw [hfirst] at hadded
          exact ih (n + 1) hadded

theorem Catalog.addColumns_ok {cat : Catalog} {additions : List Addition}
    (htables : ∀ a ∈ additions, (cat.table a.table).isSome = true)
    (hnames : ∀ name t, cat.table name = some t →
      ((t.columns ++ (additionsTo name additions).map Addition.column).map fun c =>
        foldName c.name).Nodup) :
    ∃ cat', cat.addColumns additions = .ok cat' := by
  induction additions generalizing cat with
  | nil => exact ⟨cat, rfl⟩
  | cons a additions ih =>
      obtain ⟨t, ht⟩ := Option.isSome_iff_exists.mp (htables a List.mem_cons_self)
      have hfresh : foldName a.column.name ∉ t.columns.map fun c => foldName c.name := by
        intro hmem
        have hnodup := hnames a.table t ht
        rw [List.map_append] at hnodup
        refine (List.disjoint_of_nodup_append hnodup) hmem ?_
        simp [additionsTo]
      obtain ⟨next, hnext⟩ : ∃ next, cat.addColumn a = .ok next := by
        unfold Catalog.addColumn
        rw [ht]
        exact ⟨_, dif_neg hfresh⟩
      have hcolumns := Catalog.addColumn_columns hnext
      obtain ⟨cat', hcat'⟩ : ∃ cat', next.addColumns additions = .ok cat' := by
        apply ih
        · intro b hb
          have hsome := congrArg Option.isSome (hcolumns b.table)
          rw [Option.isSome_map, Option.isSome_map] at hsome
          rw [hsome]
          exact htables b (List.mem_cons_of_mem a hb)
        · intro name t' ht'
          have htable := hcolumns name
          rw [ht', Option.map_some, eq_comm, Option.map_eq_some_iff] at htable
          obtain ⟨u, hu, hcols⟩ := htable
          have hnodup := hnames name u hu
          rw [← hcols, List.append_assoc, ← List.map_append]
          rw [additionsTo] at hnodup ⊢
          rw [additionsTo, ← List.filter_append]
          exact hnodup
      refine ⟨cat', ?_⟩
      rw [Catalog.addColumns, List.foldlM_cons, hnext]
      exact hcat'

/-! ### The tables after -/

/-- Every collection's table, where it exists, has the shape its `CREATE TABLE` declares. -/
def ForgeSchema.ServedBy (schema : ForgeSchema) (cat : Catalog) : Prop :=
  ∀ c ∈ schema.collections, ∀ shape,
    readTableShape (cat.tableInfo c.table) c.table = some shape → c.expectedShape = some shape

def ForgeSchema.Unshared (schema : ForgeSchema) (cat : Catalog) : Prop :=
  schema.collections.Pairwise fun c d => foldName c.table = foldName d.table →
    c.additions cat = [] ∧ d.additions cat = []

def ForgeSchema.Distinct (schema : ForgeSchema) : Prop :=
  ∀ c ∈ schema.collections, ((c.keyColumn :: c.fields.map Prod.fst).map foldName).Nodup

def Catalog.SingleKeyed (cat : Catalog) : Prop :=
  ∀ name t, cat name = some t →
    ∀ c ∈ t.columns, ∀ d ∈ t.columns, c.pk ≠ 0 → d.pk ≠ 0 → c = d

theorem additionsTo_collection {c d : ForgeCollection} {cat : Catalog}
    (hfields : ∀ f ∈ d.fields, isSafeIdentifier f.1 = true) :
    additionsTo c.table (d.additions cat) =
      if foldName d.table = foldName c.table then d.additions cat else [] := by
  have htable : ∀ a ∈ d.additions cat, a.table = d.table := by
    intro a ha
    obtain ⟨t, shape, -, -, -, -, hmissing⟩ := ForgeCollection.mem_additions hfields ha
    rw [hmissing]
    rfl
  rw [additionsTo]
  split_ifs with hsame
  · refine List.filter_eq_self.mpr fun a ha => ?_
    simpa [htable a ha] using hsame
  · refine List.filter_eq_nil_iff.mpr fun a ha => ?_
    simpa [htable a ha] using hsame

theorem additionsTo_unshared {cat : Catalog} {cs : List ForgeCollection}
    (hfields : ∀ c ∈ cs, ∀ f ∈ c.fields, isSafeIdentifier f.1 = true)
    (hunshared : cs.Pairwise fun c d => foldName c.table = foldName d.table →
      c.additions cat = [] ∧ d.additions cat = []) {c : ForgeCollection} (hc : c ∈ cs) :
    additionsTo c.table (cs.flatMap fun d => d.additions cat) = c.additions cat := by
  induction cs with
  | nil => exact absurd hc List.not_mem_nil
  | cons d cs ih =>
      obtain ⟨hhead, htail⟩ := List.pairwise_cons.mp hunshared
      have hd := hfields d List.mem_cons_self
      have hcs : ∀ e ∈ cs, ∀ f ∈ e.fields, isSafeIdentifier f.1 = true :=
        fun e he => hfields e (List.mem_cons_of_mem d he)
      rw [List.flatMap_cons, additionsTo, List.filter_append]
      rcases List.mem_cons.mp hc with rfl | hc
      · have hself : additionsTo c.table (c.additions cat) = c.additions cat := by
          rw [additionsTo_collection hd, if_pos rfl]
        have hrest : additionsTo c.table (cs.flatMap fun e => e.additions cat) = [] := by
          refine List.filter_eq_nil_iff.mpr fun a ha => ?_
          obtain ⟨e, he, hae⟩ := List.mem_flatMap.mp ha
          by_contra hsame
          have hmem : a ∈ additionsTo c.table (e.additions cat) :=
            List.mem_filter.mpr ⟨hae, by simpa using hsame⟩
          rw [additionsTo_collection (hcs e he)] at hmem
          split_ifs at hmem with hfold
          · rw [(hhead e he hfold.symm).2] at hmem
            exact absurd hmem List.not_mem_nil
          · exact absurd hmem List.not_mem_nil
        rw [additionsTo] at hself hrest
        rw [hself, hrest, List.append_nil]
      · have hnone : additionsTo c.table (d.additions cat) = [] := by
          rw [additionsTo_collection hd]
          split_ifs with hfold
          · exact (hhead c hc hfold).1
          · rfl
        have hrest := ih hcs htail hc
        rw [additionsTo] at hnone hrest
        rw [hnone, hrest, List.nil_append]

theorem ForgeCollection.nodup_missing (c : ForgeCollection) (live : TableShape) :
    (keys (c.declaredShape.missing live)).Nodup :=
  Sorted.nodup_keys (c.declaredShape.columns.sorted.filter _)

theorem ForgeCollection.shape_of_added {c : ForgeCollection} {t t' : LiveTable}
    (hextends : Extends c.declaredShape (t.shape c.table))
    (hcolumns : t'.columns = t.columns ++
      ((c.declaredShape.missing (t.shape c.table)).map c.missing).map Addition.column) :
    t'.shape c.table = c.declaredShape := by
  have hnames : ((((c.declaredShape.missing (t.shape c.table)).map c.missing).map
      Addition.column).map LiveColumn.name).Nodup := by
    have hkeys := c.nodup_missing (t.shape c.table)
    simpa [keys, Function.comp_def, Addition.column, missing] using hkeys
  have hpk : ∀ d ∈ ((c.declaredShape.missing (t.shape c.table)).map c.missing).map
      Addition.column, d.pk = 0 := by
    intro d hd
    obtain ⟨a, -, rfl⟩ := List.mem_map.mp hd
    rfl
  have hget : (t'.shape c.table).columns = c.declaredShape.columns := by
    refine OrderedMap.ext_get fun field => ?_
    have happend := (@shapeOf_append t.columns _ hpk hnames field).2
    have hadded : ((((c.declaredShape.missing (t.shape c.table)).map c.missing).map
        Addition.column).map fun d => (d.name, d.shape)).lookup field =
        if ((t.shape c.table).columns.get field).isNone then
          (c.declaredShape.columns.get field).map fun w => ⟨upperName w.sqlType.toList, false⟩
        else none := by
      rw [List.map_map, List.map_map]
      refine (lookup_map (fun w : ColumnShape => (⟨upperName w.sqlType.toList, false⟩ : ColumnShape))
        field _).trans ?_
      rw [TableShape.missing,
        lookup_filter fun name => ((t.shape c.table).columns.get name).isNone]
      split_ifs <;> rfl
    rw [LiveTable.shape, hcolumns, happend, hadded]
    cases hlive : (t.shape c.table).columns.get field with
    | some shape =>
        rw [hextends.held field shape hlive]
        exact hlive
    | none =>
        have hlive' : (shapeOf t.columns).2.get field = none := hlive
        rw [hlive', Option.or_none, Option.isNone_none, if_pos rfl]
        cases hwant : c.declaredShape.columns.get field with
        | none => rfl
        | some want =>
            have hnull := hextends.nullable field want hwant hlive
            rw [c.get_declaredShape, Option.map_eq_some_iff] at hwant
            obtain ⟨spec, -, rfl⟩ := hwant
            rw [Option.map_some, FieldSpec.shape, upperName_sqlType, ← hnull]
            rfl
  have hkey : (t'.shape c.table).key = c.declaredShape.key := by
    have happend := (@shapeOf_append t.columns _ hpk hnames "").1
    rw [LiveTable.shape, hcolumns, happend]
    exact hextends.key.symm
  have htable : (t'.shape c.table).table = c.declaredShape.table := rfl
  cases hlive : t'.shape c.table with
  | mk table key columns =>
      cases hdeclared : c.declaredShape with
      | mk table' key' columns' =>
          rw [hlive, hdeclared] at hget hkey htable
          rw [TableShape.mk.injEq]
          exact ⟨htable, hkey, hget⟩

theorem ForgeCollection.plan_settled {c : ForgeCollection} {cat : Catalog}
    (hfields : ∀ f ∈ c.fields, isSafeIdentifier f.1 = true)
    (h : ∀ t, cat.table c.table = some t → t.shape c.table = c.declaredShape) :
    c.additions cat = [] ∧ c.drift cat = [] := by
  cases htable : cat.table c.table with
  | none => exact plan_absent htable
  | some t =>
      have hshape := h t htable
      have hself : Extends c.declaredShape (t.shape c.table) := by
        rw [hshape]
        refine ⟨rfl, fun field shape h => h, fun field shape hsome hnone => ?_⟩
        rw [hsome] at hnone
        cases hnone
      rcases plan_present hfields htable with ⟨hnot, -⟩ | ⟨-, hdrift, hadditions⟩
      · exact absurd hself hnot
      · refine ⟨?_, hdrift⟩
        rw [hadditions, hshape, List.map_eq_nil_iff]
        refine List.filter_eq_nil_iff.mpr fun e he => ?_
        simp [OrderedMap.mem_entries.mp he]

theorem ForgeSchema.settled_of_added {schema : ForgeSchema} (hdeclared : schema.Declared)
    {cat cat' : Catalog} (hunshared : schema.Unshared cat) (hdrift : schema.drift cat = [])
    (hadded : cat.addColumns (schema.additions cat) = .ok cat') :
    ∀ c ∈ schema.collections, ∀ t', cat'.table c.table = some t' →
      t'.shape c.table = c.declaredShape := by
  intro c hc t' ht'
  have hcolumns := Catalog.addColumns_columns hadded c.table
  rw [ht', Option.map_some, eq_comm, Option.map_eq_some_iff] at hcolumns
  obtain ⟨t, ht, hcols⟩ := hcolumns
  have hnone : c.drift cat = [] := List.flatMap_eq_nil_iff.mp hdrift c hc
  rcases c.plan_present (hdeclared c hc) ht with ⟨-, -, hsome⟩ | ⟨hextends, -, hadditions⟩
  · exact absurd hnone hsome
  · refine c.shape_of_added hextends ?_
    rw [← hcols, ForgeSchema.additions, additionsTo_unshared hdeclared hunshared hc, hadditions]

/-! ### No statement is refused -/

theorem get_foldl_addLive {columns : List LiveColumn} {field : String}
    {shape : Option String × OrderedMap String ColumnShape}
    (h : (shape.2.get field).isSome = true ∨ ∃ c ∈ columns, c.pk = 0 ∧ c.name = field) :
    ((columns.foldl addLive shape).2.get field).isSome = true := by
  induction columns generalizing shape with
  | nil =>
      rcases h with h | ⟨c, hc, -⟩
      · exact h
      · exact absurd hc List.not_mem_nil
  | cons c columns ih =>
      apply ih
      rcases h with h | ⟨d, hd, hpk, hname⟩
      · refine .inl ?_
        unfold addLive
        split_ifs
        · exact h
        · rw [OrderedMap.get_insert]
          split_ifs
          · rfl
          · exact h
      · rcases List.mem_cons.mp hd with rfl | hd
        · refine .inl ?_
          simp [addLive, hpk, OrderedMap.get_insert, hname]
        · exact .inr ⟨d, hd, hpk, hname⟩

theorem key_foldl_addLive {columns : List LiveColumn} {name : String}
    (hall : ∀ c ∈ columns, c.pk ≠ 0 → c.name = name)
    {shape : Option String × OrderedMap String ColumnShape}
    (h : shape.1 = some name ∨ ∃ c ∈ columns, c.pk ≠ 0) :
    (columns.foldl addLive shape).1 = some name := by
  induction columns generalizing shape with
  | nil =>
      rcases h with h | ⟨c, hc, -⟩
      · exact h
      · exact absurd hc List.not_mem_nil
  | cons c columns ih =>
      apply ih fun d hd => hall d (List.mem_cons_of_mem c hd)
      by_cases hpk : c.pk = 0
      · have hadd : (addLive shape c).1 = shape.1 := by simp [addLive, hpk]
        rw [hadd]
        refine h.imp_right fun ⟨d, hd, hne⟩ => ⟨d, ?_, hne⟩
        exact (List.mem_cons.mp hd).resolve_left fun hdc => hne (hdc ▸ hpk)
      · exact .inl (by simp [addLive, hpk, hall c List.mem_cons_self hpk])

theorem ForgeCollection.nodup_added {c : ForgeCollection} {t : LiveTable}
    (hdistinct : ((c.keyColumn :: c.fields.map Prod.fst).map foldName).Nodup)
    (hsingle : ∀ d ∈ t.columns, ∀ e ∈ t.columns, d.pk ≠ 0 → e.pk ≠ 0 → d = e)
    (hextends : Extends c.declaredShape (t.shape c.table)) :
    ((t.columns.map LiveColumn.name ++ keys (c.declaredShape.missing (t.shape c.table))).map
      foldName).Nodup := by
  have hfield : ∀ name shape, c.declaredShape.columns.get name = some shape →
      name ∈ c.fields.map Prod.fst := by
    intro name shape hget
    rw [c.get_declaredShape, Option.map_eq_some_iff] at hget
    obtain ⟨spec, hlookup, -⟩ := hget
    exact mem_keys_of_lookup hlookup
  have hmissing : ∀ name ∈ keys (c.declaredShape.missing (t.shape c.table)),
      name ∈ c.fields.map Prod.fst ∧ (t.shape c.table).columns.get name = none := by
    intro name hname
    obtain ⟨shape, hmem⟩ := mem_keys.mp hname
    obtain ⟨hexpected, hlive⟩ := List.mem_filter.mp hmem
    exact ⟨hfield name shape (OrderedMap.mem_entries.mp hexpected), by simpa using hlive⟩
  have hkey : ∀ d ∈ t.columns, d.pk ≠ 0 → d.name = c.keyColumn := by
    intro d hd hpk
    have hlive : (t.shape c.table).key = some d.name :=
      key_foldl_addLive (fun e he hne => congrArg LiveColumn.name (hsingle e he d hd hne hpk))
        (.inr ⟨d, hd, hpk⟩)
    rw [← hextends.key] at hlive
    exact (Option.some.inj hlive).symm
  have hheld : ∀ d ∈ t.columns, d.pk = 0 →
      ((t.shape c.table).columns.get d.name).isSome = true :=
    fun d hd hpk => get_foldl_addLive (.inr ⟨d, hd, hpk, rfl⟩)
  have hcolumn : ∀ name ∈ t.columns.map LiveColumn.name,
      name ∈ c.keyColumn :: c.fields.map Prod.fst := by
    intro name hname
    obtain ⟨d, hd, rfl⟩ := List.mem_map.mp hname
    by_cases hpk : d.pk = 0
    · obtain ⟨shape, hshape⟩ := Option.isSome_iff_exists.mp (hheld d hd hpk)
      exact List.mem_cons_of_mem _ (hfield _ _ (hextends.held _ _ hshape))
    · rw [hkey d hd hpk]
      exact List.mem_cons_self
  have hnames : (t.columns.map LiveColumn.name).Nodup := by
    have hfolded := t.names
    rw [← Function.comp_def, ← List.map_map] at hfolded
    exact hfolded.of_map
  refine List.Nodup.map_on ?_ (List.nodup_append.mpr ⟨hnames, c.nodup_missing _, ?_⟩)
  · have hmem : ∀ name ∈ t.columns.map LiveColumn.name ++
        keys (c.declaredShape.missing (t.shape c.table)),
        name ∈ c.keyColumn :: c.fields.map Prod.fst := by
      intro name hname
      rcases List.mem_append.mp hname with hname | hname
      · exact hcolumn name hname
      · exact List.mem_cons_of_mem _ (hmissing name hname).1
    intro x hx y hy hxy
    exact List.inj_on_of_nodup_map hdistinct (hmem x hx) (hmem y hy) hxy
  · rintro name hname _ hother rfl
    obtain ⟨d, hd, rfl⟩ := List.mem_map.mp hname
    obtain ⟨hdeclared, hnone⟩ := hmissing _ hother
    by_cases hpk : d.pk = 0
    · have hsome := hheld d hd hpk
      rw [hnone] at hsome
      cases hsome
    · rw [hkey d hd hpk] at hdeclared
      exact c.key_fresh hdeclared

theorem ForgeSchema.addColumns_ok {schema : ForgeSchema} (hdeclared : schema.Declared)
    {cat : Catalog} (hunshared : schema.Unshared cat) (hdistinct : schema.Distinct)
    (hsingle : cat.SingleKeyed) : ∃ cat', cat.addColumns (schema.additions cat) = .ok cat' := by
  apply Catalog.addColumns_ok
  · intro a ha
    obtain ⟨c, hc, hac⟩ := List.mem_flatMap.mp ha
    obtain ⟨t, shape, ht, -, -, -, hmissing⟩ := c.mem_additions (hdeclared c hc) hac
    rw [hmissing]
    exact Option.isSome_of_eq_some ht
  · intro name t ht
    cases hto : additionsTo name (schema.additions cat) with
    | nil => simpa using t.names
    | cons a rest =>
        have hmem : a ∈ additionsTo name (schema.additions cat) := hto ▸ List.mem_cons_self
        obtain ⟨ha, hname⟩ := List.mem_filter.mp hmem
        obtain ⟨c, hc, hac⟩ := List.mem_flatMap.mp ha
        obtain ⟨t', shape, ht', -, -, -, hmissing⟩ := c.mem_additions (hdeclared c hc) hac
        have hfold : foldName c.table = foldName name := by
          have hto : foldName a.table = foldName name := by simpa using hname
          rw [hmissing] at hto
          exact hto
        have htable : cat.table c.table = some t := by
          rw [Catalog.table, hfold]
          exact ht
        have hadditions : additionsTo name (schema.additions cat) = c.additions cat := by
          rw [← additionsTo_unshared hdeclared hunshared hc, additionsTo, additionsTo, hfold]
          rfl
        rw [← hto, hadditions]
        rcases c.plan_present (hdeclared c hc) htable with ⟨-, hnone, -⟩ | ⟨hextends, -, hplan⟩
        · rw [hnone]
          simpa using t.names
        · have hnodup := c.nodup_added (hdistinct c hc) (hsingle _ t ht) hextends
          rw [hplan]
          simpa [keys, Function.comp_def, Addition.column, ForgeCollection.missing] using hnodup

/-! ### A whole evolution -/

theorem evolveSchema_cases (fault : Op → Option SubstrateError) (schema : ForgeSchema)
    (cat : Catalog) :
    (∃ err, planSchema fault cat schema.collections = .error err ∧
      evolveSchema fault schema cat = (.error (.substrate err), cat)) ∨
    (schema.drift cat ≠ [] ∧
      evolveSchema fault schema cat = (.error (.drift (schema.drift cat)), cat)) ∨
    (schema.drift cat = [] ∧
      evolveSchema fault schema cat =
        match applyAdditions fault 0 (schema.additions cat) cat with
        | (.error err, cat') => (.error (.substrate err), cat')
        | (.ok (), cat') => (.ok (schema.additions cat), cat')) := by
  unfold evolveSchema
  cases hplan : planSchema fault cat schema.collections with
  | error err => exact .inl ⟨err, rfl, rfl⟩
  | ok plan =>
      obtain rfl := planSchema_ok hplan
      refine .inr ?_
      cases hdrift : (schema.collections.flatMap fun c => c.drift cat) with
      | nil => exact .inr ⟨hdrift, rfl⟩
      | cons d rest =>
          have hne : schema.drift cat ≠ [] := by
            rw [ForgeSchema.drift, hdrift]
            exact List.cons_ne_nil _ _
          exact .inl ⟨hne, by rw [ForgeSchema.drift, hdrift]; rfl⟩

theorem evolveSchema_settled {schema : ForgeSchema} (hdeclared : schema.Declared) {cat : Catalog}
    (h : ∀ c ∈ schema.collections, ∀ t, cat.table c.table = some t →
      t.shape c.table = c.declaredShape)
    {fault : Op → Option SubstrateError} (hquiet : ∀ topic, fault (.read topic) = none) :
    evolveSchema fault schema cat = (.ok [], cat) := by
  have hsettled : ∀ c ∈ schema.collections, c.additions cat = [] ∧ c.drift cat = [] :=
    fun c hc => c.plan_settled (hdeclared c hc) (h c hc)
  have hadditions : (schema.collections.flatMap fun c => c.additions cat) = [] :=
    List.flatMap_eq_nil_iff.mpr fun c hc => (hsettled c hc).1
  have hdrift : (schema.collections.flatMap fun c => c.drift cat) = [] :=
    List.flatMap_eq_nil_iff.mpr fun c hc => (hsettled c hc).2
  rw [evolveSchema, planSchema_quiet hquiet, hadditions, hdrift]
  rfl

theorem evolveSchema_drift {fault : Op → Option SubstrateError} {schema : ForgeSchema}
    {cat : Catalog} {drift : List CollectionDrift}
    (h : (evolveSchema fault schema cat).1 = .error (.drift drift)) :
    (evolveSchema fault schema cat).2 = cat := by
  rcases evolveSchema_cases fault schema cat with ⟨err, -, heq⟩ | ⟨-, heq⟩ | ⟨-, heq⟩
  · rw [heq]
  · rw [heq]
  · rw [heq] at h
    split at h <;> cases h

theorem evolveSchema_substrate {fault : Op → Option SubstrateError} {schema : ForgeSchema}
    {cat : Catalog} {err : SubstrateError}
    (h : (evolveSchema fault schema cat).1 = .error (.substrate err)) :
    ∃ applied, applied <+: schema.additions cat ∧
      cat.addColumns applied = .ok (evolveSchema fault schema cat).2 := by
  obtain ⟨applied, hprefix, happlied, -⟩ := applyAdditions_spec fault 0 (schema.additions cat) cat
  rcases evolveSchema_cases fault schema cat with ⟨err, -, heq⟩ | ⟨-, heq⟩ | ⟨-, heq⟩
  · rw [heq]
    exact ⟨[], List.nil_prefix, rfl⟩
  · rw [heq] at h
    cases h
  · rw [heq] at h ⊢
    split at h
    · next cat' hresult =>
        rw [hresult] at happlied
        exact ⟨applied, hprefix, happlied⟩
    · cases h

theorem evolveSchema_ok {fault : Op → Option SubstrateError} {schema : ForgeSchema}
    {cat : Catalog} {additions : List Addition}
    (h : (evolveSchema fault schema cat).1 = .ok additions) :
    schema.drift cat = [] ∧ additions = schema.additions cat ∧
      cat.addColumns additions = .ok (evolveSchema fault schema cat).2 := by
  obtain ⟨applied, -, happlied, hall⟩ := applyAdditions_spec fault 0 (schema.additions cat) cat
  rcases evolveSchema_cases fault schema cat with ⟨err, -, heq⟩ | ⟨-, heq⟩ | ⟨hdrift, heq⟩
  · rw [heq] at h
    cases h
  · rw [heq] at h
    cases h
  · rw [heq] at h ⊢
    split at h
    · cases h
    · next cat' hresult =>
        rw [hresult] at happlied hall
        obtain rfl := Except.ok.inj h
        rw [hall rfl] at happlied
        exact ⟨hdrift, rfl, happlied⟩

theorem evolveSchema_complete {fault : Op → Option SubstrateError} {schema : ForgeSchema}
    (hdeclared : schema.Declared) {cat : Catalog} (hunshared : schema.Unshared cat)
    {additions : List Addition} (h : (evolveSchema fault schema cat).1 = .ok additions) :
    schema.ServedBy (evolveSchema fault schema cat).2 ∧
      ∀ fault', (∀ topic, fault' (.read topic) = none) →
        evolveSchema fault' schema (evolveSchema fault schema cat).2 =
          (.ok [], (evolveSchema fault schema cat).2) := by
  obtain ⟨hdrift, rfl, hadded⟩ := evolveSchema_ok h
  have hsettled := schema.settled_of_added hdeclared hunshared hdrift hadded
  refine ⟨?_, fun fault' hquiet => evolveSchema_settled hdeclared hsettled hquiet⟩
  intro c hc shape hshape
  rw [readTableShape_tableInfo, Option.map_eq_some_iff] at hshape
  obtain ⟨t, ht, rfl⟩ := hshape
  rw [c.expectedShape_eq (hdeclared c hc), hsettled c hc t ht]

theorem evolveSchema_succeeds_or_refuses {fault : Op → Option SubstrateError}
    {schema : ForgeSchema} (hdeclared : schema.Declared) {cat : Catalog}
    (hunshared : schema.Unshared cat) (hdistinct : schema.Distinct) (hsingle : cat.SingleKeyed)
    (hquiet : ∀ op, fault op = none) (err : SubstrateError) :
    (evolveSchema fault schema cat).1 ≠ .error (.substrate err) := by
  intro h
  obtain ⟨cat', hok⟩ := schema.addColumns_ok hdeclared hunshared hdistinct hsingle
  rcases evolveSchema_cases fault schema cat with ⟨err, hplan, -⟩ | ⟨-, heq⟩ | ⟨-, heq⟩
  · rw [planSchema_quiet fun topic => hquiet (.read topic)] at hplan
    cases hplan
  · rw [heq] at h
    cases h
  · rw [heq, applyAdditions_quiet hquiet 0 hok] at h
    cases h

theorem isSafeIdentifier_id : isSafeIdentifier "id" = true := by decide

def diaryOf (topic : String) : ForgeCollection where
  topic := topic
  table := "diary"
  keyColumn := "id"
  fields := [("mood", ⟨.text, true⟩), ("weather", ⟨.text, true⟩)]
  orderBy := [⟨"id", .asc⟩]
  sort := [⟨"id", .asc⟩]
  partitionBy := none
  identityPartitioned := false
  edit := .author
  table_safe := by decide
  key_safe := isSafeIdentifier_id
  key_fresh := by decide
  fields_nodup := by decide
  partition_declared := nofun
  sort_head _ hk _ := hk

def diarySchema : ForgeSchema := ⟨[diaryOf "diary"], List.pairwise_singleton _ _⟩

def bareDiary : LiveTable where
  columns := [⟨"id", "INTEGER", false, 1⟩]
  not_empty := List.cons_ne_nil _ _
  names := List.nodup_singleton _

def bareCatalog : Catalog := fun name => if name = "diary" then some bareDiary else none

/-- A substrate on which the second `ALTER` fails. -/
def busyAtSecond : Op → Option SubstrateError
  | .statement 1 => some (.migration "database is locked")
  | _ => none

/-- Two collections in front of the one table. -/
def sharedSchema : ForgeSchema := ⟨[diaryOf "journal", diaryOf "diary"], by decide⟩

theorem diary_declared : diarySchema.Declared := by
  unfold ForgeSchema.Declared
  decide

end Albedo.Forge
