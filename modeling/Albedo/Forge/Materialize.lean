import Albedo.Forge.Rows

/-!
# What a read materialises

`materializeSlot` on a deployed table: the rows of the channel, in the order of the
query, each as the object of its selected columns. Where the ordering begins with the
row key it is the order of the keys.
-/
namespace Albedo.Forge
open Json Broadcast KeyedList Fallible

/-! ### Objects of columns -/

/-- The entries of an object that gives each of the names its value under `f`. -/
def entriesOf (f : String → Value) (names : List String) : Fields :=
  (names.map fun name => (name, f name)).foldl (fun fields p => Fields.insert p.1 p.2 fields) []

theorem collectObject_map (f : String → Value) (names : List String) :
    collectObject (names.map fun name => (name, f name)) = .object (entriesOf f names) := rfl

theorem Fields.mem_insert_iff {key : String} {value : Value} {fields : Fields}
    (hs : fields.Sorted) {g : String × Value} :
    g ∈ fields.insert key value ↔ g = (key, value) ∨ g ∈ fields ∧ g.1 ≠ key := by
  induction fields with
  | nil => simp [Fields.insert]
  | cons f rest ih =>
      obtain ⟨k, v⟩ := f
      obtain ⟨hhead, hrest⟩ := List.pairwise_cons.mp hs
      have hne : ∀ g ∈ rest, g.1 ≠ k := fun g hg => (ne_of_lt (hhead g hg)).symm
      unfold Fields.insert
      split_ifs with heq hlt
      · subst heq
        simp only [List.mem_cons]
        constructor
        · rintro (rfl | hg)
          · exact Or.inl rfl
          · exact Or.inr ⟨Or.inr hg, hne g hg⟩
        · rintro (rfl | ⟨rfl | hg, hgk⟩)
          · exact Or.inl rfl
          · exact absurd rfl hgk
          · exact Or.inr hg
      · simp only [List.mem_cons]
        constructor
        · rintro (rfl | rfl | hg)
          · exact Or.inl rfl
          · exact Or.inr ⟨Or.inl rfl, Ne.symm heq⟩
          · exact Or.inr ⟨Or.inr hg, (ne_of_lt (lt_trans hlt (hhead g hg))).symm⟩
        · rintro (rfl | ⟨hg, _⟩)
          · exact Or.inl rfl
          · exact Or.inr hg
      · simp only [List.mem_cons, ih hrest]
        constructor
        · rintro (rfl | rfl | ⟨hg, hgk⟩)
          · exact Or.inr ⟨Or.inl rfl, Ne.symm heq⟩
          · exact Or.inl rfl
          · exact Or.inr ⟨Or.inr hg, hgk⟩
        · rintro (rfl | ⟨rfl | hg, hgk⟩)
          · exact Or.inr (Or.inl rfl)
          · exact Or.inl rfl
          · exact Or.inr (Or.inr ⟨hg, hgk⟩)

theorem entriesOf_spec (f : String → Value) (names : List String) :
    (entriesOf f names).Sorted ∧
      ∀ g : String × Value, g ∈ entriesOf f names ↔ g.1 ∈ names ∧ g.2 = f g.1 := by
  -- along the fold, the entries are sorted and give their names the values of `f`
  suffices h : ∀ (acc : Fields) (seen : List String), acc.Sorted →
      (∀ g : String × Value, g ∈ acc ↔ g.1 ∈ seen ∧ g.2 = f g.1) →
      Fields.Sorted ((names.map fun name => (name, f name)).foldl
        (fun fields p => Fields.insert p.1 p.2 fields) acc) ∧
      ∀ g : String × Value, g ∈ (names.map fun name => (name, f name)).foldl
        (fun fields p => Fields.insert p.1 p.2 fields) acc ↔
          (g.1 ∈ seen ∨ g.1 ∈ names) ∧ g.2 = f g.1 by
    simpa [entriesOf] using h [] [] (by simp [Fields.Sorted]) (by simp)
  induction names with
  | nil => exact fun acc seen hs hacc => ⟨hs, fun g => by simpa using hacc g⟩
  | cons name names ih =>
      intro acc seen hs hacc
      have hstep : ∀ g : String × Value, g ∈ Fields.insert name (f name) acc ↔
          g.1 ∈ name :: seen ∧ g.2 = f g.1 := by
        intro g
        obtain ⟨k, v⟩ := g
        rw [Fields.mem_insert_iff hs, hacc]
        by_cases hk : k = name
        · subst hk
          simp
        · simp [hk]
      obtain ⟨hsorted, hmem⟩ := ih _ (name :: seen) (Fields.insert_sorted name (f name) hs) hstep
      refine ⟨hsorted, fun g => ?_⟩
      rw [List.map_cons, List.foldl_cons, hmem g]
      simp only [List.mem_cons]
      tauto

/-- Two objects that give their names the values of one function are equal exactly when
they have the same names. -/
theorem entriesOf_eq_iff (f : String → Value) (names names' : List String) :
    entriesOf f names = entriesOf f names' ↔ ∀ name, name ∈ names ↔ name ∈ names' := by
  obtain ⟨hs, hmem⟩ := entriesOf_spec f names
  obtain ⟨hs', hmem'⟩ := entriesOf_spec f names'
  constructor
  · intro h name
    have hiff := hmem (name, f name)
    rw [h, hmem'] at hiff
    simpa using hiff.symm
  · intro h
    refine KeyedList.Sorted.ext hs hs' fun g => ?_
    rw [hmem, hmem', h]

theorem lookup_entriesOf {f : String → Value} {names : List String} {name : String}
    (h : name ∈ names) : (entriesOf f names).lookup name = some (f name) := by
  obtain ⟨hs, hmem⟩ := entriesOf_spec f names
  exact lookup_of_mem (KeyedList.Sorted.nodup_keys hs) ((hmem (name, f name)).mpr ⟨h, rfl⟩)

/-! ### The rows of a channel -/

def ForgeCollection.selected (c : ForgeCollection) : List String :=
  c.keyColumn :: c.fields.map Prod.fst

def ForgeCollection.columnOf (c : ForgeCollection) (name : String) : Column :=
  if name = c.keyColumn then .key else .field name

def ForgeCollection.cell (c : ForgeCollection) (row : Row) (name : String) : Value :=
  columnValueToJson (row.value (c.columnOf name)) (c.typeOf name)

def ForgeCollection.recordOf (c : ForgeCollection) (row : Row) : Value :=
  .object (entriesOf (c.cell row) c.selected)

def ForgeCollection.shows (c : ForgeCollection) (engine : Engine) (partition : Option String)
    (row : Row) : Bool :=
  match c.partitionBy, partition with
  | some column, some key =>
      engine.equals ((c.typeOf column).getD .text) (row.cells column) (.text key)
  | _, _ => true

def ForgeCollection.channelRows (c : ForgeCollection) (engine : Engine) (partition : Option String)
    (t : Table) : List Row :=
  t.rows.filter (c.shows engine partition)

/-- Rows in ascending order of their keys, in the given direction. -/
def SortDir.arrange (dir : SortDir) (rows : List Row) : List Row :=
  match dir with
  | .asc => rows
  | .desc => rows.reverse

/-! ### The order of the keys -/

theorem orderLe_refl (engine : Engine) (order : List (Column × SortDir)) (r : Row) :
    orderLe engine order r r = true := by
  induction order with
  | nil => rfl
  | cons o rest ih =>
      have hle : engine.le (r.value o.1) (r.value o.1) = true := by
        simpa using engine.le_total (r.value o.1) (r.value o.1)
      simp [orderLe, hle, ih]

theorem orderLe_key {engine : Engine} {dir : SortDir} {rest : List (Column × SortDir)} {r s : Row}
    (h : r.key ≠ s.key) : orderLe engine ((.key, dir) :: rest) r s = true ↔
      match dir with
      | .asc => r.key ≤ s.key
      | .desc => s.key ≤ r.key := by
  have hboth : (engine.le (.integer r.key) (.integer s.key) &&
      engine.le (.integer s.key) (.integer r.key)) = false := by
    rw [engine.le_integer, engine.le_integer, ← Bool.decide_and, decide_eq_false_iff_not]
    omega
  unfold orderLe
  simp only [Row.value, hboth, Bool.false_eq_true, if_false]
  cases dir <;> simp [engine.le_integer]

theorem insertionSort_key {engine : Engine} {dir : SortDir} {rest : List (Column × SortDir)}
    {rows : List Row} (hsorted : rows.Pairwise fun r s => r.key < s.key) :
    rows.insertionSort (fun r s => orderLe engine ((.key, dir) :: rest) r s = true) =
      dir.arrange rows := by
  cases dir with
  | asc =>
      refine List.Pairwise.insertionSort_eq (hsorted.imp fun {r s} hlt => ?_)
      exact (orderLe_key (ne_of_lt hlt)).mpr (le_of_lt hlt)
  | desc =>
      -- the rows compare as their keys do, and those are all different
      let le : Row → Row → Prop := fun r s => s.key ≤ r.key
      have hle : ∀ r ∈ rows, ∀ s ∈ rows,
          orderLe engine ((.key, .desc) :: rest) r s = true ↔ le r s := by
        intro r hr s hs
        by_cases hkey : r.key = s.key
        · have hkeys : (rows.map Row.key).Nodup :=
            (List.pairwise_map.mpr hsorted).imp fun hlt => ne_of_lt hlt
          obtain rfl := List.inj_on_of_nodup_map hkeys hr hs hkey
          exact iff_of_true (orderLe_refl _ _ _) (le_refl _)
        · exact orderLe_key hkey
      have hmap := List.map_insertionSort
        (fun r s => orderLe engine ((.key, .desc) :: rest) r s = true) le id rows hle
      rw [List.map_id, List.map_id] at hmap
      rw [hmap]
      have : IsTrans Row le := ⟨fun _ _ _ hab hbc => le_trans hbc hab⟩
      have : Std.Total le := ⟨fun a b => le_total b.key a.key⟩
      have hreverse : rows.reverse.Pairwise le :=
        List.pairwise_reverse.mpr (hsorted.imp fun hlt => le_of_lt hlt)
      refine List.Perm.eq_of_pairwise (fun a b ha hb hab hba => ?_)
        (List.pairwise_insertionSort le rows) hreverse
        ((List.perm_insertionSort le rows).trans (List.reverse_perm rows).symm)
      have hkeys : (rows.map Row.key).Nodup :=
        (List.pairwise_map.mpr hsorted).imp fun hlt => ne_of_lt hlt
      exact List.inj_on_of_nodup_map hkeys ((List.mem_insertionSort le).mp ha)
        (List.mem_reverse.mp hb) (le_antisymm hba hab)

/-! ### The read -/

theorem Table.resolveAll_of {t : Table} {missing : String → String} {names : List String}
    {cols : List Column} (h : names.mapM t.resolve = some cols) :
    t.resolveAll missing names = .ok cols := by
  have hresolved := resolved_of_mapM h
  clear h
  induction hresolved with
  | nil => rfl
  | cons hname _ ih =>
      unfold Table.resolveAll
      rw [hname, ih]
      rfl

section
variable {substrate : Substrate} {op : Op} {db : Db} {c : ForgeCollection}
variable {partition : Option String} {t : Table}

def ForgeCollection.Declares (c : ForgeCollection) (t : Table) : Prop :=
  t.key = c.keyColumn ∧ t.fields = c.fields

theorem ForgeCollection.Declares.resolve (h : c.Declares t) {name : String} (hname : name ∈ c.selected) :
    t.resolve name = some (c.columnOf name) := by
  obtain ⟨hkey, hfields⟩ := h
  unfold ForgeCollection.columnOf
  split_ifs with heq
  · rw [heq, ← hkey, t.resolve_key]
  · refine Table.resolve_field ?_
    rw [hfields]
    exact (List.mem_cons.mp hname).resolve_left heq

theorem ForgeCollection.Declares.nameOf (h : c.Declares t) (name : String) :
    t.nameOf (c.columnOf name) = name := by
  unfold ForgeCollection.columnOf
  split_ifs with heq
  · exact h.1.trans heq.symm
  · rfl

theorem mapM_resolve {names : List String} {g : String → Column}
    (h : ∀ name ∈ names, t.resolve name = some (g name)) :
    names.mapM t.resolve = some (names.map g) := by
  induction names with
  | nil => rfl
  | cons name names ih =>
      rw [List.mapM_cons, h name (by simp), ih fun n hn => h n (by simp [hn])]
      rfl

theorem rowsToJson_eq (h : c.Declares t) (rows : List Row) :
    rowsToJson ⟨(c.selected.map c.columnOf).map t.nameOf,
        rows.map fun r => (c.selected.map c.columnOf).map r.value⟩ c.typeOf =
      .array (rows.map c.recordOf) := by
  have hnames : (c.selected.map c.columnOf).map t.nameOf = c.selected := by
    rw [List.map_map]
    exact List.map_id'' h.nameOf _
  have hrow : ∀ r : Row, (c.selected.zip ((c.selected.map c.columnOf).map r.value)).map
      (fun p => (p.1, columnValueToJson p.2 (c.typeOf p.1))) =
        c.selected.map fun name => (name, c.cell r name) := by
    intro r
    have hzip := List.zip_map' (f := id) (g := r.value ∘ c.columnOf) (l := c.selected)
    rw [List.map_id] at hzip
    rw [List.map_map, hzip, List.map_map]
    rfl
  unfold rowsToJson
  rw [hnames, List.map_map]
  refine congrArg Value.array (List.map_congr_left fun r _ => ?_)
  rw [Function.comp_apply, hrow, collectObject_map]
  rfl

theorem selectFilter_eq (h : c.Declares t) {params : List SqlValue}
    (hparams : partitionParams c partition = .ok params) :
    ∃ filter, t.selectFilter c.query params = .ok filter ∧
      ∀ engine order, t.selectRows engine filter order =
        (c.channelRows engine partition t).insertionSort fun r s =>
          orderLe engine order r s = true := by
  unfold partitionParams at hparams
  unfold Table.selectFilter ForgeCollection.query Table.selectRows ForgeCollection.channelRows
  cases hcolumn : c.partitionBy with
  | none =>
      cases partition with
      | some key => simp [hcolumn] at hparams
      | none =>
          refine ⟨none, rfl, fun engine order => ?_⟩
          rw [List.filter_eq_self.mpr fun row _ => by simp [ForgeCollection.shows, hcolumn]]
  | some column =>
      cases partition with
      | none => simp [hcolumn] at hparams
      | some key =>
          obtain rfl : [SqlValue.text key] = params := by simpa [hcolumn] using hparams
          have hfield := c.partition_declared column hcolumn
          have hresolve : t.resolve column = some (.field column) :=
            Table.resolve_field (h.2 ▸ hfield)
          refine ⟨some (.field column, .text key), by simp [hresolve], fun engine order => ?_⟩
          have hshows : c.shows engine (some key) =
              t.passes engine (.field column) (.text key) := by
            funext row
            simp [ForgeCollection.shows, hcolumn, Table.passes, Table.typeOf, h.2,
              ForgeCollection.typeOf]
          rw [hshows]

theorem materializeSlot_eq (h : c.Declares t) (ht : db.table c.table = some t)
    {params : List SqlValue} (hparams : partitionParams c partition = .ok params)
    {cols : List Column} (hcols : (c.orderBy.map SortKey.column).mapM t.resolve = some cols)
    (hfault : substrate.fault op = none) :
    materializeSlot substrate op db c partition = .ok (Value.array
      (((c.channelRows substrate.engine partition t).insertionSort fun r s =>
        orderLe substrate.engine (cols.zip (c.orderBy.map SortKey.dir)) r s = true).map
          c.recordOf)).encode := by
  obtain ⟨filter, hfilter, hrows⟩ := selectFilter_eq h hparams
  have hselected : t.resolveAll (fun name => s!"no such column: {name}") c.query.columns =
      .ok (c.selected.map c.columnOf) :=
    Table.resolveAll_of (mapM_resolve fun name hname => h.resolve hname)
  have horder : t.resolveAll (fun name => s!"no such column: {name}")
      (c.query.orderBy.map SortKey.column) = .ok cols := Table.resolveAll_of hcols
  have hnamed : db.named c.query.table = .ok t := by
    unfold Db.named ForgeCollection.query
    rw [ht]
  unfold materializeSlot Substrate.query Sql.run Table.select
  rw [hparams, hfault]
  simp only [hnamed, hselected, hfilter, horder, bind, Except.bind, pure, Except.pure, Except.map]
  rw [rowsToJson_eq h, hrows]
  rfl

theorem materializeSlot_ok {bytes : List Char} (h : c.Declares t)
    (ht : db.table c.table = some t)
    (hread : materializeSlot substrate op db c partition = .ok bytes) :
    ∃ params cols, partitionParams c partition = .ok params ∧
      (c.orderBy.map SortKey.column).mapM t.resolve = some cols ∧
      bytes = (Value.array (((c.channelRows substrate.engine partition t).insertionSort
        fun r s => orderLe substrate.engine (cols.zip (c.orderBy.map SortKey.dir)) r s = true).map
          c.recordOf)).encode := by
  have hread' := hread
  obtain ⟨params, hparams, hread⟩ := bind_eq_ok.mp hread
  obtain ⟨rows, hquery, hread⟩ := bind_eq_ok.mp hread
  unfold Substrate.query at hquery
  cases hfault : substrate.fault op with
  | some err => simp [hfault] at hquery
  | none =>
      simp only [hfault] at hquery
      cases hrun : (Sql.select c.query).run substrate.engine substrate.honoursReturning 0 db
          params with
      | error err => simp [hrun, Except.map] at hquery
      | ok result =>
          obtain ⟨t', ht', hrun⟩ := bind_eq_ok.mp hrun
          obtain rfl := Option.some.inj (ht.symm.trans (Db.named_ok ht'))
          obtain ⟨answer, hselect, _⟩ := bind_eq_ok.mp hrun
          obtain ⟨_, _, hselect⟩ := bind_eq_ok.mp hselect
          obtain ⟨_, _, hselect⟩ := bind_eq_ok.mp hselect
          obtain ⟨cols, horder, _⟩ := bind_eq_ok.mp hselect
          have hcols := Table.resolveAll_ok horder
          refine ⟨params, cols, hparams, hcols, ?_⟩
          rw [materializeSlot_eq h ht hparams hcols hfault] at hread'
          exact (Except.ok.inj hread').symm

theorem insertionSort_channelRows {engine : Engine} (h : c.Declares t) {dir : SortDir}
    (hlead : c.orderBy.head? = some ⟨c.keyColumn, dir⟩) {cols : List Column}
    (hcols : (c.orderBy.map SortKey.column).mapM t.resolve = some cols) :
    ((c.channelRows engine partition t).insertionSort fun r s =>
      orderLe engine (cols.zip (c.orderBy.map SortKey.dir)) r s = true) =
        dir.arrange (c.channelRows engine partition t) := by
  obtain ⟨rest, horder⟩ : ∃ rest, c.orderBy = ⟨c.keyColumn, dir⟩ :: rest := by
    cases hc : c.orderBy with
    | nil => simp [hc] at hlead
    | cons first rest => exact ⟨rest, by rw [hc] at hlead; rw [← Option.some.inj hlead]⟩
  rw [horder] at hcols ⊢
  have hresolved := resolved_of_mapM hcols
  cases hresolved with
  | @cons _ col _ cols hkey _ =>
      rw [← h.1, t.resolve_key] at hkey
      obtain rfl := Option.some.inj hkey
      exact insertionSort_key (t.sorted.filter _)

end

end Albedo.Forge
