import Mathlib.Data.List.DropRight
import Albedo.Forge.Schema
import Albedo.Library.OrderedMap
import Albedo.Library.Words

/-!
# The table a declaration creates

A declaration is lowered to the text of a `CREATE TABLE`. The shape of the table is read
back out of that text by a parser that accepts what the lowering emits and declines
whatever else it is given.
-/
namespace Albedo.Forge
open Words KeyedList

def FieldType.sqlType : FieldType → String
  | .text => "TEXT"
  | .int => "INTEGER"
  | .real => "REAL"
  | .bool => "BOOLEAN"
  | .timestamp => "TIMESTAMP"

/-- What a field adds to the `CREATE TABLE`, after the comma. -/
def columnClause (f : String × FieldSpec) : List Char :=
  let required := if f.2.nullable then "" else " NOT NULL"
  f.1.toList ++ ' ' :: (f.2.ty.sqlType.toList ++ required.toList)

/-- The `CREATE TABLE` of a collection. -/
def ForgeCollection.createTable (c : ForgeCollection) : List Char :=
  "CREATE TABLE IF NOT EXISTS ".toList ++ c.table.toList ++ " (".toList ++
    c.keyColumn.toList ++ " INTEGER PRIMARY KEY AUTOINCREMENT".toList ++
    (c.fields.flatMap fun f => ", ".toList ++ columnClause f) ++ [')']

/-- The index of a partitioned collection: the partition column first, then the ordering. -/
def ForgeCollection.createIndex (c : ForgeCollection) (column : String) : List Char :=
  let terms := c.sort.filter fun k => k.column ≠ column
  let nameParts := c.table :: column :: terms.map SortKey.column
  let indexColumns := column :: terms.map fun k =>
    match k.dir with
    | .asc => k.column
    | .desc => k.column ++ " DESC"
  let indexName := "_".intercalate nameParts
  let listed := ", ".intercalate indexColumns
  (s!"CREATE INDEX IF NOT EXISTS idx_{indexName} ON {c.table}" ++ s!"({listed})").toList

def ForgeCollection.migrations (c : ForgeCollection) : List (List Char) :=
  c.createTable :: (c.partitionBy.map c.createIndex).toList

/-- The fields a declaration may have: `lower` refuses any other name. -/
def ForgeSchema.Declared (schema : ForgeSchema) : Prop :=
  ∀ c ∈ schema.collections, ∀ f ∈ c.fields, isSafeIdentifier f.1 = true

/-! ### Reading the shape back -/

structure ColumnShape where
  sqlType : String
  notNull : Bool

structure TableShape where
  table : String
  key : Option String
  columns : OrderedMap String ColumnShape

def upperName (name : List Char) : String := String.ofList (name.map Char.toUpper)

def dropKeyword (keyword : List Char) (s : List Char) : Option (List Char) :=
  if keyword.isPrefixOf (s.map Char.toLower) then some (s.drop keyword.length) else none

def stripSuffix (c : Char) (s : List Char) : Option (List Char) :=
  if s.getLast? = some c then some s.dropLast else none

def trim (s : List Char) : List Char := (s.dropWhile Char.isWhitespace).rdropWhile Char.isWhitespace

def parseColumn (shape : Option String × OrderedMap String ColumnShape) (part : List Char) :
    Option (Option String × OrderedMap String ColumnShape) :=
  match words Char.isWhitespace part with
  | [] => none
  | first :: rest =>
      let name := String.ofList first
      if isSafeIdentifier name then
        match rest.map upperName with
        -- Two primary keys is not the emitted grammar.
        | ["INTEGER", "PRIMARY", "KEY", "AUTOINCREMENT"] =>
            if shape.1.isSome then none else some (some name, shape.2)
        | [sqlType] =>
            if isSafeIdentifier sqlType then
              some (shape.1, shape.2.insert name ⟨sqlType, false⟩)
            else none
        | [sqlType, "NOT", "NULL"] =>
            if isSafeIdentifier sqlType then
              some (shape.1, shape.2.insert name ⟨sqlType, true⟩)
            else none
        | _ => none
      else none

/-- Parse one `CREATE TABLE` in the emitted grammar, or give up. -/
def parseCreateTable (ddl : List Char) : Option TableShape := do
  let norm := collapse Char.isWhitespace ' ' ddl
  let afterTable ← dropKeyword "create table ".toList norm
  let rest := (dropKeyword "if not exists ".toList afterTable).getD afterTable
  guard ('(' ∈ rest)
  let table := String.ofList (trim (rest.takeWhile (· ≠ '(')))
  guard (isSafeIdentifier table)
  let body ← stripSuffix ')' (rest.dropWhile (· ≠ '(')).tail
  guard ('(' ∉ body ∧ ')' ∉ body)
  let (key, columns) ← (body.splitOn ',').foldlM parseColumn (none, OrderedMap.empty)
  guard key.isSome
  return ⟨table, key, columns⟩

/-- The shape a collection's own `CREATE TABLE` gives its table. -/
def ForgeCollection.expectedShape (c : ForgeCollection) : Option TableShape :=
  (c.migrations.filterMap parseCreateTable).find? fun shape => shape.table = c.table

/-! ### What the lowering emits is read back -/

def FieldSpec.shape (spec : FieldSpec) : ColumnShape := ⟨spec.ty.sqlType, !spec.nullable⟩

def ForgeCollection.declaredShape (c : ForgeCollection) : TableShape where
  table := c.table
  key := some c.keyColumn
  columns := OrderedMap.ofEntries (c.fields.map fun f => (f.1, f.2.shape))

theorem ForgeCollection.get_declaredShape (c : ForgeCollection) (name : String) :
    c.declaredShape.columns.get name = (c.fields.lookup name).map FieldSpec.shape := by
  have hkeys : keys (c.fields.map fun f => (f.1, f.2.shape)) = c.fields.map Prod.fst := by
    simp [keys]
  rw [declaredShape, OrderedMap.get_ofEntries (hkeys ▸ c.fields_nodup), lookup_map]

theorem not_mem_of_safe {name : String} (h : isSafeIdentifier name = true) {ch : Char}
    (hch : (ch.isAlphanum || ch = '_') = false) : ch ∉ name.toList := by
  intro hmem
  simp only [isSafeIdentifier, Bool.and_eq_true, List.all_eq_true] at h
  have hident := h.2 ch hmem
  rw [hch] at hident
  cases hident

theorem plain_of_safe {name : String} (h : isSafeIdentifier name = true) :
    Plain Char.isWhitespace name.toList where
  not_empty := by
    intro hempty
    simp [isSafeIdentifier, hempty] at h
  no_blank := by
    intro ch hmem
    by_contra hblank
    refine not_mem_of_safe h ?_ hmem
    simp only [Char.isWhitespace, Bool.or_eq_true, decide_eq_true_eq, Bool.not_eq_false] at hblank
    obtain ((rfl | rfl) | rfl) | rfl := hblank <;> decide

theorem plain_sqlType (ty : FieldType) : Plain Char.isWhitespace ty.sqlType.toList := by
  apply plain_of_safe
  cases ty <;> decide

/-- The end of a `CREATE TABLE`: the fields, and the closing parenthesis. -/
def fieldsClause (fields : List (String × FieldSpec)) : List Char :=
  (fields.flatMap fun f => ", ".toList ++ columnClause f) ++ [')']

theorem plain_literal {w : List Char} (h : w ≠ [] ∧ w.any Char.isWhitespace = false) :
    Plain Char.isWhitespace w :=
  ⟨h.1, by simpa using h.2⟩

theorem spaced_fieldsClause {fields : List (String × FieldSpec)}
    (hfields : ∀ f ∈ fields, isSafeIdentifier f.1 = true) {w : List Char}
    (hw : Plain Char.isWhitespace w) : Spaced Char.isWhitespace ' ' (w ++ fieldsClause fields) := by
  induction fields generalizing w with
  | nil => exact .word (hw.append (plain_literal (by decide)).no_blank)
  | cons f fields ih =>
      have hfield := plain_of_safe (hfields f List.mem_cons_self)
      have hrest : ∀ {w : List Char}, Plain Char.isWhitespace w →
          Spaced Char.isWhitespace ' ' (w ++ fieldsClause fields) :=
        ih fun g hg => hfields g (List.mem_cons_of_mem f hg)
      have hcomma : Plain Char.isWhitespace (w ++ [',']) := hw.append (plain_literal (by decide)).no_blank
      have htype := plain_sqlType f.2.ty
      cases hnull : f.2.nullable with
      | true =>
          have htext : w ++ fieldsClause (f :: fields) = (w ++ [',']) ++ ' ' ::
              (f.1.toList ++ ' ' :: (f.2.ty.sqlType.toList ++ fieldsClause fields)) := by
            simp [fieldsClause, columnClause, hnull]
          rw [htext]
          exact .cons hcomma (.cons hfield (hrest htype))
      | false =>
          have htext : w ++ fieldsClause (f :: fields) = (w ++ [',']) ++ ' ' ::
              (f.1.toList ++ ' ' :: (f.2.ty.sqlType.toList ++ ' ' ::
                ("NOT".toList ++ ' ' :: ("NULL".toList ++ fieldsClause fields)))) := by
            simp [fieldsClause, columnClause, hnull]
          rw [htext]
          exact .cons hcomma (.cons hfield (.cons htype (.cons (plain_literal (by decide))
            (hrest (plain_literal (by decide))))))

/-- The columns of a `CREATE TABLE`, the key first. -/
def ForgeCollection.columnParts (c : ForgeCollection) : List (List Char) :=
  (c.keyColumn.toList ++ " INTEGER PRIMARY KEY AUTOINCREMENT".toList) ::
    c.fields.map fun f => ' ' :: columnClause f

theorem ForgeCollection.createTable_eq (c : ForgeCollection) :
    c.createTable = "CREATE TABLE ".toList ++ ("IF NOT EXISTS ".toList ++
      (c.table.toList ++ ' ' :: '(' :: ([','].intercalate c.columnParts ++ [')']))) := by
  have hcreate : "CREATE TABLE IF NOT EXISTS ".toList =
      "CREATE TABLE ".toList ++ "IF NOT EXISTS ".toList := by decide
  have hopen : " (".toList = [' ', '('] := by decide
  have hcomma : ", ".toList = [',', ' '] := by decide
  unfold createTable columnParts
  simp only [intercalate_cons, List.flatMap_map, hcreate, hopen, hcomma, List.append_assoc,
    List.cons_append, List.nil_append]

theorem ForgeCollection.spaced_createTable (c : ForgeCollection)
    (hfields : ∀ f ∈ c.fields, isSafeIdentifier f.1 = true) :
    Spaced Char.isWhitespace ' ' c.createTable := by
  have htext : c.createTable = "CREATE".toList ++ ' ' :: ("TABLE".toList ++ ' ' ::
      ("IF".toList ++ ' ' :: ("NOT".toList ++ ' ' :: ("EXISTS".toList ++ ' ' ::
        (c.table.toList ++ ' ' :: (('(' :: c.keyColumn.toList) ++ ' ' :: ("INTEGER".toList ++ ' ' ::
          ("PRIMARY".toList ++ ' ' :: ("KEY".toList ++ ' ' ::
            ("AUTOINCREMENT".toList ++ fieldsClause c.fields)))))))))) := by
    have hcreate : "CREATE TABLE IF NOT EXISTS ".toList = "CREATE".toList ++ ' ' ::
        ("TABLE".toList ++ ' ' :: ("IF".toList ++ ' ' :: ("NOT".toList ++ ' ' ::
          ("EXISTS".toList ++ [' '])))) := by decide
    have hopen : " (".toList = [' ', '('] := by decide
    have hkey : " INTEGER PRIMARY KEY AUTOINCREMENT".toList = ' ' :: ("INTEGER".toList ++ ' ' ::
        ("PRIMARY".toList ++ ' ' :: ("KEY".toList ++ ' ' :: "AUTOINCREMENT".toList))) := by decide
    unfold createTable fieldsClause
    simp only [hcreate, hopen, hkey, List.append_assoc, List.cons_append, List.nil_append]
  have hparen : Plain Char.isWhitespace ['('] := plain_literal (by decide)
  have hkey : Plain Char.isWhitespace ('(' :: c.keyColumn.toList) :=
    hparen.append (plain_of_safe c.key_safe).no_blank
  rw [htext]
  refine .cons (plain_literal (by decide)) (.cons (plain_literal (by decide))
    (.cons (plain_literal (by decide)) (.cons (plain_literal (by decide))
      (.cons (plain_literal (by decide)) (.cons (plain_of_safe c.table_safe) (.cons hkey ?_))))))
  exact .cons (plain_literal (by decide)) (.cons (plain_literal (by decide))
    (.cons (plain_literal (by decide)) (spaced_fieldsClause hfields (plain_literal (by decide)))))

theorem ForgeCollection.not_mem_columnParts (c : ForgeCollection)
    (hfields : ∀ f ∈ c.fields, isSafeIdentifier f.1 = true) {ch : Char}
    (hch : (ch.isAlphanum || ch = '_') = false) (hspace : ch ≠ ' ') :
    ∀ part ∈ c.columnParts, ch ∉ part := by
  have hliteral : ∀ {text : List Char},
      (text.all fun x => x.isAlphanum || x = '_' || x = ' ') = true → ch ∉ text := by
    intro text htext hmem
    have hsafe := List.all_eq_true.mp htext ch hmem
    simp [hch, hspace] at hsafe
  intro part hpart
  rcases List.mem_cons.mp hpart with rfl | hpart
  · exact fun hmem => (List.mem_append.mp hmem).elim (not_mem_of_safe c.key_safe hch)
      (hliteral (by decide))
  · obtain ⟨f, hf, rfl⟩ := List.mem_map.mp hpart
    have hname := not_mem_of_safe (hfields f hf) hch
    have htype : ch ∉ f.2.ty.sqlType.toList := by
      cases f.2.ty <;> exact hliteral (by decide)
    have hrequired : ch ∉ (if f.2.nullable then "" else " NOT NULL").toList := by
      cases f.2.nullable <;> exact hliteral (by decide)
    simp [columnClause, hspace, hname, htype, hrequired]

theorem parseColumn_key (c : ForgeCollection) :
    parseColumn (none, OrderedMap.empty)
        (c.keyColumn.toList ++ " INTEGER PRIMARY KEY AUTOINCREMENT".toList) =
      some (some c.keyColumn, OrderedMap.empty) := by
  have hwords : words Char.isWhitespace
      (c.keyColumn.toList ++ ' ' :: "INTEGER PRIMARY KEY AUTOINCREMENT".toList) =
      [c.keyColumn.toList, "INTEGER".toList, "PRIMARY".toList, "KEY".toList,
        "AUTOINCREMENT".toList] := by
    rw [words_append_blank (plain_of_safe c.key_safe) (by decide)]
    rfl
  have htext : " INTEGER PRIMARY KEY AUTOINCREMENT".toList =
      ' ' :: "INTEGER PRIMARY KEY AUTOINCREMENT".toList := by decide
  rw [parseColumn, htext, hwords]
  simp [c.key_safe, upperName]

theorem upperName_sqlType (ty : FieldType) : upperName ty.sqlType.toList = ty.sqlType := by
  cases ty <;> decide

theorem parseColumn_field (shape : Option String × OrderedMap String ColumnShape)
    {f : String × FieldSpec} (hf : isSafeIdentifier f.1 = true) :
    parseColumn shape (' ' :: columnClause f) =
      some (shape.1, shape.2.insert f.1 f.2.shape) := by
  have hupper := upperName_sqlType f.2.ty
  have htype : isSafeIdentifier f.2.ty.sqlType = true := by
    cases f.2.ty <;> decide
  have hblank : Char.isWhitespace ' ' = true := by decide
  cases hnull : f.2.nullable with
  | true =>
      have hwords : words Char.isWhitespace (' ' :: columnClause f) =
          [f.1.toList, f.2.ty.sqlType.toList] := by
        rw [words_blank hblank, columnClause, hnull]
        rw [words_append_blank (plain_of_safe hf) hblank]
        simp [words_plain (plain_sqlType f.2.ty)]
      rw [parseColumn, hwords]
      simp [hf, hupper, htype, FieldSpec.shape, hnull]
  | false =>
      have hwords : words Char.isWhitespace (' ' :: columnClause f) =
          [f.1.toList, f.2.ty.sqlType.toList, "NOT".toList, "NULL".toList] := by
        have htext : (if false = true then "" else " NOT NULL").toList =
            ' ' :: "NOT NULL".toList := by decide
        rw [words_blank hblank, columnClause, hnull, htext]
        rw [words_append_blank (plain_of_safe hf) hblank,
          words_append_blank (plain_sqlType f.2.ty) hblank]
        rfl
      have hnot : upperName "NOT".toList = "NOT" := by decide
      have hnullName : upperName "NULL".toList = "NULL" := by decide
      rw [parseColumn, hwords]
      simp only [List.map_cons, List.map_nil, hupper, hnot, hnullName, String.ofList_toList, hf, htype,
        if_true, FieldSpec.shape, hnull, Bool.not_false]

theorem parseColumn_fields {fields : List (String × FieldSpec)}
    (hfields : ∀ f ∈ fields, isSafeIdentifier f.1 = true) (key : Option String)
    (columns : OrderedMap String ColumnShape) :
    (fields.map fun f => ' ' :: columnClause f).foldlM parseColumn (key, columns) =
      some (key, (fields.map fun f => (f.1, f.2.shape)).foldl (fun m e => m.insert e.1 e.2)
        columns) := by
  induction fields generalizing columns with
  | nil => rfl
  | cons f fields ih =>
      rw [List.map_cons, List.foldlM_cons,
        parseColumn_field (key, columns) (hfields f List.mem_cons_self)]
      exact ih (fun g hg => hfields g (List.mem_cons_of_mem f hg)) _

theorem dropKeyword_append (text : List Char) {keyword : List Char}
    (h : text.map Char.toLower = keyword) (rest : List Char) :
    dropKeyword keyword (text ++ rest) = some rest := by
  subst h
  simp [dropKeyword]

theorem trim_append_space {w : List Char} (hw : Plain Char.isWhitespace w) :
    trim (w ++ [' ']) = w := by
  have hfirst : (w ++ [' ']).dropWhile Char.isWhitespace = w ++ [' '] := by
    cases w with
    | nil => exact absurd rfl hw.not_empty
    | cons c w =>
        rw [List.cons_append, List.dropWhile_cons_of_neg]
        simp [hw.no_blank c List.mem_cons_self]
  rw [trim, hfirst, List.rdropWhile_concat_pos _ _ _ (by decide), List.rdropWhile_eq_self_iff]
  intro hne
  simp [hw.no_blank _ (List.getLast_mem hne)]

theorem takeWhile_append_of_notMem {w : List Char} {c : Char} (h : c ∉ w) (rest : List Char) :
    (w ++ c :: rest).takeWhile (· ≠ c) = w ∧ (w ++ c :: rest).dropWhile (· ≠ c) = c :: rest := by
  have hall : ∀ x ∈ w, (decide (x ≠ c)) = true := by
    intro x hx
    simpa using fun hxc : x = c => h (hxc ▸ hx)
  rw [List.takeWhile_append_of_pos hall, List.dropWhile_append_of_pos hall]
  simp

theorem ForgeCollection.parse_createTable (c : ForgeCollection)
    (hfields : ∀ f ∈ c.fields, isSafeIdentifier f.1 = true) :
    parseCreateTable c.createTable = some c.declaredShape := by
  have hnorm : collapse Char.isWhitespace ' ' c.createTable = c.createTable :=
    (c.spaced_createTable hfields).collapse_eq (by decide)
  have hparen : '(' ∉ c.table.toList ++ [' '] := by
    have htable : '(' ∉ c.table.toList := not_mem_of_safe c.table_safe (by decide)
    simp [htable]
  have hpunctuation : ∀ {ch : Char}, (ch.isAlphanum || ch = '_') = false → ch ≠ ' ' → ch ≠ ',' →
      ch ∉ [','].intercalate c.columnParts := by
    intro ch hch hspace hcomma hmem
    obtain ⟨first, rest, hparts⟩ : ∃ first rest, c.columnParts = first :: rest := ⟨_, _, rfl⟩
    have hnot := c.not_mem_columnParts hfields hch hspace
    rw [hparts] at hmem hnot
    rw [intercalate_cons, List.mem_append, List.mem_flatMap] at hmem
    rcases hmem with hmem | ⟨part, hpart, hmem⟩
    · exact hnot first List.mem_cons_self hmem
    · rcases List.mem_cons.mp hmem with hmem | hmem
      · exact hcomma hmem
      · exact hnot part (List.mem_cons_of_mem first hpart) hmem
  have hsplit : ([','].intercalate c.columnParts).splitOn ',' = c.columnParts :=
    List.splitOn_intercalate ',' (c.not_mem_columnParts hfields (by decide) (by decide))
      (List.cons_ne_nil _ _)
  have htext : c.table.toList ++ ' ' :: '(' :: ([','].intercalate c.columnParts ++ [')']) =
      (c.table.toList ++ [' ']) ++ '(' :: ([','].intercalate c.columnParts ++ [')']) := by simp
  have hopen : '(' ∉ [','].intercalate c.columnParts := hpunctuation (by decide) (by decide) (by decide)
  have hclose : ')' ∉ [','].intercalate c.columnParts :=
    hpunctuation (by decide) (by decide) (by decide)
  have hcolumns : c.columnParts.foldlM parseColumn (none, OrderedMap.empty) =
      some (some c.keyColumn, c.declaredShape.columns) := by
    rw [columnParts, List.foldlM_cons, parseColumn_key]
    exact parseColumn_fields hfields _ _
  obtain ⟨htake, hdrop⟩ := takeWhile_append_of_notMem hparen
    ([','].intercalate c.columnParts ++ [')'])
  have hkeyword : ∀ rest, dropKeyword "create table ".toList ("CREATE TABLE ".toList ++ rest) =
      some rest := dropKeyword_append _ (by decide)
  have hexists : ∀ rest, dropKeyword "if not exists ".toList ("IF NOT EXISTS ".toList ++ rest) =
      some rest := dropKeyword_append _ (by decide)
  have hsome : stripSuffix ')' ([','].intercalate c.columnParts ++ [')']) =
      some ([','].intercalate c.columnParts) := by simp [stripSuffix]
  unfold parseCreateTable
  simp only [hnorm]
  simp only [c.createTable_eq, hkeyword, hexists, Option.bind_eq_bind, Option.bind_some,
    Option.getD_some, htext, htake, hdrop, trim_append_space (plain_of_safe c.table_safe),
    String.ofList_toList, c.table_safe, List.tail_cons, hsome, hopen, hclose, hsplit, hcolumns]
  simp [declaredShape]

theorem ForgeCollection.expectedShape_eq (c : ForgeCollection)
    (hfields : ∀ f ∈ c.fields, isSafeIdentifier f.1 = true) :
    c.expectedShape = some c.declaredShape := by
  rw [expectedShape, migrations, List.filterMap_cons, c.parse_createTable hfields]
  exact List.find?_cons_of_pos (by simp [declaredShape])

-- From here on a shape is known by what it declares, not by running the parser.
attribute [irreducible] ForgeCollection.expectedShape

end Albedo.Forge
