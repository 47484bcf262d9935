import Mathlib.Data.List.Forall2
import Albedo.Forge.Statement
import Albedo.Library.KeyedList

/-!
# Rows and the names they are written under

Row ids identify the rows of a table, and a column is written under every name that
folds to its own. `givenFor` reads off a record what the engine is given for a column;
the statements of a write give exactly that.
-/
namespace Albedo.Forge
open Json Broadcast Fallible

/-! ### Rows by their key -/

theorem Table.eq_of_key {t : Table} {r s : Row} (hr : r ∈ t.rows) (hs : s ∈ t.rows)
    (h : r.key = s.key) : r = s := by
  have hkeys : (t.rows.map Row.key).Nodup :=
    (List.pairwise_map.mpr t.sorted).imp fun hlt => ne_of_lt hlt
  exact List.inj_on_of_nodup_map hkeys hr hs h

theorem Table.has_iff {t : Table} {key : ℤ} : t.has key = true ↔ ∃ r ∈ t.rows, r.key = key := by
  simp [Table.has]

theorem Table.row?_eq_some {t : Table} {key : ℤ} {r : Row} :
    t.row? key = some r ↔ r ∈ t.rows ∧ r.key = key := by
  unfold Table.row?
  constructor
  · intro h
    exact ⟨List.mem_of_find?_eq_some h, by simpa using List.find?_some h⟩
  · rintro ⟨hr, rfl⟩
    cases hfound : t.rows.find? fun s => s.key = r.key with
    | none => simpa using List.find?_eq_none.mp hfound r hr
    | some s =>
        rw [Table.eq_of_key (List.mem_of_find?_eq_some hfound) hr
          (by simpa using List.find?_some hfound)]

theorem Table.at_eq_some {t : Table} {engine : Engine} {bound : SqlValue} {r : Row} :
    t.at engine bound = some r ↔ r ∈ t.rows ∧ engine.rowid bound = some r.key := by
  unfold Table.at
  rw [Option.bind_eq_some_iff]
  constructor
  · rintro ⟨key, hkey, hrow⟩
    obtain ⟨hr, rfl⟩ := Table.row?_eq_some.mp hrow
    exact ⟨hr, hkey⟩
  · rintro ⟨hr, hkey⟩
    exact ⟨r.key, hkey, Table.row?_eq_some.mpr ⟨hr, rfl⟩⟩

theorem Table.mem_remove {t : Table} {key : ℤ} {r : Row} :
    r ∈ (t.remove key).rows ↔ r ∈ t.rows ∧ r.key ≠ key := by
  simp [Table.remove]

theorem Table.mem_delete {t : Table} {engine : Engine} {bound : SqlValue} {r : Row} :
    r ∈ (t.delete engine bound).rows ↔ r ∈ t.rows ∧ t.at engine bound ≠ some r := by
  unfold Table.delete
  cases hrowid : engine.rowid bound with
  | none =>
      refine ⟨fun hr => ⟨hr, fun h => ?_⟩, And.left⟩
      have := (Table.at_eq_some.mp h).2
      simp [hrowid] at this
  | some key =>
      dsimp only
      rw [Table.mem_remove]
      refine and_congr_right fun hr => not_congr ?_
      rw [Table.at_eq_some, hrowid, Option.some.injEq]
      exact ⟨fun h => ⟨hr, h.symm⟩, fun h => h.2.symm⟩

/-! ### Names -/

theorem Table.resolve_field {t : Table} {field : String} (h : field ∈ t.fields.map Prod.fst) :
    t.resolve field = some (.field field) := by
  have hnames := t.names
  rw [List.map_cons, List.nodup_cons] at hnames
  have hkey : foldName field ≠ foldName t.key := fun heq =>
    hnames.1 (heq ▸ List.mem_map_of_mem h)
  unfold Table.resolve
  rw [if_neg hkey]
  obtain ⟨f, hf, rfl⟩ := List.mem_map.mp h
  cases hfound : t.fields.find? fun g => foldName g.1 = foldName f.1 with
  | none => simpa using List.find?_eq_none.mp hfound f hf
  | some g =>
      have hfold : foldName g.1 = foldName f.1 := by simpa using List.find?_some hfound
      have hsame := List.inj_on_of_nodup_map hnames.2
        (List.mem_map_of_mem (List.mem_of_find?_eq_some hfound)) (List.mem_map_of_mem hf) hfold
      simp [hsame]

theorem resolved_of_mapM {t : Table} {names : List String} {cols : List Column}
    (h : names.mapM t.resolve = some cols) :
    List.Forall₂ (fun name col => t.resolve name = some col) names cols := by
  induction names generalizing cols with
  | nil =>
      obtain rfl : [] = cols := by simpa using h
      exact .nil
  | cons name names ih =>
      rw [List.mapM_cons] at h
      cases hname : t.resolve name with
      | none => simp [hname] at h
      | some col =>
          cases hrest : names.mapM t.resolve with
          | none => simp [hname, hrest] at h
          | some rest =>
              obtain rfl : col :: rest = cols := by simpa [hname, hrest] using h
              exact .cons hname (ih hrest)

/-! ### What a record gives a column -/

def givenFor (engine : Engine) (t : Table) (column : Column) (entries : Fields) :
    Option SqlValue :=
  (entries.find? fun f => t.resolve f.1 = some column).bind fun f =>
    (jsonToSqlvalue engine f.1 f.2).toOption

/-- What a statement is given: the entries, each resolved and lowered. -/
def Gives (engine : Engine) (t : Table) : Fields → List (Column × SqlValue) → Prop :=
  List.Forall₂ fun f g => t.resolve f.1 = some g.1 ∧ jsonToSqlvalue engine f.1 f.2 = .ok g.2

theorem Gives.lookup {engine : Engine} {t : Table} {entries : Fields}
    {given : List (Column × SqlValue)} (h : Gives engine t entries given) (column : Column) :
    given.lookup column = givenFor engine t column entries := by
  induction h with
  | nil => rfl
  | @cons f g entries given hfg _ ih =>
      unfold givenFor at ih ⊢
      rw [List.lookup_cons, List.find?_cons, ih, hfg.1]
      by_cases hcolumn : g.1 = column
      · simp [hcolumn, hfg.2, Except.toOption]
      · have hbeq : (column == g.1) = false := by simpa using Ne.symm hcolumn
        simp [hcolumn, hbeq]

theorem Gives.reverse {engine : Engine} {t : Table} {entries : Fields}
    {given : List (Column × SqlValue)} (h : Gives engine t entries given) :
    Gives engine t entries.reverse given.reverse :=
  List.rel_reverse h

theorem gives_of {engine : Engine} {t : Table} {entries : Fields} {cols : List Column}
    {params : List SqlValue} (hcols : (entries.map Prod.fst).mapM t.resolve = some cols)
    (hparams : List.Forall₂ (fun f v => jsonToSqlvalue engine f.1 f.2 = .ok v) entries params) :
    Gives engine t entries (cols.zip params) := by
  have hresolved := List.forall₂_map_left_iff.mp (resolved_of_mapM hcols)
  clear hcols
  induction hparams generalizing cols with
  | nil =>
      cases hresolved
      exact .nil
  | cons hv _ ih =>
      cases hresolved with
      | cons hname hrest => exact .cons ⟨hname, hv⟩ (ih hrest)

theorem appendColumns_ok {engine : Engine} {entries : Fields} {params : List SqlValue}
    (h : appendColumns engine entries = .ok params) :
    List.Forall₂ (fun f v => jsonToSqlvalue engine f.1 f.2 = .ok v) entries params := by
  induction entries generalizing params with
  | nil =>
      obtain rfl := Except.ok.inj h
      exact .nil
  | cons f entries ih =>
      unfold appendColumns at h
      split_ifs at h
      obtain ⟨param, hparam, h⟩ := bind_eq_ok.mp h
      obtain ⟨rest, hrest, h⟩ := bind_eq_ok.mp h
      obtain rfl := Except.pure_ok h
      exact .cons hparam (ih hrest)

theorem updateColumns_ok {engine : Engine} {collection keyColumn : String} {entries : Fields}
    {params : List SqlValue} (h : updateColumns engine collection keyColumn entries = .ok params) :
    List.Forall₂ (fun f v => jsonToSqlvalue engine f.1 f.2 = .ok v) entries params := by
  induction entries generalizing params with
  | nil =>
      obtain rfl := Except.ok.inj h
      exact .nil
  | cons f entries ih =>
      unfold updateColumns at h
      split_ifs at h
      obtain ⟨param, hparam, h⟩ := bind_eq_ok.mp h
      obtain ⟨rest, hrest, h⟩ := bind_eq_ok.mp h
      obtain rfl := Except.pure_ok h
      exact .cons hparam (ih hrest)

end Albedo.Forge
