import Albedo.Forge.Materialize
import Albedo.Forge.RowChange

/-!
# Splices and reads

A channel that was only appended to gets its next value by splicing the rows the database
handed back onto the text of the last one. The splice is what a read would answer exactly
when the rows come with the columns a read selects, in the order of the collection, and in
the channel.
-/
namespace Albedo.Forge
open Json Broadcast Fallible

/-! ### Spliced arrays -/

theorem isBracketed_array (items : List Value) : isBracketed (Value.array items).encode = true := by
  rw [encode_array, isBracketed, ← List.cons_append, List.getLast?_concat]
  simp

theorem spliceAppended_array {records : List Value} (hne : records ≠ []) (previous : List Value)
    (atHead : Bool) : spliceAppended (Value.array previous).encode records atHead =
      some (Value.array (if atHead then records ++ previous else previous ++ records)).encode := by
  have hinner : (Value.array previous).encode.tail.dropLast = joined previous := by
    rw [encode_array, List.tail_cons, List.dropLast_concat]
  unfold spliceAppended
  rw [if_neg hne, isBracketed_array, hinner, ← joined_eq_intercalate]
  simp only [Bool.not_true, Bool.false_eq_true, if_false]
  by_cases hempty : previous = []
  · subst hempty
    cases atHead <;> simp [encode_array, joined]
  · rw [if_neg (joined_ne_nil hempty)]
    cases atHead with
    | true =>
        rw [if_pos rfl, if_pos rfl, encode_array, joined_append hne, encodeItems_eq_cons hempty]
    | false =>
        rw [if_neg (by simp), if_neg (by simp), encode_array, joined_append hempty,
          encodeItems_eq_cons hne]

/-! ### Rows as they are handed back -/

section
variable {c : ForgeCollection} {t : Table} {row : Row} {names : List String} {value : Value}

def ForgeCollection.HandsBack (c : ForgeCollection) (row : Row) (names : List String)
    (value : Value) : Prop :=
  ∃ f, value = .object (entriesOf f names) ∧ c.keyColumn ∈ names ∧
    ∀ name ∈ names, name ∈ c.selected → f name = c.cell row name

theorem returnedRecord_some {columns : List String} {cells : List SqlValue}
    {typeOf : String → Option FieldType} (h : returnedRecord columns cells typeOf = some value) :
    value = collectObject (columns.zipIdx.map fun p =>
      (p.1, columnValueToJson (cells[p.2]?.getD .null) (typeOf p.1))) := by
  unfold returnedRecord at h
  obtain ⟨values, hvalues, hvalue⟩ := Option.bind_eq_some_iff.mp h
  rw [← Option.some.inj hvalue]
  refine congrArg collectObject ?_
  clear h hvalue
  generalize columns.zipIdx = indexed at hvalues
  induction indexed generalizing values with
  | nil =>
      obtain rfl : [] = values := by simpa using hvalues
      rfl
  | cons p indexed ih =>
      rw [List.mapM_cons] at hvalues
      obtain ⟨first, hfirst, hvalues⟩ := Option.bind_eq_some_iff.mp hvalues
      obtain ⟨rest, hrest, hvalues⟩ := Option.bind_eq_some_iff.mp hvalues
      obtain rfl := Option.some.inj hvalues
      rw [List.map_cons, ← ih _ hrest]
      dsimp only at hfirst
      split at hfirst
      · cases hfirst
      · cases hfirst
      · rename_i stored _ hstored
        obtain rfl := Option.some.inj hfirst
        rw [hstored]
        rfl

theorem forall₂_getElem? {α β : Type*} {R : α → β → Prop} {xs : List α} {ys : List β}
    (h : List.Forall₂ R xs ys) {i : ℕ} {x : α} (hx : xs[i]? = some x) :
    ∃ y, ys[i]? = some y ∧ R x y := by
  induction h generalizing i with
  | nil => cases hx
  | @cons a b _ _ hab _ ih =>
      cases i with
      | zero =>
          obtain rfl := Option.some.inj hx
          exact ⟨b, rfl, hab⟩
      | succ i => exact ih hx

theorem persistedRow_handsBack {substrate : Substrate} {record : Record} (hdeclares : c.Declares t)
    (h : persistedRow substrate c t row record = some value) :
    c.HandsBack row (c.keyColumn :: record.columns) value := by
  unfold persistedRow at h
  split_ifs at h
  obtain ⟨cols, hcols, h⟩ := Option.bind_eq_some_iff.mp h
  let shown : String → Value := fun name =>
    columnValueToJson (((t.resolve name).map row.value).getD .null) (c.typeOf name)
  refine ⟨shown, ?_, List.mem_cons_self, fun name _ hselected => ?_⟩
  · rw [returnedRecord_some h, ← collectObject_map]
    refine congrArg collectObject ?_
    have hcell : ∀ p ∈ (c.keyColumn :: record.columns).zipIdx,
        (p.1, columnValueToJson ((cols.map row.value)[p.2]?.getD .null) (c.typeOf p.1)) =
          (p.1, shown p.1) := by
      intro p hp
      have hname := List.mk_mem_zipIdx_iff_getElem?.mp hp
      obtain ⟨col, hcol, hresolve⟩ := forall₂_getElem? (resolved_of_mapM hcols) hname
      rw [List.getElem?_map, hcol]
      simp only [shown, hresolve]
    rw [List.map_congr_left hcell]
    have hfst : (fun p : String × ℕ => (p.1, shown p.1)) =
        (fun name => (name, shown name)) ∘ Prod.fst := rfl
    rw [hfst, ← List.map_map, List.zipIdx_map_fst]
  · simp only [shown, hdeclares.resolve hselected]
    rfl

theorem entriesOf_congr {f g : String → Value} (h : ∀ name ∈ names, f name = g name) :
    entriesOf f names = entriesOf g names := by
  unfold entriesOf
  rw [List.map_congr_left fun name hname => by rw [h name hname]]

theorem ForgeCollection.HandsBack.eq_recordOf_iff (h : c.HandsBack row names value) :
    value = c.recordOf row ↔ ∀ name, name ∈ names ↔ name ∈ c.selected := by
  obtain ⟨f, rfl, -, hcells⟩ := h
  constructor
  · intro heq name
    have hentries := Value.object.inj heq
    have hmem := (entriesOf_spec f names).2
    have hmem' := (entriesOf_spec (c.cell row) c.selected).2
    constructor
    · intro hname
      have hentry := (hmem (name, f name)).mpr ⟨hname, rfl⟩
      rw [hentries] at hentry
      exact ((hmem' _).mp hentry).1
    · intro hname
      have hentry := (hmem' (name, c.cell row name)).mpr ⟨hname, rfl⟩
      rw [← hentries] at hentry
      exact ((hmem _).mp hentry).1
  · intro hnames
    rw [ForgeCollection.recordOf, entriesOf_congr fun name hname =>
      hcells name hname ((hnames name).mp hname)]
    exact congrArg Value.object ((entriesOf_eq_iff _ _ _).mpr hnames)

theorem ForgeCollection.handsBack_recordOf (c : ForgeCollection) (row : Row) :
    c.HandsBack row c.selected (c.recordOf row) :=
  ⟨c.cell row, rfl, List.mem_cons_self, fun _ _ _ => rfl⟩

theorem ForgeCollection.HandsBack.key (h : c.HandsBack row names value) :
    value.get c.keyColumn = some (.number (.int row.key)) := by
  obtain ⟨f, rfl, hkey, hcells⟩ := h
  have hnone : c.typeOf c.keyColumn = none := by
    rw [ForgeCollection.typeOf, KeyedList.lookup_eq_none.mpr c.key_fresh]
    rfl
  rw [Value.get, lookup_entriesOf hkey, hcells _ hkey List.mem_cons_self, ForgeCollection.cell,
    ForgeCollection.columnOf, if_pos rfl, hnone]
  rfl

end

/-! ### The order of the rows -/

/-- Whether new rows, as they come, follow the old ones in the order of a collection. -/
def SortDir.Places (dir : SortDir) (old rows : List Row) : Prop :=
  (old ++ dir.arrange rows).Pairwise fun r s => r.key < s.key

theorem eq_of_perm_of_keys {rows rows' : List Row} (h : rows.Pairwise fun r s => r.key < s.key)
    (h' : rows'.Pairwise fun r s => r.key < s.key) (hperm : rows.Perm rows') : rows = rows' :=
  List.Perm.eq_of_pairwise (fun _ _ _ _ hab hba => absurd hab (lt_asymm hba)) h h' hperm

section
variable {f : Row → Value} {key : Value → Option Value} {shows : Row → Bool}
variable {old rows new : List Row} {values : List Value}

/-- Values with the keys of some rows are appended to what is shown of the old rows: that is
what is shown of all of them, in the order of their keys, exactly when the values are what
is shown of the new rows, all of these are shown, and they follow the old ones. -/
theorem append_eq_map_iff (hf : ∀ r, key (f r) = some (.number (.int r.key)))
    (hvalues : values.map key = rows.map fun r => some (.number (.int r.key)))
    (hnew : new.Pairwise fun r s => r.key < s.key) (hperm : new.Perm (old ++ rows.filter shows)) :
    old.map f ++ values = new.map f ↔ values = rows.map f ∧ (∀ r ∈ rows, shows r = true) ∧
      (old ++ rows).Pairwise fun r s => r.key < s.key := by
  constructor
  · intro heq
    have hkeys : (old ++ rows).map Row.key = new.map Row.key := by
      have hmap := congrArg (List.map key) heq
      simp only [List.map_append, List.map_map, hvalues, Function.comp_def, hf] at hmap
      rw [← List.map_append] at hmap
      have hinj : Function.Injective fun i : ℤ => some (Value.number (.int i)) := by
        intro i j hij
        simpa using hij
      refine List.map_injective_iff.mpr hinj ?_
      simpa only [List.map_map, Function.comp_def] using hmap
    have hsorted : (old ++ rows).Pairwise fun r s => r.key < s.key := by
      have hpairwise := List.pairwise_map.mpr hnew
      rw [← hkeys] at hpairwise
      exact List.pairwise_map.mp hpairwise
    have hshown : ∀ r ∈ rows, shows r = true := by
      have hlength := congrArg List.length hkeys
      rw [List.length_map, List.length_map, hperm.length_eq, List.length_append,
        List.length_append] at hlength
      exact List.length_filter_eq_length_iff.mp (Nat.add_left_cancel hlength).symm
    rw [List.filter_eq_self.mpr hshown] at hperm
    obtain rfl := eq_of_perm_of_keys hnew hsorted hperm
    rw [List.map_append] at heq
    exact ⟨List.append_cancel_left heq, hshown, hsorted⟩
  · rintro ⟨rfl, hshown, hsorted⟩
    rw [List.filter_eq_self.mpr hshown] at hperm
    rw [eq_of_perm_of_keys hnew hsorted hperm, List.map_append]

theorem arrange_eq_map_iff (dir : SortDir) (hf : ∀ r, key (f r) = some (.number (.int r.key)))
    (hvalues : values.map key = rows.map fun r => some (.number (.int r.key)))
    (hnew : new.Pairwise fun r s => r.key < s.key) (hperm : new.Perm (old ++ rows.filter shows)) :
    (if dir = .desc then values ++ (dir.arrange old).map f else (dir.arrange old).map f ++ values) =
        (dir.arrange new).map f ↔
      values = rows.map f ∧ (∀ r ∈ rows, shows r = true) ∧ dir.Places old rows := by
  cases dir with
  | asc => exact append_eq_map_iff hf hvalues hnew hperm
  | desc =>
      have hvalues' : values.reverse.map key =
          rows.reverse.map fun r => some (.number (.int r.key)) := by
        rw [List.map_reverse, hvalues, List.map_reverse]
      have hperm' : new.Perm (old ++ rows.reverse.filter shows) :=
        hperm.trans (((List.reverse_perm rows).symm.filter shows).append_left old)
      have hiff := append_eq_map_iff hf hvalues' hnew hperm'
      rw [List.map_reverse, List.reverse_inj] at hiff
      simp only [List.mem_reverse] at hiff
      simp only [SortDir.arrange, if_true, SortDir.Places]
      rw [← hiff, ← List.reverse_inj, List.reverse_append, ← List.map_reverse, List.reverse_reverse,
        ← List.map_reverse, List.reverse_reverse]

end

/-! ### Appends to one channel -/

def Step.record (principal : Option PrincipalId) (step : Step) : Option Record :=
  match step.write with
  | .append _ given => (authorizeAppend step.slot given principal).toOption
  | _ => none

def Step.returned (principal : Option PrincipalId) (step : Step) : List String :=
  step.slot.keyColumn :: ((step.record principal).map Record.columns).getD []

inductive AppendRun (c : ForgeCollection) (engine : Engine) (principal : Option PrincipalId) :
    Table → List Step → List Row → List Value → Table → Prop
  | nil {t : Table} : AppendRun c engine principal t [] [] [] t
  | cons {t t' t'' : Table} {step : Step} {steps : List Step} {row : Row} {rows : List Row}
      {value : Value} {values : List Value}
      (hinserted : step.inserted engine principal = some row)
      (hhanded : c.HandsBack row (step.returned principal) value)
      (hrows : t'.rows = insertRow row t.rows) (hshape : t.SameShape t')
      (hrest : AppendRun c engine principal t' steps rows values t'') :
      AppendRun c engine principal t (step :: steps) (row :: rows) (value :: values) t''

section
variable {c : ForgeCollection} {engine : Engine} {principal : Option PrincipalId} {t t' : Table}
variable {steps : List Step} {rows : List Row} {values : List Value}

theorem AppendRun.rows_eq (h : AppendRun c engine principal t steps rows values t') :
    steps.filterMap (Step.inserted engine principal) = rows := by
  induction h with
  | nil => rfl
  | cons hinserted _ _ _ _ ih => rw [List.filterMap_cons_some hinserted, ih]

theorem AppendRun.keys (h : AppendRun c engine principal t steps rows values t') :
    values.map (fun value => value.get c.keyColumn) =
      rows.map fun r => some (.number (.int r.key)) := by
  induction h with
  | nil => rfl
  | cons _ hhanded _ _ _ ih => rw [List.map_cons, List.map_cons, hhanded.key, ih]

theorem AppendRun.perm (h : AppendRun c engine principal t steps rows values t') :
    t'.rows.Perm (t.rows ++ rows) := by
  induction h with
  | nil => simp
  | @cons t t₁ _ _ _ row rows _ _ _ _ hrows _ _ ih =>
      have hinsert := insertRow_perm row t.rows
      rw [← hrows] at hinsert
      exact ih.trans ((hinsert.append_right rows).trans List.perm_middle.symm)

theorem AppendRun.declares (h : AppendRun c engine principal t steps rows values t')
    (hdeclares : c.Declares t) : c.Declares t' := by
  induction h with
  | nil => exact hdeclares
  | cons _ _ _ hshape _ ih => exact ih ⟨hshape.1.trans hdeclares.1, hshape.2.trans hdeclares.2⟩

theorem AppendRun.values_eq_iff (h : AppendRun c engine principal t steps rows values t') :
    values = rows.map c.recordOf ↔
      ∀ step ∈ steps, ∀ name, name ∈ step.returned principal ↔ name ∈ c.selected := by
  induction h with
  | nil => simp
  | cons _ hhanded _ _ _ ih =>
      rw [List.map_cons, List.cons.injEq, ih, hhanded.eq_recordOf_iff, List.forall_mem_cons]

end

theorem ForgeSchema.eq_of_topic {schema : ForgeSchema} {c d : ForgeCollection}
    (hc : c ∈ schema.collections) (hd : d ∈ schema.collections) (h : c.topic = d.topic) :
    c = d := by
  have hslots : (schema.collections.map ForgeCollection.slotId).Nodup :=
    (List.pairwise_map.mpr schema.sorted).imp fun hlt => UInt32.ne_of_lt hlt
  exact List.inj_on_of_nodup_map hslots hc hd (by rw [ForgeCollection.slotId, h]; rfl)

theorem recordOutcome_single {t : Touched} {slot : ForgeCollection} (h : t.slot = slot)
    (outcome : Option Value) : recordOutcome [t] slot outcome = [t.record outcome] := by
  simp [recordOutcome, h]

theorem addTouched_ne_nil (touched : List Touched) (slot : ForgeCollection)
    (partition : Option String) (channel : String) :
    addTouched touched slot partition channel ≠ [] := by
  unfold addTouched
  split_ifs with hknown
  · rintro rfl
    cases hknown
  · simp

theorem channelOf_append {slot : ForgeCollection} {record : Record}
    {partition : Option String} {channel : Option String}
    (hpartition : appendPartition slot record = .ok partition)
    (hchannel : channelOf slot partition = .ok channel) : channel ≠ none := by
  rintro rfl
  unfold appendPartition at hpartition
  unfold channelOf at hchannel
  cases hcolumn : slot.partitionBy with
  | none => simp [hcolumn] at hchannel
  | some column =>
      cases hvalue : record.get column with
      | none => simp [hcolumn, hvalue] at hpartition
      | some value =>
          cases hkey : partitionValueToKey slot.topic column value with
          | error err => simp [hcolumn, hvalue, hkey, Except.map] at hpartition
          | ok key =>
              obtain rfl : some key = partition := by
                simpa [hcolumn, hvalue, hkey, Except.map] using hpartition
              simp only [hcolumn] at hchannel
              split at hchannel <;> simp at hchannel

theorem noteResolved_append {slot : ForgeCollection} {record : Record}
    {partition : Option String} {touched noted : List Touched}
    (hpartition : appendPartition slot record = .ok partition)
    (hnoted : noteResolved slot touched [partition] = .ok noted) :
    noted ≠ [] ∧ (noted = touched ∨
      ∃ channel, noted = touched ++ [⟨slot, partition, channel, [], false⟩]) := by
  obtain ⟨middle, hmiddle, hrest⟩ := bind_eq_ok.mp hnoted
  obtain rfl := Except.ok.inj hrest
  constructor
  · unfold noteTouched at hmiddle
    cases hchannel : channelOf slot partition with
    | error err => simp [hchannel, Except.map] at hmiddle
    | ok channel =>
        rw [hchannel] at hmiddle
        cases channel with
        | none => exact absurd rfl (channelOf_append hpartition hchannel)
        | some channel =>
            obtain rfl := Except.ok.inj hmiddle
            exact addTouched_ne_nil _ _ _ _
  · rcases noteTouched_ok hmiddle with rfl | ⟨channel, -, -, rfl⟩
    · exact Or.inl rfl
    · exact Or.inr ⟨channel, rfl⟩

theorem Ran.appendRun {substrate : Substrate} {schema : ForgeSchema}
    {principal : Option PrincipalId} {touched touched' : List Touched} {db db' : Db}
    {steps : List Step} (h : Ran substrate schema principal touched db steps touched' db')
    {t : Touched} (hlast : touched' = [t]) (hmutated : t.mutated = false)
    (hslot : t.slot ∈ schema.collections)
    (happends : ∀ step ∈ steps, ∃ record, step.write = .append t.slot.topic record)
    (hslots : ∀ x ∈ touched, x.slot = t.slot) {table : Table}
    (htable : db.table t.slot.table = some table) (hdeclares : t.slot.Declares table) :
    touched.length ≤ 1 ∧ (∀ x ∈ touched, x.mutated = false) ∧
      ∃ table' rows values, db'.table t.slot.table = some table' ∧
        AppendRun t.slot substrate.engine principal table steps rows values table' ∧
        t.appended = touched.flatMap Touched.appended ++ values := by
  induction h generalizing table with
  | nil =>
      subst hlast
      refine ⟨Nat.le_refl 1, ?_, table, [], [], htable, .nil, by simp⟩
      rintro x hx
      rwa [List.mem_singleton.mp hx]
  | @cons touched middle touched' db db₁ db' slot write steps hmem htopic hperformed hrest ih =>
      obtain ⟨given, hwrite⟩ := happends _ List.mem_cons_self
      dsimp only at hwrite
      subst hwrite
      obtain rfl := ForgeSchema.eq_of_topic hmem hslot htopic
      cases hperformed with
      | @append _ _ record partition noted params tb tb' row hrecord hpartition hnoted hparams
          ht hinsert =>
          obtain rfl := Option.some.inj (ht.symm.trans htable)
          obtain ⟨hne, hnotedCases⟩ := noteResolved_append hpartition hnoted
          have hnotedSlots : ∀ x ∈ noted, x.slot = t.slot := by
            rcases hnotedCases with rfl | ⟨channel, rfl⟩
            · exact hslots
            · intro x hx
              rcases List.mem_append.mp hx with hx | hx
              · exact hslots x hx
              · rw [List.mem_singleton.mp hx]
          obtain ⟨_, _, _, _, _, hrows, _, hshape⟩ := Table.insert_ok hinsert
          have htable₁ : (db.appended t.slot principal tb' row.key).table t.slot.table =
              some tb' := by rw [Db.table_appended, if_pos rfl]
          obtain ⟨hlength, hclean, table', rows, values, htable', hrun, happended⟩ :=
            ih hlast (fun step hstep => happends step (List.mem_cons_of_mem _ hstep))
              (recordOutcome_forall hnotedSlots fun x hx => by rwa [Touched.record_slot]) htable₁
              ⟨hshape.1.trans hdeclares.1, hshape.2.trans hdeclares.2⟩
          -- one channel is known, and the row was handed back, or the channel would be mutated
          obtain ⟨y, rfl⟩ : ∃ y, noted = [y] := by
            have hchannels := congrArg List.length (recordOutcome_channels noted t.slot
              (persistedRow substrate t.slot tb row record))
            rw [List.length_map, List.length_map] at hchannels
            rw [hchannels] at hlength
            exact List.length_eq_one_iff.mp
              (Nat.le_antisymm hlength (List.length_pos_of_ne_nil hne))
          rw [recordOutcome_single (hnotedSlots y List.mem_cons_self)] at hclean happended
          cases hpersisted : persistedRow substrate t.slot tb row record with
          | none =>
              rw [hpersisted] at hclean
              cases hclean _ List.mem_cons_self
          | some value =>
              rw [hpersisted] at hclean happended
              have hcleanY : y.mutated = false := hclean (y.record (some value)) List.mem_cons_self
              have hinserted : Step.inserted substrate.engine principal
                  ⟨t.slot, db, .append t.slot.topic given⟩ = some row := by
                simp [Step.inserted, Step.table, ht, hrecord, hparams, hinsert, Except.toOption]
              have hhanded : t.slot.HandsBack row
                  (Step.returned principal ⟨t.slot, db, .append t.slot.topic given⟩) value := by
                have hreturned := persistedRow_handsBack hdeclares hpersisted
                simpa [Step.returned, Step.record, hrecord, Except.toOption] using hreturned
              have hrun' := AppendRun.cons hinserted hhanded hrows hshape hrun
              rcases hnotedCases with rfl | ⟨channel, hfresh⟩
              · refine ⟨Nat.le_refl 1, ?_, table', row :: rows, value :: values, htable', hrun', ?_⟩
                · intro x hx
                  rwa [List.mem_singleton.mp hx]
                · rw [happended]
                  simp [Touched.record]
              · obtain rfl : touched = [] := by
                  have hlengthFresh := congrArg List.length hfresh
                  rw [List.length_append, List.length_singleton] at hlengthFresh
                  exact List.length_eq_zero_iff.mp (by simpa using hlengthFresh.symm)
                obtain rfl := List.head_eq_of_cons_eq hfresh
                refine ⟨Nat.zero_le 1, fun x hx => absurd hx List.not_mem_nil, table', row :: rows,
                  value :: values, htable', hrun', ?_⟩
                rw [happended]
                simp [Touched.record]

/-! ### Splices that are what a read answers -/

/-- The rows of some appends come as a read shows them: with the columns it selects, in the
channel, and following the rows before them in the order of the collection. -/
structure Continues (c : ForgeCollection) (engine : Engine) (principal : Option PrincipalId)
    (partition : Option String) (dir : SortDir) (t : Table) (steps : List Step) : Prop where
  named : ∀ step ∈ steps, ∀ name, name ∈ step.returned principal ↔ name ∈ c.selected
  shown : ∀ row ∈ steps.filterMap (Step.inserted engine principal),
    c.shows engine partition row = true
  placed : dir.Places (c.channelRows engine partition t)
    (steps.filterMap (Step.inserted engine principal))

theorem insertAtHead_some {slot : ForgeCollection} {atHead : Bool}
    (h : insertAtHead slot = some atHead) :
    ∃ dir, slot.orderBy.head? = some ⟨slot.keyColumn, dir⟩ ∧ atHead = decide (dir = .desc) := by
  unfold insertAtHead at h
  cases hfirst : slot.sort.head? with
  | none => simp [hfirst] at h
  | some first =>
      simp only [hfirst] at h
      split_ifs at h with hkey
      refine ⟨first.dir, ?_, (Option.some.inj h).symm⟩
      rw [slot.sort_head first hfirst hkey, ← hkey]

section
variable {substrate : Substrate} {schema : ForgeSchema} {principal : Option PrincipalId}
variable {writes : List ForgeWrite} {db db' : Db} {broadcast : Registry} {t : Touched}
variable {atHead : Bool} {opBefore opAfter : Op} {previous bytes next : List Char}

theorem Touched.splice_some (hlead : insertAtHead t.slot = some atHead)
    (hcached : broadcast.value t.channel = some previous)
    (hsplice : t.splice broadcast = some bytes) : t.mutated = false ∧ t.appended ≠ [] ∧
      spliceAppended previous t.appended atHead = some bytes := by
  unfold Touched.splice at hsplice
  rw [hlead, hcached] at hsplice
  dsimp only at hsplice
  split_ifs at hsplice with hplain
  obtain ⟨hmutated, hnonempty⟩ := not_or.mp hplain
  exact ⟨by simpa using hmutated, hnonempty, hsplice⟩

theorem Touched.splice_source (hsplice : t.splice broadcast = some bytes) :
    ∃ atHead previous, insertAtHead t.slot = some atHead ∧
      broadcast.value t.channel = some previous := by
  unfold Touched.splice at hsplice
  split at hsplice
  · cases hsplice
  · next atHead hlead =>
    split_ifs at hsplice
    obtain ⟨previous, hprevious, -⟩ := Option.bind_eq_some_iff.mp hsplice
    exact ⟨atHead, previous, hlead, hprevious⟩

/-- The splice of a call of appends to one channel, onto what a read answered before the
call, is what a read answers after it exactly when the rows come as a read shows them. -/
theorem splice_eq_materialize_iff (hd : schema.Deployed db)
    (hcommit : commitWrites substrate schema writes principal db = .ok ([t], db'))
    (happends : ∀ write ∈ writes, ∃ record, write = .append t.slot.topic record)
    (hlead : insertAtHead t.slot = some atHead)
    (hbefore : materializeSlot substrate opBefore db t.slot t.partition = .ok previous)
    (hcached : broadcast.value t.channel = some previous)
    (hsplice : t.splice broadcast = some bytes)
    (hafter : materializeSlot substrate opAfter db' t.slot t.partition = .ok next) :
    bytes = next ↔ ∃ table, db.table t.slot.table = some table ∧
      Continues t.slot substrate.engine principal t.partition
        (if atHead then .desc else .asc) table
        (committedSteps substrate schema writes principal db) := by
  obtain ⟨hmutated, hnonempty, hsplice⟩ := Touched.splice_some hlead hcached hsplice
  obtain ⟨dir, horder, rfl⟩ := insertAtHead_some hlead
  obtain ⟨hwrites, hran⟩ := commitWrites_ran hd hcommit
  have hslot : t.slot ∈ schema.collections := hran.slots (by simp) t List.mem_cons_self
  obtain ⟨table, htable, hdeclares⟩ := hd t.slot hslot
  have happends' : ∀ step ∈ committedSteps substrate schema writes principal db,
      ∃ record, step.write = .append t.slot.topic record := fun step hstep =>
    happends step.write (hwrites ▸ List.mem_map_of_mem hstep)
  obtain ⟨-, -, table', rows, values, htable', hrun, happended⟩ :=
    hran.appendRun rfl hmutated hslot happends' (by simp) htable hdeclares
  rw [List.flatMap_nil, List.nil_append] at happended
  -- what was read before, and what is read after
  obtain ⟨_, cols, _, hcols, rfl⟩ := materializeSlot_ok hdeclares htable hbefore
  obtain ⟨_, cols', _, hcols', rfl⟩ := materializeSlot_ok (hrun.declares hdeclares) htable' hafter
  rw [insertionSort_channelRows hdeclares horder hcols] at hsplice
  rw [insertionSort_channelRows (hrun.declares hdeclares) horder hcols']
  rw [spliceAppended_array hnonempty, happended] at hsplice
  obtain rfl := Option.some.inj hsplice
  have hnew : (t.slot.channelRows substrate.engine t.partition table').Pairwise
      fun r s => r.key < s.key := table'.sorted.filter _
  have hperm : (t.slot.channelRows substrate.engine t.partition table').Perm
      (t.slot.channelRows substrate.engine t.partition table ++
        rows.filter (t.slot.shows substrate.engine t.partition)) := by
    have hfilter := hrun.perm.filter (t.slot.shows substrate.engine t.partition)
    rwa [List.filter_append] at hfilter
  have hdir : (if decide (dir = .desc) = true then SortDir.desc else .asc) = dir := by
    cases dir <;> rfl
  have harranged := arrange_eq_map_iff dir
    (fun r => (t.slot.handsBack_recordOf r).key) hrun.keys hnew hperm
  rw [hdir]
  simp only [decide_eq_true_eq]
  calc
    _ ↔ _ := ⟨fun h => Value.array.inj (encode_injective h), fun h => congrArg _ (congrArg _ h)⟩
    _ ↔ _ := harranged
    _ ↔ _ := by
        rw [hrun.values_eq_iff]
        constructor
        · rintro ⟨hnamed, hshown, hplaced⟩
          exact ⟨table, htable, hnamed, hrun.rows_eq ▸ hshown, hrun.rows_eq ▸ hplaced⟩
        · rintro ⟨found, hfound, hnamed, hshown, hplaced⟩
          obtain rfl := Option.some.inj (htable.symm.trans hfound)
          rw [hrun.rows_eq] at hshown hplaced
          exact ⟨hnamed, hshown, hplaced⟩

end

/-- The first entry of a guestbook, spliced onto an empty page. -/
theorem splice_eq_materialize_iff_guestbook :
    let writes := [ForgeWrite.append "guestbook" (.single "author" (.string "ada"))]
    let t : Touched := ⟨guestbook, none, "guestbook",
      [.object [("author", .string "ada"), ("id", .number (.int 1))]], false⟩
    let bytes := (Value.array t.appended).encode
    ∃ db', commitWrites .plain guestbookSchema writes none guestbookDb = .ok ([t], db') ∧
      (bytes = bytes ↔ ∃ table, guestbookDb.table t.slot.table = some table ∧
        Continues t.slot Engine.plain none t.partition .asc table
          (committedSteps .plain guestbookSchema writes none guestbookDb)) := by
  intro writes t bytes
  have hbefore : materializeSlot .plain .begin guestbookDb t.slot t.partition =
      .ok (Value.array []).encode := by decide
  have hcached : (Registry.empty.topic "guestbook" (Value.array []).encode).value t.channel =
      some (Value.array []).encode := by decide
  have hsplice : t.splice (Registry.empty.topic "guestbook" (Value.array []).encode) =
      some bytes := by decide
  have happends : ∀ write ∈ writes, ∃ record, write = .append t.slot.topic record := by
    intro write hwrite
    exact ⟨_, List.mem_singleton.mp hwrite⟩
  have hlead : insertAtHead t.slot = some false := by decide
  have hcommit : ∃ db', commitWrites .plain guestbookSchema writes none guestbookDb =
        .ok ([t], db') ∧
      materializeSlot .plain .commit db' t.slot t.partition = .ok bytes :=
    ⟨_, rfl, by decide⟩
  obtain ⟨db', hcommit, hafter⟩ := hcommit
  exact ⟨db', hcommit, splice_eq_materialize_iff guestbook_deployed hcommit happends hlead
    hbefore hcached hsplice hafter⟩

/-- A guestbook that shows the newest entry first, with a note that may be left out. -/
def board : ForgeCollection where
  topic := "board"
  table := "board"
  keyColumn := "id"
  fields := [("author", ⟨.text, false⟩), ("note", ⟨.text, true⟩)]
  orderBy := [⟨"id", .desc⟩]
  sort := [⟨"id", .desc⟩]
  partitionBy := none
  identityPartitioned := false
  edit := .author
  table_safe := by decide
  key_safe := guestbook.key_safe
  key_fresh := by decide
  fields_nodup := by decide
  partition_declared := by decide
  sort_head _ hk _ := hk

def boardSchema : ForgeSchema := ⟨[board], by simp⟩

theorem no_posts_sorted : ([] : List Row).Pairwise fun r s => r.key < s.key := .nil

def boardDb : Db where
  tables := fun name =>
    if name = "board" then some ⟨"board", "id", board.fields, [], 0, no_posts_sorted, by decide⟩
    else none
  authors := fun _ => none

def post (author : String) (note : Option String) : ForgeWrite :=
  let record := Record.single "author" (.string author)
  .append "board" (match note with
    | some note => record.insert "note" (.string note)
    | none => record)

def boardTopics : Registry := Registry.empty.topic "board" "[]".toList

/-- A post without a note is spliced without its column, and two posts with notes are spliced
in the order they came. -/
theorem spliced_board_is_not_read :
    (∃ t db' bytes next,
      commitWrites .plain boardSchema [post "ada" none] none boardDb = .ok ([t], db') ∧
      materializeSlot .plain (.read "board") boardDb t.slot t.partition = .ok "[]".toList ∧
      boardTopics.value t.channel = some "[]".toList ∧ t.splice boardTopics = some bytes ∧
      materializeSlot .plain (.read "board") db' t.slot t.partition = .ok next ∧ bytes ≠ next) ∧
    ∃ t db' bytes next,
      commitWrites .plain boardSchema [post "ada" (some "hi"), post "alan" (some "yo")] none
        boardDb = .ok ([t], db') ∧
      materializeSlot .plain (.read "board") boardDb t.slot t.partition = .ok "[]".toList ∧
      boardTopics.value t.channel = some "[]".toList ∧ t.splice boardTopics = some bytes ∧
      materializeSlot .plain (.read "board") db' t.slot t.partition = .ok next ∧ bytes ≠ next := by
  constructor
  · exact ⟨_, _, _, _, rfl, by decide, by decide, rfl, rfl, by decide⟩
  · exact ⟨_, _, _, _, rfl, by decide, by decide, rfl, rfl, by decide⟩

end Albedo.Forge
