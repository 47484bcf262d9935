import Albedo.Forge.Splice

/-!
# Rows of other partitions

A write records what it appended on every channel of its collection that the call has touched so
far. So a channel that is spliced gets the rows of every append since the one that touched it, also
those of other partitions. It shows no row of another partition exactly when these rows and those
it showed before are in its own, or it is read again.
-/
namespace Albedo.Forge
open Json Broadcast Fallible

section

variable {substrate : Substrate} {schema : ForgeSchema} {principal : Option PrincipalId}
variable {touched touched' noted : List Touched} {db db' : Db} {slot : ForgeCollection}
variable {steps : List Step}

/-! ### What was appended since a channel was touched -/

def Step.appendChannel (principal : Option PrincipalId) (step : Step) : Option String :=
  match step.write with
  | .append _ given => do
      let record ← (authorizeAppend step.slot given principal).toOption
      let partition ← (appendPartition step.slot record).toOption
      (channelOf step.slot partition).toOption.join
  | _ => none

def Step.insertedInto (engine : Engine) (principal : Option PrincipalId) (c : ForgeCollection)
    (step : Step) : Option Row :=
  if step.slot.topic = c.topic then step.inserted engine principal else none

def appendedSince (engine : Engine) (principal : Option PrincipalId) (c : ForgeCollection)
    (channel : String) (steps : List Step) : List Row :=
  (steps.dropWhile fun step =>
    !(step.slot.topic = c.topic && step.appendChannel principal = some channel)).filterMap
      (Step.insertedInto engine principal c)

def shownKeys (c : ForgeCollection) (values : List Value) : List (Option Value) :=
  values.map fun value => value.get c.keyColumn

def rowKeys (rows : List Row) : List (Option Value) :=
  rows.map fun row => some (.number (.int row.key))

theorem noteResolved_spec {resolved : List (Option String)}
    (h : noteResolved slot touched resolved = .ok noted) :
    (∀ x ∈ touched, x ∈ noted) ∧ ∀ n ∈ noted, n ∈ touched ∨
      n.slot = slot ∧ n.appended = [] ∧ n.channel ∉ touched.map Touched.channel ∧
        ∃ partition ∈ resolved, channelOf slot partition = .ok (some n.channel) := by
  refine noteResolved_induction (fun noted => (∀ x ∈ touched, x ∈ noted) ∧ ∀ n ∈ noted,
    n ∈ touched ∨ n.slot = slot ∧ n.appended = [] ∧ n.channel ∉ touched.map Touched.channel ∧
      ∃ partition ∈ resolved, channelOf slot partition = .ok (some n.channel))
    (fun middle partition channel hpartition ⟨hkept, hmiddle⟩ hchannel hfresh => ⟨?_, ?_⟩) h
    ⟨fun _ hx => hx, fun _ hn => Or.inl hn⟩
  · exact fun x hx => List.mem_append_left _ (hkept x hx)
  · intro n hn
    rcases List.mem_append.mp hn with hn | hn
    · exact hmiddle n hn
    · obtain rfl := List.mem_singleton.mp hn
      refine Or.inr ⟨rfl, rfl, fun hknown => hfresh ?_, partition, hpartition, hchannel⟩
      obtain ⟨x, hx, hxchannel⟩ := List.mem_map.mp hknown
      exact List.mem_map.mpr ⟨x, hkept x hx, hxchannel⟩

theorem recordOutcome_mem {outcome : Option Value} (hnodup : (noted.map Touched.channel).Nodup)
    {t : Touched} (h : t ∈ recordOutcome noted slot outcome) :
    ∃ n ∈ noted, t = if n.slot.topic = slot.topic then n.record outcome else n := by
  unfold recordOutcome at h
  obtain ⟨n, hn, rfl⟩ := List.mem_map.mp h
  refine ⟨n, hn, ?_⟩
  have hchannel : n.channel ∈ (noted.filter fun known => known.slot.topic = slot.topic).map
      Touched.channel ↔ n.slot.topic = slot.topic := by
    constructor
    · intro hmem
      obtain ⟨m, hm, hchannel⟩ := List.mem_map.mp hmem
      obtain ⟨hm, htopic⟩ := List.mem_filter.mp hm
      obtain rfl := List.inj_on_of_nodup_map hnodup hm hn hchannel
      simpa using htopic
    · intro htopic
      exact List.mem_map.mpr ⟨n, List.mem_filter.mpr ⟨hn, by simpa using htopic⟩, rfl⟩
  simp only [hchannel]

theorem mem_addTouched (touched : List Touched) (slot : ForgeCollection)
    (partition : Option String) (channel : String) :
    channel ∈ (addTouched touched slot partition channel).map Touched.channel := by
  unfold addTouched
  split_ifs with hknown
  · obtain ⟨x, hx, hchannel⟩ := List.any_eq_true.mp hknown
    exact List.mem_map.mpr ⟨x, hx, of_decide_eq_true hchannel⟩
  · simp

theorem Performed.outcome {write : ForgeWrite} (hdeployed : slot.DeployedIn db)
    (h : Performed substrate slot principal touched db write touched' db') :
    ∃ resolved noted outcome, noteResolved slot touched resolved = .ok noted ∧
      touched' = recordOutcome noted slot outcome ∧
      (∀ channel, Step.appendChannel principal ⟨slot, db, write⟩ = some channel →
        channel ∈ noted.map Touched.channel) ∧
      ∀ value, outcome = some value → ∃ row,
        Step.inserted substrate.engine principal ⟨slot, db, write⟩ = some row ∧
        value.get slot.keyColumn = some (.number (.int row.key)) ∧
        ∀ partition ∈ resolved, ∀ channel, channelOf slot partition = .ok (some channel) →
          Step.appendChannel principal ⟨slot, db, write⟩ = some channel := by
  cases h with
  | @append collection given record partition noted params t t' row hrecord hpartition hnoted
      hparams ht hinsert =>
    have hchannel : Step.appendChannel principal ⟨slot, db, .append collection given⟩ =
        (channelOf slot partition).toOption.join := by
      simp [Step.appendChannel, hrecord, hpartition, Except.toOption]
    refine ⟨[partition], noted, _, hnoted, rfl, fun channel happended => ?_, fun value hvalue =>
      ⟨row, ?_, ?_, fun p hp channel hp' => ?_⟩⟩
    · rw [hchannel] at happended
      obtain ⟨middle, hmiddle, hrest⟩ := bind_eq_ok.mp hnoted
      obtain rfl := Except.ok.inj hrest
      unfold noteTouched at hmiddle
      cases hof : channelOf slot partition with
      | error err =>
        rw [hof] at happended
        cases happended
      | ok found =>
        rw [hof] at happended hmiddle
        obtain rfl : found = some channel := happended
        obtain rfl := Except.ok.inj hmiddle
        exact mem_addTouched _ _ _ _
    · simp [Step.inserted, Step.table, ht, hrecord, hparams, hinsert, Except.toOption]
    · obtain ⟨t₀, ht₀, hdeclares⟩ := hdeployed
      obtain rfl := Option.some.inj (ht₀.symm.trans ht)
      exact (persistedRow_handsBack hdeclares hvalue).key
    · obtain rfl := List.mem_singleton.mp hp
      rw [hchannel, hp']
      rfl
  | update _ _ _ _ _ _ _ hnoted _ _ =>
    refine ⟨_, _, none, hnoted, rfl, fun channel happended => ?_, fun value hvalue => ?_⟩
    · cases happended
    · cases hvalue
  | delete _ _ _ _ _ hnoted =>
    refine ⟨_, _, none, hnoted, rfl, fun channel happended => ?_, fun value hvalue => ?_⟩
    · cases happended
    · cases hvalue

/-- What a channel that was only appended to has recorded: the rows of every append to its
collection, from the one that touched it on. -/
theorem Ran.appended (h : Ran substrate schema principal touched db steps touched' db')
    (hd : schema.Deployed db) (hnodup : (touched.map Touched.channel).Nodup) {t : Touched}
    (hslot : t.slot ∈ schema.collections) (ht : t ∈ touched') (hmutated : t.mutated = false) :
    (∃ x ∈ touched, x.channel = t.channel ∧ x.slot = t.slot ∧ x.mutated = false ∧
      shownKeys t.slot t.appended = shownKeys t.slot x.appended ++
        rowKeys (steps.filterMap (Step.insertedInto substrate.engine principal t.slot))) ∨
    t.channel ∉ touched.map Touched.channel ∧ shownKeys t.slot t.appended =
      rowKeys (appendedSince substrate.engine principal t.slot t.channel steps) := by
  induction h with
  | nil => exact Or.inl ⟨t, ht, rfl, rfl, hmutated, by simp [rowKeys]⟩
  | @cons touched middle touched' db db₁ db' slot write steps hmem htopic hperformed hrest ih =>
    have hnodup' := hperformed.channels_nodup hnodup
    have hih := ih (hperformed.deployed hd) hnodup' ht
    obtain ⟨resolved, noted, outcome, hnoted, rfl, hchannels, houtcome⟩ :=
      hperformed.outcome (hd slot hmem)
    obtain ⟨hkept, hspec⟩ := noteResolved_spec hnoted
    rw [recordOutcome_channels] at hnodup' hih
    rcases hih with ⟨x, hx, hxchannel, hxslot, hxmutated, hkeys⟩ | ⟨hfresh, hkeys⟩
    · obtain ⟨n, hn, rfl⟩ := recordOutcome_mem hnodup' hx
      by_cases htopic' : n.slot.topic = slot.topic
      · rw [if_pos htopic'] at hxchannel hxslot hxmutated hkeys
        rw [Touched.record_slot] at hxslot
        cases outcome with
        | none => cases hxmutated
        | some value =>
          have hxchannel' : n.channel = t.channel := hxchannel
          obtain ⟨row, hinserted, hkey, hresolved⟩ := houtcome value rfl
          obtain rfl : slot = t.slot := by
            refine ForgeSchema.eq_of_topic hmem hslot ?_
            rw [← hxslot]
            exact htopic'.symm
          have hinto : Step.insertedInto substrate.engine principal t.slot ⟨t.slot, db, write⟩ =
              some row := by rw [Step.insertedInto, if_pos rfl, hinserted]
          rcases hspec n hn with hknown | ⟨-, hempty, hfresh, partition, hpartition, hof⟩
          · refine Or.inl ⟨n, hknown, hxchannel, hxslot, hxmutated, ?_⟩
            rw [hkeys, List.filterMap_cons_some hinto]
            simp [shownKeys, rowKeys, Touched.record, hkey]
          · have happends := hresolved partition hpartition n.channel hof
            rw [hxchannel'] at happends hfresh
            refine Or.inr ⟨hfresh, ?_⟩
            unfold appendedSince
            rw [hkeys, List.dropWhile_cons_of_neg (by simp [happends]),
              List.filterMap_cons_some hinto]
            simp [shownKeys, rowKeys, Touched.record, hempty, hkey]
      · rw [if_neg htopic'] at hxchannel hxslot hxmutated hkeys
        rcases hspec n hn with hknown | ⟨hslot, -⟩
        · refine Or.inl ⟨n, hknown, hxchannel, hxslot, hxmutated, ?_⟩
          have hinto : Step.insertedInto substrate.engine principal t.slot ⟨slot, db, write⟩ =
              none := by
            rw [Step.insertedInto, if_neg]
            rw [← hxslot]
            exact fun h => htopic' h.symm
          rw [hkeys, List.filterMap_cons_none hinto]
        · exact absurd (hslot ▸ rfl) htopic'
    · refine Or.inr ⟨fun hknown => hfresh ?_, ?_⟩
      · obtain ⟨x, hx, hxchannel⟩ := List.mem_map.mp hknown
        exact List.mem_map.mpr ⟨x, hkept x hx, hxchannel⟩
      · rw [hkeys]
        unfold appendedSince
        rw [List.dropWhile_cons_of_pos]
        have hnot : ¬ Step.appendChannel principal ⟨slot, db, write⟩ = some t.channel :=
          fun happends => hfresh (hchannels _ happends)
        simp [hnot]

/-! ### What a channel shows -/

def ForgeCollection.Confined (c : ForgeCollection) (engine : Engine) (partition : Option String)
    (t : Table) (bytes : List Char) : Prop :=
  ∀ items, bytes = (Value.array items).encode → ∀ item ∈ items, ∀ row ∈ t.rows,
    item.get c.keyColumn = some (.number (.int row.key)) → c.shows engine partition row = true

def ForgeCollection.ShowsRows (c : ForgeCollection) (bytes : List Char) : Prop :=
  ∃ items, bytes = (Value.array items).encode ∧
    ∀ item ∈ items, ∃ i : ℤ, item.get c.keyColumn = some (.number (.int i))

theorem ForgeCollection.confined_array {c : ForgeCollection} {engine : Engine}
    {partition : Option String} {t : Table} {items : List Value} :
    c.Confined engine partition t (Value.array items).encode ↔ ∀ item ∈ items, ∀ row ∈ t.rows,
      item.get c.keyColumn = some (.number (.int row.key)) →
        c.shows engine partition row = true := by
  refine ⟨fun h => h items rfl, fun h items' hitems => ?_⟩
  obtain rfl := Value.array.inj (encode_injective hitems)
  exact h

theorem confined_materializeSlot {c : ForgeCollection} {op : Op} {partition : Option String}
    {t : Table} {bytes : List Char} (hdeclares : c.Declares t) (ht : db.table c.table = some t)
    (h : materializeSlot substrate op db c partition = .ok bytes) :
    c.Confined substrate.engine partition t bytes := by
  obtain ⟨_, cols, -, -, rfl⟩ := materializeSlot_ok hdeclares ht h
  rw [ForgeCollection.confined_array]
  intro item hitem row hrow hkey
  obtain ⟨shown, hshown, rfl⟩ := List.mem_map.mp hitem
  rw [List.mem_insertionSort] at hshown
  obtain ⟨hshown, hshows⟩ := List.mem_filter.mp hshown
  rw [(c.handsBack_recordOf shown).key] at hkey
  have hsame : shown.key = row.key := by simpa using hkey
  rwa [← Table.eq_of_key hshown hrow hsame]

theorem Touched.splice_items (hd : schema.Deployed db)
    (hran : Ran substrate schema principal [] db steps touched' db') {t : Touched}
    (ht : t ∈ touched') (hslot : t.slot ∈ schema.collections) {broadcast : Registry}
    {old : List Value} {bytes : List Char}
    (hcached : broadcast.value t.channel = some (Value.array old).encode)
    (hsplice : t.splice broadcast = some bytes) :
    ∃ items, bytes = (Value.array items).encode ∧
      ∀ P : Option Value → Prop, (∀ item ∈ items, P (item.get t.slot.keyColumn)) ↔
        (∀ item ∈ old, P (item.get t.slot.keyColumn)) ∧
          ∀ appended ∈ appendedSince substrate.engine principal t.slot t.channel steps,
            P (some (.number (.int appended.key))) := by
  obtain ⟨atHead, -, hlead, -⟩ := Touched.splice_source hsplice
  obtain ⟨hmutated, hnonempty, hsplice⟩ := Touched.splice_some hlead hcached hsplice
  rw [spliceAppended_array hnonempty] at hsplice
  obtain rfl := Option.some.inj hsplice
  have hkeys : shownKeys t.slot t.appended =
      rowKeys (appendedSince substrate.engine principal t.slot t.channel steps) := by
    rcases hran.appended hd (by simp) hslot ht hmutated with ⟨x, hx, -⟩ | ⟨-, hkeys⟩
    · cases hx
    · exact hkeys
  refine ⟨_, rfl, fun P => ?_⟩
  have happended : (∀ item ∈ t.appended, P (item.get t.slot.keyColumn)) ↔
      ∀ appended ∈ appendedSince substrate.engine principal t.slot t.channel steps,
        P (some (.number (.int appended.key))) := by
    have hmap := congrArg (fun l => ∀ k ∈ l, P k) hkeys
    simpa only [shownKeys, rowKeys, List.forall_mem_map, eq_iff_iff] using hmap
  have hmem : ∀ item, (item ∈ if atHead then t.appended ++ old else old ++ t.appended) ↔
      item ∈ old ∨ item ∈ t.appended := by
    intro item
    cases atHead <;> simp [or_comm]
  simp only [hmem, or_imp, forall_and, happended]

/-! ### What is sent of the rows -/

def sentKeys : Instruction → List String
  | .slotSet _ _ => []
  | .slotDelta _ changes => (changes.filter fun change => 0 < change.weight).map SlotChange.key
  | .slotInsert _ _ rows | .reconcileList _ rows => rows.map ReconcileRow.key

def updateKeys : ListUpdate → List String
  | .none => []
  | .delta changes => (changes.filter fun change => 0 < change.weight).map SlotChange.key
  | .insert _ rows | .reconcile rows => rows.map ReconcileRow.key

theorem coalesceChanges_keys {changes : List SlotChange} {change : SlotChange}
    (h : change ∈ coalesceChanges changes) (hweight : 0 < change.weight) :
    ∃ c ∈ changes, c.key = change.key ∧ 0 < c.weight := by
  have hfold : ∀ (rest order : List SlotChange), (∀ c ∈ order, 0 < c.weight →
      ∃ x ∈ changes, x.key = c.key ∧ 0 < x.weight) → (∀ c ∈ rest, c ∈ changes) →
      ∀ c ∈ rest.foldl addChange order, 0 < c.weight →
        ∃ x ∈ changes, x.key = c.key ∧ 0 < x.weight := by
    intro rest
    induction rest with
    | nil => exact fun order horder _ => horder
    | cons next rest ih =>
      intro order horder hrest
      refine ih _ (fun c hc hpositive => ?_) fun c hc => hrest c (List.mem_cons_of_mem _ hc)
      unfold addChange at hc
      split_ifs at hc with hknown
      · obtain ⟨c', hc', rfl⟩ := List.mem_map.mp hc
        split_ifs at hpositive ⊢ with hsame
        · have hsum : 0 < c'.weight ∨ 0 < next.weight := by
            unfold saturatingAddWeight at hpositive
            dsimp only at hpositive
            omega
          rcases hsum with hc'' | hnext
          · exact horder c' hc' hc''
          · exact ⟨next, hrest next List.mem_cons_self, hsame.1.symm, hnext⟩
        · exact horder c' hc' hpositive
      · rcases List.mem_append.mp hc with hc | hc
        · exact horder c hc hpositive
        · obtain rfl := List.mem_singleton.mp hc
          exact ⟨c, hrest c List.mem_cons_self, rfl, hpositive⟩
  exact hfold changes [] (by simp) (fun _ hc => hc) change (List.mem_filter.mp h).1 hweight

theorem sentKeys_instruction (slotId : SlotId) (transition : TopicTransition) :
    ∀ key ∈ sentKeys (transition.instruction slotId), key ∈ updateKeys transition.update := by
  obtain ⟨value, update⟩ := transition
  intro key hkey
  unfold TopicTransition.instruction at hkey
  cases update with
  | none => exact hkey
  | delta changes =>
    dsimp only [listInstruction] at hkey
    split_ifs at hkey
    · obtain ⟨change, hchange, rfl⟩ := List.mem_map.mp hkey
      obtain ⟨hchange, hweight⟩ := List.mem_filter.mp hchange
      obtain ⟨c, hc, hsame, hpositive⟩ := coalesceChanges_keys hchange (of_decide_eq_true hweight)
      exact List.mem_map.mpr ⟨c, List.mem_filter.mpr ⟨hc, decide_eq_true hpositive⟩, hsame⟩
    · cases hkey
  | insert before rows =>
    dsimp only [listInstruction] at hkey
    split_ifs at hkey
    · exact hkey
    · cases hkey
  | reconcile rows => exact hkey

theorem exists_of_mem_mapM {α β : Type} {f : α → Option β} {xs : List α} {ys : List β} {y : β}
    (h : xs.mapM f = some ys) (hy : y ∈ ys) : ∃ x ∈ xs, f x = some y := by
  have hall := mapM_eq_some.mp h
  clear h
  induction hall with
  | nil => cases hy
  | @cons x y' xs ys hfirst _ ih =>
    rcases List.mem_cons.mp hy with rfl | hy
    · exact ⟨x, List.mem_cons_self, hfirst⟩
    · obtain ⟨x', hx', hfx'⟩ := ih hy
      exact ⟨x', List.mem_cons_of_mem _ hx', hfx'⟩

theorem updateKeys_reconcileOrDefer (rows : RenderedRows) (isPartial : Bool) :
    ∀ key ∈ updateKeys (reconcileOrDefer rows isPartial).1, key ∈ rows.keys := by
  intro key hkey
  unfold reconcileOrDefer at hkey
  split_ifs at hkey
  · cases hkey
  · simpa [updateKeys, reconcileRows, RenderedRows.keys, KeyedList.keys] using hkey

theorem mem_keys_of_get {rows : RenderedRows} {key : String} {markup : Markup}
    (h : rows.get key = some markup) : key ∈ rows.keys := KeyedList.mem_keys_of_lookup h

theorem updateKeys_rowUpdate (slot : ForgeCollection) (previous next : List Char)
    (rows : RenderedRows) (isPartial : Bool) :
    ∀ key ∈ updateKeys (rowUpdate slot previous next rows isPartial).1, key ∈ rows.keys := by
  have hreconcile := updateKeys_reconcileOrDefer rows isPartial
  intro key hkey
  unfold rowUpdate at hkey
  dsimp only at hkey
  split at hkey
  · cases hkey
  · split at hkey
    · next changes hchanges =>
      obtain ⟨change, hchange, rfl⟩ := List.mem_map.mp hkey
      obtain ⟨row, -, hrow⟩ := exists_of_mem_mapM hchanges (List.mem_filter.mp hchange).1
      obtain ⟨markup, hmarkup, rfl⟩ := Option.map_eq_some_iff.mp hrow
      exact mem_keys_of_get hmarkup
    · exact hreconcile key hkey
  · split at hkey
    · split_ifs at hkey
      · split at hkey
        · split at hkey
          · next inserted hinserted =>
            obtain ⟨row, hrow, rfl⟩ := List.mem_map.mp hkey
            obtain ⟨key, -, hkey'⟩ := exists_of_mem_mapM hinserted hrow
            obtain ⟨markup, hmarkup, rfl⟩ := Option.map_eq_some_iff.mp hkey'
            exact mem_keys_of_get hmarkup
          · exact hreconcile key hkey
        · exact hreconcile key hkey
      · split at hkey
        · cases hkey
        · split at hkey
          · next changes hchanges =>
            obtain ⟨change, hchange, rfl⟩ := List.mem_map.mp hkey
            obtain ⟨hchange, hweight⟩ := List.mem_filter.mp hchange
            obtain ⟨record, -, hrecord⟩ := exists_of_mem_mapM hchanges hchange
            obtain ⟨payload, hpayload, rfl⟩ := Option.map_eq_some_iff.mp hrecord
            have hpositive : ¬ record.weight < 0 := not_lt.mpr (of_decide_eq_true hweight).le
            rw [if_neg hpositive] at hpayload
            obtain ⟨markup, hmarkup, -⟩ := Option.map_eq_some_iff.mp hpayload
            exact mem_keys_of_get hmarkup
          · exact hreconcile key hkey
        · exact hreconcile key hkey
    · exact hreconcile key hkey

/-! ### What is rendered -/

/-- A projector that renders the records of the value it is given, under their keys. -/
def RowProjector.Faithful (projector : RowProjector) (c : ForgeCollection) : Prop :=
  ∀ partition items rows, projector.projectRows c.topic partition (Value.array items).encode =
    some rows → ∀ key ∈ rows.keys, ∃ item ∈ items, recordKey c.keyColumn item = some key

theorem keys_renderSingletons {projector : RowProjector} {partition : Option String}
    {rows rendered : RenderedRows} {records : Keyed}
    (h : renderSingletons projector slot partition rows records = some rendered) :
    ∀ key ∈ rendered.keys, key ∈ rows.keys ∨ key ∈ KeyedList.keys records := by
  induction records generalizing rows with
  | nil =>
    obtain rfl := Option.some.inj h
    exact fun key hkey => Or.inl hkey
  | cons entry records ih =>
    obtain ⟨key, record⟩ := entry
    unfold renderSingletons at h
    obtain ⟨single, -, h⟩ := Option.bind_eq_some_iff.mp h
    obtain ⟨html, -, h⟩ := Option.bind_eq_some_iff.mp h
    intro key' hkey'
    rcases ih h key' hkey' with hrows | hrecords
    · have hput : key' ∈ KeyedList.keys (KeyedList.put key html rows.rows) := hrows
      rw [KeyedList.keys_put] at hput
      split_ifs at hput
      · exact Or.inl hput
      · rcases List.mem_append.mp hput with hput | hput
        · exact Or.inl hput
        · exact Or.inr (List.mem_singleton.mp hput ▸ List.mem_cons_self)
    · exact Or.inr (List.mem_cons_of_mem _ hrecords)

theorem diffRecords_added {previous : Value} {items : List Value} {keyColumn : String}
    {changes : List RecordChange} (h : diffRecords previous (.array items) keyColumn = some changes)
    {change : RecordChange} (hchange : change ∈ changes) (hweight : ¬ change.weight < 0) :
    ∃ item ∈ items, recordKey keyColumn item = some change.key := by
  obtain ⟨old, -, h⟩ := Option.bind_eq_some_iff.mp h
  obtain ⟨P, -, h⟩ := Option.bind_eq_some_iff.mp h
  obtain ⟨_, hitems, h⟩ := Option.bind_eq_some_iff.mp h
  obtain rfl := Option.some.inj hitems
  obtain ⟨N, hN, h⟩ := Option.bind_eq_some_iff.mp h
  obtain rfl := Option.some.inj h
  obtain ⟨hrows, -, hkeys⟩ := indexByKey_spec hN
  rcases List.mem_append.mp hchange with hchange | hchange
  · obtain ⟨row, -, rfl⟩ := List.mem_map.mp hchange
    exact absurd (show (-1 : ℤ) < 0 by decide) hweight
  · obtain ⟨row, hrow, hchange⟩ := List.mem_flatMap.mp hchange
    have hkey : change.key = row.1 := by
      unfold changesAt at hchange
      split at hchange
      · split_ifs at hchange
        · cases hchange
        · simp only [List.mem_cons, List.not_mem_nil, or_false] at hchange
          rcases hchange with rfl | rfl <;> rfl
      · rw [List.mem_singleton.mp hchange]
    rw [hkey]
    exact ⟨row.2, hrows ▸ List.mem_map_of_mem hrow, hkeys row hrow⟩

theorem keys_renderChangedRows {projector : RowProjector} {channel : String}
    {partition : Option String} {broadcast : Registry} {items : List Value} {rows : RenderedRows}
    (hcached : ∀ previous, broadcast.value channel = some previous → slot.ShowsRows previous)
    (h : renderChangedRows projector slot channel partition broadcast
      (Value.array items).encode = some rows) :
    ∀ key ∈ rows.keys, ∃ item ∈ items, recordKey slot.keyColumn item = some key := by
  unfold renderChangedRows at h
  cases hvalue : broadcast.value channel with
  | none =>
    rw [hvalue] at h
    cases h
  | some previous =>
    rw [hvalue] at h
    dsimp only at h
    obtain ⟨old, rfl, hold⟩ := hcached previous hvalue
    intro key hkey
    cases happended : appendedRows (Value.array old).encode (Value.array items).encode
        slot.keyColumn with
    | some appended =>
      rw [happended] at h
      obtain ⟨hitems, hkeys⟩ := appendedRows_spec (fun row hrow n hn => by
        obtain ⟨i, hi⟩ := hold row hrow
        rw [hn] at hi
        cases hi) happended
      rcases keys_renderSingletons h key hkey with hnew | hnew
      · cases hnew
      · obtain ⟨record, hrecord⟩ := KeyedList.mem_keys.mp hnew
        refine ⟨record, ?_, hkeys _ hrecord⟩
        rw [hitems]
        exact List.mem_append_right _ (List.mem_map_of_mem hrecord)
    | none =>
      rw [happended] at h
      dsimp only at h
      split at h
      · next previous next hprevious hnext =>
        obtain rfl := fromSlice_encode hnext
        obtain ⟨changes, hchanges, h⟩ := Option.bind_eq_some_iff.mp h
        rcases keys_renderSingletons h key hkey with hnew | hnew
        · cases hnew
        · obtain ⟨record, hrecord⟩ := KeyedList.mem_keys.mp hnew
          obtain ⟨change, hchange, hentry⟩ := List.mem_map.mp hrecord
          obtain ⟨hchange, hweight⟩ := List.mem_filter.mp hchange
          obtain ⟨rfl, -⟩ := Prod.mk.inj hentry
          exact diffRecords_added hchanges hchange (by simpa using hweight)
      · cases h

theorem sentKeys_published {projector : Option RowProjector} {broadcast : Registry} {t : Touched}
    {items : List Value} (hprojector : ∀ p ∈ projector, p.Faithful t.slot)
    (hcached : ∀ previous, broadcast.value t.channel = some previous → t.slot.ShowsRows previous)
    {slotId : SlotId} {instruction : Instruction} (h : instruction ∈
      publishedInstructions projector broadcast t (Value.array items).encode slotId) :
    ∀ key ∈ sentKeys instruction, ∃ item ∈ items, recordKey t.slot.keyColumn item = some key := by
  -- every rendering is of the value
  have hwhole : ∀ p ∈ projector, ∀ rows, p.projectRows t.slot.topic t.partition
      (Value.array items).encode = some rows →
        ∀ key ∈ rows.keys, ∃ item ∈ items, recordKey t.slot.keyColumn item = some key :=
    fun p hp rows hrows => hprojector p hp t.partition items rows hrows
  have hrendered : ∀ rows,
      (renderRows projector broadcast t (Value.array items).encode).1 = some rows →
        ∀ key ∈ rows.keys, ∃ item ∈ items, recordKey t.slot.keyColumn item = some key := by
    intro rows hrows
    cases projector with
    | none => cases hrows
    | some p =>
      unfold renderRows at hrows
      dsimp only at hrows
      split_ifs at hrows
      · split at hrows
        · next changed hchanged =>
          obtain rfl := Option.some.inj hrows
          exact keys_renderChangedRows hcached hchanged
        · exact hwhole p rfl rows hrows
      · exact hwhole p rfl rows hrows
  intro key hkey
  unfold publishedInstructions at h
  cases hrows : (renderRows projector broadcast t (Value.array items).encode).1 with
  | none =>
    simp only [hrows] at h
    obtain rfl := List.mem_singleton.mp h
    cases hkey
  | some rows =>
    simp only [hrows] at h
    unfold rowInstructions at h
    dsimp only at h
    rcases List.mem_cons.mp h with rfl | h
    · exact hrendered rows hrows key (updateKeys_rowUpdate _ _ _ _ _ key
        (sentKeys_instruction slotId _ key hkey))
    · split_ifs at h
      · obtain ⟨whole, hwholeRows, rfl⟩ := List.mem_map.mp h
        obtain ⟨p, hp, hproject⟩ := Option.bind_eq_some_iff.mp (Option.mem_toList.mp hwholeRows)
        have hreconcile := sentKeys_instruction slotId _ key hkey
        refine hwhole p hp whole hproject key ?_
        simpa [updateKeys, reconcileRows, RenderedRows.keys, KeyedList.keys] using hreconcile
      · cases h

/-! ### What a call leaves -/

theorem deriveBytes_splice {broadcast : Registry} {t : Touched} {bytes : List Char}
    (h : deriveBytes substrate db broadcast t = .ok bytes) : t.splice broadcast = some bytes ∨
      t.splice broadcast = none ∧
        materializeSlot substrate (.read t.channel) db t.slot t.partition = .ok bytes := by
  unfold deriveBytes at h
  split at h
  · next spliced hspliced =>
    cases h
    exact Or.inl hspliced
  · next hnone => exact Or.inr ⟨hnone, h⟩

def Unmixed (c : ForgeCollection) (engine : Engine) (partition : Option String) (t : Table)
    (bytes : List Char) (sent : List Instruction) : Prop :=
  c.Confined engine partition t bytes ∧ ∀ instruction ∈ sent, ∀ key ∈ sentKeys instruction,
    ∀ row ∈ t.rows, rowKey (.number (.int row.key)) = some key →
      c.shows engine partition row = true

/-- The rows a channel showed, and those appended to its collection since the call first appended
to it, are in its partition when the call has ended. -/
def StaysApart (c : ForgeCollection) (engine : Engine) (principal : Option PrincipalId)
    (partition : Option String) (channel : String) (t : Table) (previous : Option (List Char))
    (steps : List Step) : Prop :=
  (∀ bytes ∈ previous, c.Confined engine partition t bytes) ∧
    ∀ appended ∈ appendedSince engine principal c channel steps, ∀ row ∈ t.rows,
      row.key = appended.key → c.shows engine partition row = true

theorem rowKey_int_inj {i j : ℤ} {key : String} (h : rowKey (.number (.int i)) = some key)
    (h' : rowKey (.number (.int j)) = some key) : i = j := by
  have htext : (Number.int i).text = (Number.int j).text := by
    have hkey := Option.some.inj (h.trans h'.symm)
    exact String.ofList_injective hkey
  have hread := congrArg readNumber htext
  rw [readNumber_text, readNumber_text] at hread
  simpa using hread

/-- A channel that a call touched shows and is sent no row of another partition exactly when it is
read again, or the rows it showed and those appended since are its own. -/
theorem unmixed_iff (hd : schema.Deployed db) {writes : List ForgeWrite}
    (hcommit : commitWrites substrate schema writes principal db = .ok (touched, db'))
    {t : Touched} (ht : t ∈ touched) {table : Table}
    (htable : db'.table t.slot.table = some table) {broadcast : Registry}
    (hcached : ∀ previous, broadcast.value t.channel = some previous → t.slot.ShowsRows previous)
    {projector : Option RowProjector} (hprojector : ∀ p ∈ projector, p.Faithful t.slot)
    {bytes : List Char} (hderive : deriveBytes substrate db' broadcast t = .ok bytes)
    (slotId : SlotId) :
    Unmixed t.slot substrate.engine t.partition table bytes
        (publishedInstructions projector broadcast t bytes slotId) ↔
      t.splice broadcast = none ∨
        StaysApart t.slot substrate.engine principal t.partition t.channel table
          (broadcast.value t.channel) (committedSteps substrate schema writes principal db) := by
  obtain ⟨-, hran⟩ := commitWrites_ran hd hcommit
  have hslot : t.slot ∈ schema.collections := hran.slots (by simp) t ht
  obtain ⟨_, htable', hdeclares⟩ := hran.deployed hd t.slot hslot
  obtain rfl := Option.some.inj (htable.symm.trans htable')
  -- what is sent is in the value, so only the value counts
  have hsent : t.slot.ShowsRows bytes → t.slot.Confined substrate.engine t.partition table bytes →
      Unmixed t.slot substrate.engine t.partition table bytes
        (publishedInstructions projector broadcast t bytes slotId) := by
    rintro ⟨items, rfl, hitems⟩ hconfined
    refine ⟨hconfined, fun instruction hinstruction key hkey row hrow hrowKey => ?_⟩
    obtain ⟨item, hitem, hrecord⟩ :=
      sentKeys_published hprojector hcached hinstruction key hkey
    obtain ⟨i, hi⟩ := hitems item hitem
    rw [recordKey, hi, Option.bind_some] at hrecord
    obtain rfl := rowKey_int_inj hrecord hrowKey
    exact hconfined items rfl item hitem row hrow hi
  rcases deriveBytes_splice hderive with hsplice | ⟨hsplice, hread⟩
  · obtain ⟨_, previous, -, hprevious⟩ := Touched.splice_source hsplice
    obtain ⟨old, rfl, hold⟩ := hcached previous hprevious
    obtain ⟨items, rfl, hitems⟩ := Touched.splice_items hd hran ht hslot hprevious hsplice
    have hconfined : t.slot.Confined substrate.engine t.partition table (Value.array items).encode ↔
        StaysApart t.slot substrate.engine principal t.partition t.channel table
          (broadcast.value t.channel) (committedSteps substrate schema writes principal db) := by
      have hiff := hitems fun key => ∀ row ∈ table.rows, key = some (.number (.int row.key)) →
        t.slot.shows substrate.engine t.partition row = true
      rw [ForgeCollection.confined_array, hiff, StaysApart, hprevious]
      refine and_congr ⟨?_, fun h => ForgeCollection.confined_array.mp (h _ rfl)⟩ ⟨?_, ?_⟩
      · rintro h _ ⟨⟩
        exact ForgeCollection.confined_array.mpr h
      · exact fun h appended happended row hrow hkey => h appended happended row hrow (by rw [hkey])
      · intro h appended happended row hrow hkey
        exact h appended happended row hrow (by simpa using hkey.symm)
    constructor
    · exact fun h => Or.inr (hconfined.mp h.1)
    · rintro (hnone | hapart)
      · cases hsplice.symm.trans hnone
      · refine hsent ⟨items, rfl, ?_⟩ (hconfined.mpr hapart)
        exact (hitems fun key => ∃ i : ℤ, key = some (.number (.int i))).mpr
          ⟨hold, fun appended _ => ⟨appended.key, rfl⟩⟩
  · refine ⟨fun _ => Or.inl hsplice, fun _ =>
      hsent ?_ (confined_materializeSlot hdeclares htable hread)⟩
    obtain ⟨_, cols, -, -, rfl⟩ := materializeSlot_ok hdeclares htable hread
    refine ⟨_, rfl, fun item hitem => ?_⟩
    obtain ⟨row, -, rfl⟩ := List.mem_map.mp hitem
    exact ⟨row.key, (t.slot.handsBack_recordOf row).key⟩

end

def messages : ForgeCollection where
  topic := "messages"
  table := "messages"
  keyColumn := "id"
  fields := [("body", ⟨.text, false⟩), ("room", ⟨.text, false⟩)]
  orderBy := [⟨"id", .asc⟩]
  sort := [⟨"id", .asc⟩]
  partitionBy := some "room"
  identityPartitioned := false
  edit := .author
  table_safe := by decide
  key_safe := guestbook.key_safe
  key_fresh := by decide
  fields_nodup := by decide
  partition_declared := by decide
  sort_head _ hk _ := hk

def messagesSchema : ForgeSchema := ⟨[messages], by simp⟩

def messagesDb : Db where
  tables := fun name =>
    if name = "messages" then
      some ⟨"messages", "id", messages.fields, [], 0, no_posts_sorted, by decide⟩
    else none
  authors := fun _ => none

theorem messages_deployed : messagesSchema.Deployed messagesDb := by
  intro c hc
  obtain rfl := List.mem_singleton.mp hc
  exact ⟨_, rfl, rfl, rfl⟩

def spoken (body room : String) : ForgeWrite :=
  .append "messages" ((Record.single "body" (.string body)).insert "room" (.string room))

def openRooms : Registry :=
  (Registry.empty.topic "messages:den" "[]".toList).topic "messages:hall" "[]".toList

def message (body room : String) (id : ℤ) : Value :=
  .object [("body", .string body), ("id", .number (.int id)), ("room", .string room)]

/-- Two messages in one call, to two rooms: the first room shows the message of the second. -/
theorem message_in_other_room :
    ∃ touched db' t table bytes,
      commitWrites .plain messagesSchema [spoken "hi" "den", spoken "yo" "hall"] none messagesDb =
        .ok (touched, db') ∧ t ∈ touched ∧ db'.table t.slot.table = some table ∧
      t.slot.ShowsRows "[]".toList ∧ openRooms.value t.channel = some "[]".toList ∧
      deriveBytes .plain db' openRooms t = .ok bytes ∧
      ¬ Unmixed t.slot Engine.plain t.partition table bytes
        (publishedInstructions none openRooms t bytes (broadcastSlotId t.channel)) := by
  refine ⟨_, _, _, _, (Value.array [message "hi" "den" 1, message "yo" "hall" 2]).encode, rfl,
    List.mem_cons_self, rfl, ⟨[], by decide, by simp⟩, by decide, by rfl, fun h => ?_⟩
  have hshown := h.1 _ rfl (message "yo" "hall" 2) (by simp) _
    (List.mem_cons_of_mem _ List.mem_cons_self) rfl
  revert hshown
  decide

/-- One message, to a room that is open. -/
theorem unmixed_iff_messages :
    ∃ touched db' t table bytes,
      commitWrites .plain messagesSchema [spoken "hi" "den"] none messagesDb =
        .ok (touched, db') ∧ t ∈ touched ∧ db'.table t.slot.table = some table ∧
      deriveBytes .plain db' openRooms t = .ok bytes ∧ bytes ≠ "[]".toList ∧
      Unmixed t.slot Engine.plain t.partition table bytes
        (publishedInstructions none openRooms t bytes (broadcastSlotId t.channel)) := by
  have hrun : ∃ db' t table bytes,
      commitWrites .plain messagesSchema [spoken "hi" "den"] none messagesDb = .ok ([t], db') ∧
      db'.table t.slot.table = some table ∧ deriveBytes .plain db' openRooms t = .ok bytes ∧
      bytes ≠ "[]".toList ∧ openRooms.value t.channel = some "[]".toList ∧
      ∀ appended ∈ appendedSince Engine.plain none t.slot t.channel
          (committedSteps .plain messagesSchema [spoken "hi" "den"] none messagesDb),
        ∀ row ∈ table.rows, row.key = appended.key →
          t.slot.shows Engine.plain t.partition row = true :=
    ⟨_, _, _, (Value.array [message "hi" "den" 1]).encode, rfl, rfl, by rfl, by decide, by decide,
      by decide⟩
  obtain ⟨db', t, table, bytes, hcommit, htable, hderive, hne, hcached, hapart⟩ := hrun
  have hempty : "[]".toList = (Value.array []).encode := by decide
  refine ⟨[t], db', t, table, bytes, hcommit, List.mem_singleton_self t, htable, hderive, hne, ?_⟩
  refine (unmixed_iff messages_deployed hcommit (List.mem_singleton_self t) htable ?_ ?_ hderive
    (broadcastSlotId t.channel)).mpr (Or.inr ⟨?_, hapart⟩)
  · intro previous hprevious
    obtain rfl := Option.some.inj (hcached.symm.trans hprevious)
    exact ⟨[], hempty, by simp⟩
  · rintro _ ⟨⟩
  · intro previous hprevious
    obtain rfl := Option.some.inj (hcached.symm.trans hprevious)
    rw [hempty, ForgeCollection.confined_array]
    simp

end Albedo.Forge
