import Albedo.Forge.RowUpdate

/-!
# What a client list shows

A list that shows the previous rows follows the instructions of a write to the next
rows in their order, with every inserted or changed row as it was projected. The rows
the write did not change keep the markup they had, so the list shows what a reload
would exactly when their markup is the same in both projections.
-/
namespace Albedo.Forge
open Json Broadcast KeyedList

/-- The list has the next keys in their order; changed rows are as rendered, and the
others as the list had them. -/
structure Carries (previous next : Keyed) (rows : RenderedRows) (list after : ClientList) :
    Prop where
  keys_eq : keys after = keys next
  changed : ∀ row ∈ next, isChanged previous row = true →
    after.lookup row.1 = (rows.get row.1).map Markup.html
  kept : ∀ row ∈ next, isChanged previous row = false →
    after.lookup row.1 = list.lookup row.1

theorem get_of_rendered {changed : Keyed} {rows : RenderedRows} (h : Rendered changed rows)
    {row : String × Value} (hrow : row ∈ changed) :
    (rows.get row.1).map Markup.html = some (rows.htmlOf row.1) := by
  obtain ⟨markup, hmarkup⟩ := h row hrow
  simp [hmarkup, htmlOf_of_get hmarkup]

theorem htmlOf_ne_empty {changed : Keyed} {rows : RenderedRows} (h : Rendered changed rows)
    {row : String × Value} (hrow : row ∈ changed) : rows.htmlOf row.1 ≠ "" := by
  obtain ⟨markup, hmarkup⟩ := h row hrow
  exact htmlOf_of_get hmarkup ▸ markup.nonempty

theorem keys_changedRows_nodup {previous next : Keyed} (hn : (keys next).Nodup) :
    (keys (changedRows previous next)).Nodup :=
  (List.filter_sublist.map Prod.fst).nodup hn

theorem rowEdits_keys (previous next : Keyed) (rows : RenderedRows) :
    (rowEdits previous next rows).map Edit.key =
      keys (previous.filter fun row => row.1 ∉ keys next) ++ keys (changedRows previous next) := by
  simp [rowEdits, keys, Edit.key, Function.comp_def]

theorem rowEdits_keys_nodup {previous next : Keyed} (rows : RenderedRows)
    (hp : (keys previous).Nodup) (hn : (keys next).Nodup) :
    ((rowEdits previous next rows).map Edit.key).Nodup := by
  rw [rowEdits_keys, List.nodup_append]
  refine ⟨(List.filter_sublist.map Prod.fst).nodup hp, keys_changedRows_nodup hn, ?_⟩
  intro key hgone other hchanged heq
  rw [keys_filter fun key => decide (key ∉ keys next), List.mem_filter] at hgone
  have hmem : key ∈ keys next :=
    heq ▸ (List.filter_sublist.map Prod.fst).subset hchanged
  simp [hmem] at hgone

theorem keys_runEdits_rowEdits {previous next : Keyed} (rows : RenderedRows) {list : ClientList}
    (hn : (keys next).Nodup) (htail : TailAppend previous next) (hlist : keys list = keys previous) :
    keys (runEdits (rowEdits previous next rows) list) = keys next := by
  have hremove : (previous.filter fun row => row.1 ∉ keys next).map
      (fun row => (Edit.remove row.1 : Edit String String)) =
        (keys (previous.filter fun row => row.1 ∉ keys next)).map Edit.remove := by
    simp [keys, Function.comp_def]
  have hput : (changedRows previous next).map
      (fun row => (Edit.put row.1 (rows.htmlOf row.1) : Edit String String)) =
        ((changedRows previous next).map fun row => (row.1, rows.htmlOf row.1)).map
          fun e => Edit.put e.1 e.2 := by
    simp [Function.comp_def]
  have hputkeys : keys ((changedRows previous next).map fun row => (row.1, rows.htmlOf row.1)) =
      keys (changedRows previous next) := by
    simp [keys, Function.comp_def]
  have hkept : (keys previous).filter
      (· ∉ keys (previous.filter fun row => row.1 ∉ keys next)) =
        (keys previous).filter (· ∈ keys next) := by
    apply List.filter_congr
    intro key hkey
    rw [keys_filter fun key => decide (key ∉ keys next)]
    by_cases hmem : key ∈ keys next <;> simp [List.mem_filter, hkey, hmem]
  -- a changed row whose key survives keeps its place, the others are the inserted ones
  have hnew : (keys (changedRows previous next)).filter
      (· ∉ (keys previous).filter (· ∈ keys next)) = (keys next).filter (· ∉ keys previous) := by
    rw [← keys_filter fun key => decide (key ∉ (keys previous).filter (· ∈ keys next)),
      ← keys_filter fun key => decide (key ∉ keys previous), changedRows, List.filter_filter]
    congr 1
    apply List.filter_congr
    intro row hrow
    have hmem : row.1 ∈ keys next := mem_keys.mpr ⟨row.2, hrow⟩
    by_cases hp : row.1 ∈ keys previous
    · simp [List.mem_filter, hmem, hp]
    · have habsent : previous.lookup row.1 = none := lookup_eq_none.mpr hp
      simp [List.mem_filter, hp, isChanged, habsent]
  rw [rowEdits, runEdits_append, hremove, hput, keys_runEdits_put, keys_runEdits_remove, hlist,
    hkept, hputkeys, hnew, ← htail]
  rw [hputkeys]
  exact keys_changedRows_nodup hn

theorem RowShape.carries {previous next : Keyed} {rows : RenderedRows} {update : ListUpdate}
    (h : RowShape previous next rows update) (hp : (keys previous).Nodup) (hn : (keys next).Nodup)
    {list : ClientList} (hlist : keys list = keys previous) (slotId : SlotId) (value : List Char) :
    Carries previous next rows list
      (list.apply (TopicTransition.instruction slotId ⟨value, update⟩)) := by
  cases h with
  | unchanged hkeys hnone =>
      have hidle : list.apply (TopicTransition.instruction slotId ⟨value, .none⟩) = list := rfl
      rw [hidle]
      refine ⟨hlist.trans hkeys, fun row hrow hc => ?_, fun _ _ _ => rfl⟩
      have hmem : row ∈ changedRows previous next := List.mem_filter.mpr ⟨hrow, hc⟩
      rw [hnone] at hmem
      cases hmem
  | delta held htail hr =>
      have hnodup := rowEdits_keys_nodup rows hp hn
      have husable : ∀ edit ∈ rowEdits previous next rows, Usable edit := by
        intro edit hedit html hhtml
        rcases List.mem_append.mp hedit with hedit | hedit
        · obtain ⟨row, _, rfl⟩ := List.mem_map.mp hedit
          cases hhtml
        · obtain ⟨row, hrow, rfl⟩ := List.mem_map.mp hedit
          obtain rfl := Option.some.inj hhtml
          exact htmlOf_ne_empty hr hrow
      rw [apply_delta list slotId value hnodup husable]
      refine ⟨keys_runEdits_rowEdits rows hn htail hlist, fun row hrow hc => ?_,
        fun row hrow hc => ?_⟩
      · have hmem : row ∈ changedRows previous next := List.mem_filter.mpr ⟨hrow, hc⟩
        have hedit : Edit.put row.1 (rows.htmlOf row.1) ∈ rowEdits previous next rows :=
          List.mem_append_right _ (List.mem_map.mpr ⟨row, hmem, rfl⟩)
        have hlookup := lookup_runEdits_of_mem hnodup hedit list
        rw [get_of_rendered hr hmem]
        exact hlookup
      · apply lookup_runEdits_of_not_mem
        rw [rowEdits_keys, List.mem_append, not_or]
        have hkey : row.1 ∈ keys next := mem_keys.mpr ⟨row.2, hrow⟩
        refine ⟨fun hgone => ?_, fun hchanged => ?_⟩
        · rw [keys_filter fun key => decide (key ∉ keys next), List.mem_filter] at hgone
          simp [hkey] at hgone
        · obtain ⟨record, hmem⟩ := mem_keys.mp hchanged
          obtain ⟨hmem, hother⟩ := List.mem_filter.mp hmem
          have hsame := (lookup_of_mem hn hmem).symm.trans (lookup_of_mem hn hrow)
          rw [Option.some.inj hsame] at hother
          rw [hc] at hother
          cases hother
  | insert before inserted after hnext hkeys hchanged hr =>
      have hsplit : list.take before.length ++ list.drop before.length = list :=
        List.take_append_drop _ _
      have hbefore : keys (list.take before.length) = keys before := by
        have := congrArg (List.take before.length) (hlist.trans hkeys)
        simpa [keys, List.map_take] using this
      have hafter : keys (list.drop before.length) = keys after := by
        have := congrArg (List.drop before.length) (hlist.trans hkeys)
        simpa [keys, List.map_drop] using this
      have hentries : keys ((inserted.map fun row =>
          ReconcileRow.mk row.1 (rows.htmlOf row.1)).map ReconcileRow.entry) = keys inserted := by
        simp [keys, ReconcileRow.entry, Function.comp_def]
      have hresult : keys (list.take before.length ++ (inserted.map fun row =>
          ReconcileRow.mk row.1 (rows.htmlOf row.1)).map ReconcileRow.entry ++
            list.drop before.length) = keys next := by
        rw [keys_append, keys_append, hbefore, hafter, hentries, hnext, keys_append, keys_append]
      have happly := apply_insert (inserted.map fun row =>
          ReconcileRow.mk row.1 (rows.htmlOf row.1)) slotId value (hresult ▸ hn) (by
        intro row hrow
        obtain ⟨source, hsource, rfl⟩ := List.mem_map.mp hrow
        exact htmlOf_ne_empty hr hsource)
      rw [hafter, hsplit] at happly
      rw [happly]
      refine ⟨hresult, fun row hrow hc => ?_, fun row hrow hc => ?_⟩
      · have hmem : row ∈ inserted := hchanged ▸ List.mem_filter.mpr ⟨hrow, hc⟩
        rw [get_of_rendered hr hmem]
        apply lookup_of_mem (hresult ▸ hn)
        apply List.mem_append_left
        apply List.mem_append_right
        exact List.mem_map.mpr ⟨_, List.mem_map.mpr ⟨row, hmem, rfl⟩, rfl⟩
      · obtain ⟨record, hrecord, _⟩ := mem_keys_of_isChanged_false hc
        have hkey : row.1 ∈ keys list := hlist ▸ mem_keys_of_lookup hrecord
        obtain ⟨html, hhtml⟩ := lookup_of_mem_keys hkey
        rw [hhtml]
        apply lookup_of_mem (hresult ▸ hn)
        have hmem := mem_of_lookup hhtml
        rw [← hsplit, List.mem_append] at hmem
        rcases hmem with hmem | hmem
        · simp [hmem]
        · simp [hmem]

def RenderedRows.shown (rows : RenderedRows) : ClientList :=
  rows.rows.map fun row => (row.1, row.2.html)

theorem keys_shown (rows : RenderedRows) : keys rows.shown = rows.keys := by
  simp [RenderedRows.shown, RenderedRows.keys, keys, Function.comp_def]

theorem lookup_shown (rows : RenderedRows) (key : String) :
    rows.shown.lookup key = (rows.get key).map Markup.html :=
  lookup_map Markup.html key rows.rows

theorem apply_reconcileRows (rows : RenderedRows) (list : ClientList) (slotId : SlotId)
    (value : List Char) :
    list.apply (TopicTransition.instruction slotId ⟨value, .reconcile (reconcileRows rows)⟩) =
      rows.shown := by
  rw [apply_reconcile list slotId value]
  · simp [reconcileRows, RenderedRows.shown, ReconcileRow.entry, Function.comp_def]
  · rw [← keys_entries]
    simpa [reconcileRows, ReconcileRow.entry, keys, Function.comp_def] using rows.nodup
  · intro row hrow
    obtain ⟨source, _, rfl⟩ := List.mem_map.mp hrow
    exact source.2.nonempty

theorem rendered_of_keys {rows : RenderedRows} {next changed : Keyed} (hkeys : rows.keys = keys next)
    (hsub : ∀ row ∈ changed, row ∈ next) : Rendered changed rows := by
  intro row hrow
  have hmem : row.1 ∈ keys rows.rows := by
    rw [← RenderedRows.keys, hkeys]
    exact mem_keys.mpr ⟨row.2, hsub row hrow⟩
  exact lookup_of_mem_keys hmem

def ProjectionOf (whole rows : RenderedRows) (isPartial : Bool) : Prop :=
  if isPartial then ∀ key markup, rows.get key = some markup → whole.get key = some markup
  else rows = whole

section
variable {slot : ForgeCollection} {previous next : List Value} {P N : Keyed}
variable {whole rows : RenderedRows} {isPartial : Bool} {list : ClientList}

/-- A list that shows the previous keys follows the instructions of a write to the next
keys in their order, and every inserted or changed row carries its projected markup. -/
theorem rowInstructions_reproduce
    (hP : indexByKey previous slot.keyColumn = some P)
    (hN : indexByKey next slot.keyColumn = some N)
    (hwhole : whole.keys = keys N) (hrows : ProjectionOf whole rows isPartial)
    (hlist : keys list = keys P) (slotId : SlotId) :
    let after := (rowInstructions slot slotId (Value.array previous).encode
      (Value.array next).encode rows isPartial (some whole)).foldl ClientList.apply list
    keys after = keys N ∧ ∀ row ∈ N, isChanged P row = true →
      ∃ markup, whole.get row.1 = some markup ∧ after.lookup row.1 = some markup.html := by
  intro after
  have hrendered : ∀ row ∈ N, ∃ markup, whole.get row.1 = some markup :=
    rendered_of_keys hwhole fun _ h => h
  suffices h : keys after = keys N ∧ ∀ row ∈ N, isChanged P row = true →
      after.lookup row.1 = (whole.get row.1).map Markup.html by
    refine ⟨h.1, fun row hrow hc => ?_⟩
    obtain ⟨markup, hmarkup⟩ := hrendered row hrow
    exact ⟨markup, hmarkup, by rw [h.2 row hrow hc, hmarkup]; rfl⟩
  have hshown : keys whole.shown = keys N ∧ ∀ row ∈ N, isChanged P row = true →
      whole.shown.lookup row.1 = (whole.get row.1).map Markup.html :=
    ⟨(keys_shown whole).trans hwhole, fun row _ _ => lookup_shown whole row.1⟩
  rcases rowUpdate_cases hP hN rows isPartial with ⟨hfall, _⟩ | ⟨_, update, hshape, hupdate⟩
  · cases isPartial with
    | true =>
        -- the partial view asks for the whole set, which follows the bare snapshot
        have hafter : after = whole.shown := by
          simp only [after, rowInstructions, hfall, reconcileOrDefer, if_true, Option.toList_some,
            List.map_cons, List.map_nil, List.foldl_cons, List.foldl_nil]
          exact apply_reconcileRows whole _ slotId _
        rw [hafter]
        exact hshown
    | false =>
        obtain rfl : rows = whole := hrows
        have hafter : after = rows.shown := by
          simp only [after, rowInstructions, hfall, reconcileOrDefer, Bool.false_eq_true, if_false,
            List.foldl_cons, List.foldl_nil]
          exact apply_reconcileRows rows _ slotId _
        rw [hafter]
        exact hshown
  · have hcarries := hshape.carries (indexByKey_spec hP).2.1 (indexByKey_spec hN).2.1 hlist slotId
      (Value.array next).encode
    have hafter : after = list.apply (TopicTransition.instruction slotId
        ⟨(Value.array next).encode, update⟩) := by
      simp only [after, rowInstructions, hupdate, Bool.false_eq_true, if_false, List.foldl_cons,
        List.foldl_nil]
    rw [hafter]
    refine ⟨hcarries.keys_eq, fun row hrow hc => ?_⟩
    rw [hcarries.changed row hrow hc]
    cases isPartial with
    | false => rw [show rows = whole from hrows]
    | true =>
        have hchanged : Rendered (changedRows P N) rows := by
          cases hshape with
          | unchanged _ hnone => exact fun r hr => by rw [hnone] at hr; cases hr
          | delta _ _ hr => exact hr
          | insert _ _ _ _ _ hinserted hr => exact hinserted ▸ hr
        obtain ⟨markup, hmarkup⟩ := hchanged row (List.mem_filter.mpr ⟨hrow, hc⟩)
        rw [hmarkup, (show ∀ key markup, rows.get key = some markup →
          whole.get key = some markup from hrows) row.1 markup hmarkup]
end

/-- A guestbook of two rows and its markup: an append, rendered in part. -/
theorem rowInstructions_reproduce_guestbook :
    let ada : Value := .object [("author", .string "ada"), ("id", .number (.int 1))]
    let alan : Value := .object [("author", .string "alan"), ("id", .number (.int 2))]
    let whole : RenderedRows :=
      ⟨[("1", ⟨"<li>ada</li>", by decide⟩), ("2", ⟨"<li>alan</li>", by decide⟩)], by decide⟩
    let rows : RenderedRows := ⟨[("2", ⟨"<li>alan</li>", by decide⟩)], by decide⟩
    let after := (rowInstructions guestbook 7 (Value.array [ada]).encode
      (Value.array [ada, alan]).encode rows true (some whole)).foldl ClientList.apply
        [("1", "<li>ada</li>")]
    keys after = ["1", "2"] ∧ ∀ row ∈ [("1", ada), ("2", alan)],
      isChanged [("1", ada)] row = true →
        ∃ markup, whole.get row.1 = some markup ∧ after.lookup row.1 = some markup.html := by
  intro ada alan whole rows after
  have hP : indexByKey [ada] guestbook.keyColumn = some [("1", ada)] := by decide
  have hN : indexByKey [ada, alan] guestbook.keyColumn = some [("1", ada), ("2", alan)] := by decide
  have hwhole : whole.keys = keys [("1", ada), ("2", alan)] := by decide
  have hrows : ProjectionOf whole rows true := by
    intro key markup h
    obtain ⟨rfl, rfl⟩ : key = "2" ∧ markup = ⟨"<li>alan</li>", by decide⟩ := by
      have hmem := mem_of_lookup h
      simpa [rows] using hmem
    rfl
  have hlist : keys [("1", "<li>ada</li>")] = keys [("1", ada)] := by decide
  exact rowInstructions_reproduce hP hN hwhole hrows hlist 7

/-! ### Markup that depends on the whole view -/

abbrev RowTemplate := List Value → ℕ → Value → Markup

def RowTemplate.render (template : RowTemplate) (index : Keyed) : List (String × Markup) :=
  index.zipIdx.map fun row => (row.1.1, template (index.map Prod.snd) row.2 row.1.2)

theorem RowTemplate.keys_render (template : RowTemplate) (index : Keyed) :
    keys (template.render index) = keys index := by
  have h : (index.zipIdx.map Prod.fst).map Prod.fst = index.map Prod.fst := by
    rw [List.zipIdx_map_fst]
  rw [List.map_map] at h
  simp only [RowTemplate.render, keys, List.map_map]
  exact h

def RowTemplate.project (template : RowTemplate) (index : Keyed) (h : (keys index).Nodup) :
    RenderedRows :=
  ⟨template.render index, by rwa [template.keys_render]⟩

theorem Markup.html_injective {a b : Markup} (h : a.html = b.html) : a = b := by
  cases a
  cases b
  cases h
  rfl

/-- A list that shows the previous projection shows the next one after the frame of a
write exactly when the full set was sent, or every row whose record did not change has
the same markup in both projections. -/
theorem shown_after_rowUpdate_iff (template : RowTemplate) {slot : ForgeCollection}
    {previous next : List Value} {P N : Keyed}
    (hP : indexByKey previous slot.keyColumn = some P)
    (hN : indexByKey next slot.keyColumn = some N) (slotId : SlotId) :
    let before := template.project P (indexByKey_spec hP).2.1
    let after := template.project N (indexByKey_spec hN).2.1
    before.shown.apply (TopicTransition.instruction slotId ⟨(Value.array next).encode,
        (rowUpdate slot (Value.array previous).encode (Value.array next).encode after false).1⟩) =
      after.shown ↔
    needsFullSet (Value.array previous).encode (Value.array next).encode slot.keyColumn = true ∨
      ∀ row ∈ N, isChanged P row = false → before.get row.1 = after.get row.1 := by
  intro before after
  have hbefore : keys before.shown = keys P :=
    (keys_shown before).trans (template.keys_render P)
  have hafter : after.keys = keys N := template.keys_render N
  have hrendered : Rendered (changedRows P N) after :=
    rendered_of_keys hafter fun _ h => (List.mem_filter.mp h).1
  rcases rowUpdate_cases hP hN after false with
    ⟨hfall, hwhy⟩ | ⟨hfull, update, hshape, hupdate⟩
  · have hfull := hwhy.resolve_right fun h => h hrendered
    rw [hfall]
    exact ⟨fun _ => Or.inl hfull, fun _ => apply_reconcileRows after _ slotId _⟩
  · have hN' := (indexByKey_spec hN).2.1
    have hcarries := hshape.carries (indexByKey_spec hP).2.1 hN' hbefore slotId
      (Value.array next).encode
    rw [hupdate, hfull]
    constructor
    · intro hshown
      refine Or.inr fun row hrow hc => ?_
      have hkept := hcarries.kept row hrow hc
      rw [hshown, lookup_shown, lookup_shown] at hkept
      exact (Option.map_injective (fun _ _ => Markup.html_injective) hkept).symm
    · rintro (hcontra | hsame)
      · cases hcontra
      · refine eq_of_keys_of_lookup (hcarries.keys_eq ▸ hN') ?_ ?_
        · rw [hcarries.keys_eq, keys_shown, hafter]
        · intro key hkey
          rw [hcarries.keys_eq] at hkey
          obtain ⟨record, hrow⟩ := mem_keys.mp hkey
          rw [lookup_shown]
          cases hc : isChanged P (key, record) with
          | true => exact hcarries.changed (key, record) hrow hc
          | false =>
              rw [← hsame (key, record) hrow hc, ← lookup_shown]
              exact hcarries.kept (key, record) hrow hc

def entryOf : RowTemplate := fun collection _ _ =>
  if collection.length = 1 then ⟨"<li>of 1</li>", by decide⟩ else ⟨"<li>of 2</li>", by decide⟩

/-- An append to a guestbook whose rows show the number of entries. -/
theorem shown_after_rowUpdate_iff_entries :
    let ada : Value := .object [("id", .number (.int 1))]
    let alan : Value := .object [("id", .number (.int 2))]
    let before := entryOf.project [("1", ada)] (by decide)
    let after := entryOf.project [("1", ada), ("2", alan)] (by decide)
    before.shown.apply (TopicTransition.instruction 7 ⟨(Value.array [ada, alan]).encode,
        (rowUpdate guestbook (Value.array [ada]).encode (Value.array [ada, alan]).encode after
          false).1⟩) = after.shown ↔
    needsFullSet (Value.array [ada]).encode (Value.array [ada, alan]).encode "id" = true ∨
      ∀ row ∈ [("1", ada), ("2", alan)], isChanged [("1", ada)] row = false →
        before.get row.1 = after.get row.1 := by
  intro ada alan before after
  have hP : indexByKey [ada] guestbook.keyColumn = some [("1", ada)] := by decide
  have hN : indexByKey [ada, alan] guestbook.keyColumn = some [("1", ada), ("2", alan)] := by decide
  exact shown_after_rowUpdate_iff entryOf hP hN 7

/-- After that append the first row still shows the old number. -/
theorem append_leaves_stale_count :
    let ada : Value := .object [("id", .number (.int 1))]
    let alan : Value := .object [("id", .number (.int 2))]
    let before := entryOf.project [("1", ada)] (by decide)
    let after := entryOf.project [("1", ada), ("2", alan)] (by decide)
    before.shown.apply (TopicTransition.instruction 7 ⟨(Value.array [ada, alan]).encode,
        (rowUpdate guestbook (Value.array [ada]).encode (Value.array [ada, alan]).encode after
          false).1⟩) ≠ after.shown := by
  decide

end Albedo.Forge
