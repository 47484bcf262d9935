import Albedo.Library.KeyedList
import Albedo.Runtime.Broadcast

/-!
# The client's list sink

How the browser runtime applies the list instructions to a bound keyed list. The
anchor's children and the map of rows by key are one list here, in document order,
with the markup each row was made from. A row is made from its markup when that is
not empty, which the runtime reads as an element.
-/
namespace Albedo.Broadcast
open KeyedList

/-- The rows of a bound list, in document order: key and markup. -/
abbrev ClientList := List (String × String)

def instantiatesRow (html : String) : Bool := html ≠ ""

/-- What a delta says about one key: its last inserted payload, and whether it retracts. -/
structure PendingChange where
  key : String
  insert : Option String
  retract : Bool

def PendingChange.note (entry : PendingChange) (change : SlotChange) : PendingChange :=
  if change.weight > 0 then { entry with insert := some change.payload }
  else if change.weight < 0 then { entry with retract := true }
  else entry

def noteChange (order : List PendingChange) (change : SlotChange) : List PendingChange :=
  if order.any fun entry => entry.key = change.key then
    order.map fun entry => if entry.key = change.key then entry.note change else entry
  else order ++ [PendingChange.note ⟨change.key, none, false⟩ change]

inductive PlanStep where
  | insert (key payload : String)
  | remove (key : String)
  | patch (key payload : String)

def PendingChange.step (hasKey : String → Bool) (entry : PendingChange) : Option PlanStep :=
  match entry.insert with
  | some payload =>
      some (if hasKey entry.key then .patch entry.key payload else .insert entry.key payload)
  | none => if entry.retract && hasKey entry.key then some (.remove entry.key) else none

def reconcileSlotDelta (changes : List SlotChange) (hasKey : String → Bool) : List PlanStep :=
  (changes.foldl noteChange []).filterMap (PendingChange.step hasKey)

def applyPlanStep (list : ClientList) : PlanStep → ClientList
  | .insert key payload => if instantiatesRow payload then list ++ [(key, payload)] else list
  | .remove key => remove key list
  | .patch key payload =>
      match list.lookup key with
      | some html => if html = payload ∨ !instantiatesRow payload then list else put key payload list
      | none => list

def applySlotDeltaToList (list : ClientList) (changes : List SlotChange) : ClientList :=
  (reconcileSlotDelta changes fun key => key ∈ keys list).foldl applyPlanStep list

/-- The markup a row ends with: its own, or the old one where the new makes no row. -/
def rowMarkup (list : ClientList) (row : ReconcileRow) : Option String :=
  if instantiatesRow row.payload then some row.payload else list.lookup row.key

def upsertLast (list : ClientList) (row : ReconcileRow) : ClientList :=
  match rowMarkup list row with
  | some html => remove row.key list ++ [(row.key, html)]
  | none => list

def applyReconcileListToList (list : ClientList) (rows : List ReconcileRow) : ClientList :=
  rows.foldl upsertLast (list.filter fun row => row.1 ∈ rows.map ReconcileRow.key)

def upsertBefore (marker : Option String) (list : ClientList) (row : ReconcileRow) : ClientList :=
  match rowMarkup list row with
  | some html => placeBefore marker (row.key, html) (remove row.key list)
  | none => list

/-- Insert rows ahead of a named row, or at the end when the list does not hold it. -/
def applySlotInsertToList (list : ClientList) (before : Option String)
    (rows : List ReconcileRow) : ClientList :=
  let marker := before.filter fun key => key ∈ keys list
  rows.foldl (upsertBefore marker) list

def ClientList.apply (list : ClientList) : Instruction → ClientList
  | .slotSet _ _ => list
  | .slotDelta _ changes => applySlotDeltaToList list changes
  | .slotInsert _ before rows => applySlotInsertToList list before rows
  | .reconcileList _ rows => applyReconcileListToList list rows

/-! ### What a delta does -/

/-- The changes that say one edit: a row the list held is retracted before it is replaced. -/
def changesOf (held : String → Bool) : Edit String String → List SlotChange
  | .remove key => [⟨-1, key, ""⟩]
  | .put key html => (if held key then [⟨-1, key, ""⟩] else []) ++ [⟨1, key, html⟩]

def pendingOf (held : String → Bool) : Edit String String → PendingChange
  | .remove key => ⟨key, none, true⟩
  | .put key html => ⟨key, some html, held key⟩

/-- The edit carries a row that can be made, if it carries one. -/
def Usable (edit : Edit String String) : Prop := ∀ html ∈ edit.value, html ≠ ""

@[simp] theorem pendingOf_key (held : String → Bool) (edit : Edit String String) :
    (pendingOf held edit).key = edit.key := by
  cases edit <;> rfl

theorem changesOf_key {held : String → Bool} {edit : Edit String String} {change : SlotChange}
    (h : change ∈ changesOf held edit) : change.key = edit.key ∧ change.weight ≠ 0 := by
  cases edit with
  | remove key =>
      obtain rfl := List.mem_singleton.mp h
      exact ⟨rfl, by simp⟩
  | put key html =>
      cases hk : held key with
      | true =>
          simp only [changesOf, hk, if_true, List.cons_append, List.nil_append, List.mem_cons,
            List.not_mem_nil, or_false] at h
          rcases h with rfl | rfl <;> exact ⟨rfl, by simp⟩
      | false =>
          simp only [changesOf, hk, Bool.false_eq_true, if_false, List.nil_append,
            List.mem_singleton] at h
          obtain rfl := h
          exact ⟨rfl, by simp⟩

def SlotChange.identity (change : SlotChange) : String × String := (change.key, change.payload)

theorem foldl_addChange {changes order : List SlotChange}
    (h : ((order ++ changes).map SlotChange.identity).Nodup) :
    changes.foldl addChange order = order ++ changes := by
  induction changes generalizing order with
  | nil => simp
  | cons change changes ih =>
      have hfresh : (order.any fun c => c.key = change.key ∧ c.payload = change.payload) = false := by
        rw [List.any_eq_false]
        intro c hc hsame
        rw [List.map_append, List.nodup_append] at h
        refine h.2.2 c.identity (List.mem_map.mpr ⟨c, hc, rfl⟩) change.identity (by simp) ?_
        simpa [SlotChange.identity] using hsame
      have hstep : addChange order change = order ++ [change] := by
        rw [addChange, hfresh]
        rfl
      rw [List.foldl_cons, hstep, ih (by simpa using h)]
      simp

theorem coalesceChanges_of_nodup {changes : List SlotChange}
    (hn : (changes.map SlotChange.identity).Nodup) (hw : ∀ c ∈ changes, c.weight ≠ 0) :
    coalesceChanges changes = changes := by
  rw [coalesceChanges, foldl_addChange (by simpa using hn), List.nil_append,
    List.filter_eq_self]
  intro c hc
  simpa using hw c hc

theorem changesOf_nodup {held : String → Bool} {edit : Edit String String} (h : Usable edit) :
    ((changesOf held edit).map SlotChange.identity).Nodup := by
  cases edit with
  | remove key => simp [changesOf]
  | put key html =>
      have hhtml : html ≠ "" := h html rfl
      cases hk : held key <;> simp [changesOf, hk, SlotChange.identity, Ne.symm hhtml]

theorem identity_changes_nodup {held : String → Bool} {edits : List (Edit String String)}
    (hn : (edits.map Edit.key).Nodup) (hu : ∀ edit ∈ edits, Usable edit) :
    ((edits.flatMap (changesOf held)).map SlotChange.identity).Nodup := by
  induction edits with
  | nil => simp
  | cons edit edits ih =>
      rw [List.map_cons, List.nodup_cons] at hn
      rw [List.flatMap_cons, List.map_append, List.nodup_append]
      refine ⟨changesOf_nodup (hu edit (by simp)),
        ih hn.2 (fun e he => hu e (by simp [he])), ?_⟩
      -- two edits have different keys, and so have their records
      intro a ha b hb hab
      obtain ⟨c, hc, rfl⟩ := List.mem_map.mp ha
      obtain ⟨d, hd, rfl⟩ := List.mem_map.mp hb
      obtain ⟨other, hother, hd⟩ := List.mem_flatMap.mp hd
      have hkeys : c.key = d.key := congrArg Prod.fst hab
      rw [(changesOf_key hc).1, (changesOf_key hd).1] at hkeys
      exact hn.1 (List.mem_map.mpr ⟨other, hother, hkeys.symm⟩)

theorem noteChange_fresh {order : List PendingChange} (change : SlotChange)
    (h : change.key ∉ order.map PendingChange.key) :
    noteChange order change = order ++ [PendingChange.note ⟨change.key, none, false⟩ change] := by
  have hnone : (order.any fun entry => entry.key = change.key) = false := by
    rw [List.any_eq_false]
    intro entry hentry hkey
    exact h (List.mem_map.mpr ⟨entry, hentry, by simpa using hkey⟩)
  rw [noteChange, hnone]
  rfl

theorem noteChange_last {order : List PendingChange} (entry : PendingChange) (change : SlotChange)
    (h : change.key ∉ order.map PendingChange.key) (hk : entry.key = change.key) :
    noteChange (order ++ [entry]) change = order ++ [entry.note change] := by
  have hsome : ((order ++ [entry]).any fun e => e.key = change.key) = true := by simp [hk]
  have hkeep : order.map (fun e => if e.key = change.key then e.note change else e) = order := by
    conv_rhs => rw [← List.map_id order]
    apply List.map_congr_left
    intro e he
    have hne : e.key ≠ change.key := fun heq => h (List.mem_map.mpr ⟨e, he, heq⟩)
    simp [hne]
  rw [noteChange, hsome, if_pos rfl, List.map_append, hkeep]
  simp [hk]

theorem foldl_noteChange_edit {held : String → Bool} {edit : Edit String String}
    {order : List PendingChange} (h : edit.key ∉ order.map PendingChange.key) :
    (changesOf held edit).foldl noteChange order = order ++ [pendingOf held edit] := by
  cases edit with
  | remove key => exact noteChange_fresh _ h
  | put key html =>
      cases hk : held key with
      | false =>
          simp only [changesOf, hk, Bool.false_eq_true, if_false, List.nil_append, List.foldl_cons,
            List.foldl_nil, pendingOf]
          exact noteChange_fresh ⟨1, key, html⟩ h
      | true =>
          have hfirst := noteChange_fresh ⟨-1, key, ""⟩ h
          have hsecond := noteChange_last ⟨key, none, true⟩ ⟨1, key, html⟩ h rfl
          simp only [changesOf, hk, if_true, List.cons_append, List.nil_append, List.foldl_cons,
            List.foldl_nil, pendingOf]
          rw [hfirst]
          exact hsecond

theorem foldl_noteChange {held : String → Bool} {edits : List (Edit String String)}
    {order : List PendingChange} (hn : (edits.map Edit.key).Nodup)
    (hf : ∀ edit ∈ edits, edit.key ∉ order.map PendingChange.key) :
    (edits.flatMap (changesOf held)).foldl noteChange order =
      order ++ edits.map (pendingOf held) := by
  induction edits generalizing order with
  | nil => simp
  | cons edit edits ih =>
      rw [List.map_cons, List.nodup_cons] at hn
      rw [List.flatMap_cons, List.foldl_append, foldl_noteChange_edit (hf edit (by simp)),
        ih hn.2]
      · simp
      · intro e he hmem
        rw [List.map_append, List.mem_append] at hmem
        rcases hmem with hmem | hmem
        · exact hf e (by simp [he]) hmem
        · have hkey : e.key = edit.key := by simpa using hmem
          exact hn.1 (List.mem_map.mpr ⟨e, he, hkey⟩)

theorem applyPlanStep_edit (held : String → Bool) {hasKey : String → Bool} {edit : Edit String String}
    {list : ClientList} (hu : Usable edit) (hk : hasKey edit.key = true ↔ edit.key ∈ keys list) :
    ((pendingOf held edit).step hasKey).toList.foldl applyPlanStep list = edit.apply list := by
  cases edit with
  | remove key =>
      cases hh : hasKey key with
      | true => simp [pendingOf, PendingChange.step, hh, applyPlanStep, Edit.apply]
      | false =>
          have hmem : key ∉ keys list := fun h => by
            have := hk.mpr h
            simp [Edit.key, hh] at this
          simp only [pendingOf, PendingChange.step, hh, Bool.and_false, Bool.false_eq_true,
            if_false, Option.toList_none, List.foldl_nil, Edit.apply]
          refine (List.filter_eq_self.mpr ?_).symm
          intro e he
          simpa using fun h : e.1 = key => hmem (h ▸ mem_keys.mpr ⟨e.2, he⟩)
  | put key html =>
      have hhtml : instantiatesRow html = true := by simpa [instantiatesRow] using hu html rfl
      cases hh : hasKey key with
      | true =>
          obtain ⟨old, hold⟩ : ∃ old, list.lookup key = some old := lookup_of_mem_keys (hk.mp hh)
          by_cases hsame : old = html
          · subst hsame
            simp [pendingOf, PendingChange.step, hh, applyPlanStep, Edit.apply, hold,
              put_eq_self hold]
          · simp [pendingOf, PendingChange.step, hh, applyPlanStep, Edit.apply, hhtml, hold, hsame]
      | false =>
          have hmem : key ∉ keys list := fun h => by
            have := hk.mpr h
            simp [Edit.key, hh] at this
          simp [pendingOf, PendingChange.step, hh, applyPlanStep, Edit.apply, hhtml,
            put_eq_append hmem]

theorem foldl_applyPlanStep {held hasKey : String → Bool} {edits : List (Edit String String)}
    {list : ClientList} (hn : (edits.map Edit.key).Nodup) (hu : ∀ edit ∈ edits, Usable edit)
    (hk : ∀ edit ∈ edits, hasKey edit.key = true ↔ edit.key ∈ keys list) :
    ((edits.map (pendingOf held)).filterMap (PendingChange.step hasKey)).foldl applyPlanStep list =
      runEdits edits list := by
  induction edits generalizing list with
  | nil => rfl
  | cons edit edits ih =>
      rw [List.map_cons, List.nodup_cons] at hn
      have hstep := applyPlanStep_edit held (hu edit (by simp)) (hk edit (by simp))
      have hrest := @ih (edit.apply list) hn.2 (fun e he => hu e (by simp [he])) (by
        intro e he
        have hne : e.key ≠ edit.key := fun h => hn.1 (List.mem_map.mpr ⟨e, he, h⟩)
        rw [Edit.mem_keys_apply hne]
        exact hk e (by simp [he]))
      have hsplit : (pendingOf held edit :: edits.map (pendingOf held)).filterMap
          (PendingChange.step hasKey) = ((pendingOf held edit).step hasKey).toList ++
            (edits.map (pendingOf held)).filterMap (PendingChange.step hasKey) := by
        cases hs : (pendingOf held edit).step hasKey <;> simp [hs]
      rw [List.map_cons, hsplit, List.foldl_append, hstep, hrest]
      rfl

theorem apply_delta {held : String → Bool} {edits : List (Edit String String)}
    (list : ClientList) (slotId : SlotId) (value : List Char)
    (hn : (edits.map Edit.key).Nodup) (hu : ∀ edit ∈ edits, Usable edit) :
    list.apply (TopicTransition.instruction slotId
      ⟨value, .delta (edits.flatMap (changesOf held))⟩) = runEdits edits list := by
  have hcoalesce : coalesceChanges (edits.flatMap (changesOf held)) =
      edits.flatMap (changesOf held) := by
    refine coalesceChanges_of_nodup (identity_changes_nodup hn hu) ?_
    intro c hc
    obtain ⟨edit, _, hc⟩ := List.mem_flatMap.mp hc
    exact (changesOf_key hc).2
  have hdelta : applySlotDeltaToList list (edits.flatMap (changesOf held)) = runEdits edits list := by
    rw [applySlotDeltaToList, reconcileSlotDelta, foldl_noteChange hn (by simp), List.nil_append]
    exact foldl_applyPlanStep hn hu (by simp)
  rw [TopicTransition.instruction, listInstruction, hcoalesce]
  split_ifs with hempty
  · exact hdelta
  · rw [ne_eq, not_not] at hempty
    rw [hempty] at hdelta
    exact hdelta.symm ▸ rfl
/-! ### What an insert and a reconcile do -/

def ReconcileRow.entry (row : ReconcileRow) : String × String := (row.key, row.payload)

theorem keys_entries (rows : List ReconcileRow) :
    keys (rows.map ReconcileRow.entry) = rows.map ReconcileRow.key := by
  simp [keys, ReconcileRow.entry, Function.comp_def]

theorem rowMarkup_of_ne {list : ClientList} {row : ReconcileRow} (h : row.payload ≠ "") :
    rowMarkup list row = some row.payload := by
  simp [rowMarkup, instantiatesRow, h]

theorem remove_eq_self {key : String} {list : ClientList} (h : key ∉ keys list) :
    remove key list = list := by
  rw [remove, List.filter_eq_self]
  intro e he
  simpa using fun hk : e.1 = key => h (hk ▸ mem_keys.mpr ⟨e.2, he⟩)

/-- Whatever stale rows remain are named by rows still to come, and each of these
moves to the end as it is upserted. -/
theorem foldl_upsertLast {rows : List ReconcileRow} (stale done : ClientList)
    (hn : (rows.map ReconcileRow.key).Nodup) (hp : ∀ row ∈ rows, row.payload ≠ "")
    (hstale : ∀ key ∈ keys stale, key ∈ rows.map ReconcileRow.key)
    (hdone : ∀ key ∈ keys done, key ∉ rows.map ReconcileRow.key) :
    rows.foldl upsertLast (stale ++ done) = done ++ rows.map ReconcileRow.entry := by
  induction rows generalizing stale done with
  | nil =>
      have hnil : stale = [] := by
        cases stale with
        | nil => rfl
        | cons e stale => exact absurd (hstale e.1 (by simp)) (by simp)
      simp [hnil]
  | cons row rows ih =>
      rw [List.map_cons, List.nodup_cons] at hn
      have hfresh : row.key ∉ keys done := fun h => hdone _ h (by simp)
      have hstep : upsertLast (stale ++ done) row =
          remove row.key stale ++ (done ++ [row.entry]) := by
        rw [upsertLast, rowMarkup_of_ne (hp row (by simp))]
        simp only [remove, List.filter_append, List.append_assoc]
        have hkeep := remove_eq_self hfresh
        rw [remove] at hkeep
        rw [hkeep]
        rfl
      rw [List.foldl_cons, hstep, ih _ _ hn.2 (fun r hr => hp r (by simp [hr]))]
      · simp
      · intro key hkey
        rw [keys_remove, List.mem_filter] at hkey
        have hmem := hstale key hkey.1
        simpa [show key ≠ row.key by simpa using hkey.2] using hmem
      · intro key hkey
        rw [keys_append, List.mem_append] at hkey
        rcases hkey with hkey | hkey
        · exact fun h => hdone key hkey (by simp [h])
        · obtain rfl : key = row.key := by simpa [ReconcileRow.entry] using hkey
          exact hn.1

theorem apply_reconcile {rows : List ReconcileRow} (list : ClientList) (slotId : SlotId)
    (value : List Char) (hn : (rows.map ReconcileRow.key).Nodup)
    (hp : ∀ row ∈ rows, row.payload ≠ "") :
    list.apply (TopicTransition.instruction slotId ⟨value, .reconcile rows⟩) =
      rows.map ReconcileRow.entry := by
  have h := foldl_upsertLast (list.filter fun row => row.1 ∈ rows.map ReconcileRow.key) []
    hn hp (by
      intro key hkey
      rw [keys_filter fun k => decide (k ∈ rows.map ReconcileRow.key), List.mem_filter] at hkey
      simpa using hkey.2) (by simp)
  rw [List.append_nil, List.nil_append] at h
  exact h

theorem foldl_upsertBefore {rows : List ReconcileRow} {before after : ClientList}
    (hn : (keys (before ++ rows.map ReconcileRow.entry ++ after)).Nodup)
    (hp : ∀ row ∈ rows, row.payload ≠ "") :
    rows.foldl (upsertBefore (keys after).head?) (before ++ after) =
      before ++ rows.map ReconcileRow.entry ++ after := by
  induction rows generalizing before with
  | nil => simp
  | cons row rows ih =>
      have hfresh : row.key ∉ keys (before ++ after) := by
        simp only [List.map_cons, keys_append, keys_cons, List.nodup_append, List.nodup_cons] at hn
        rw [keys_append, List.mem_append, not_or]
        refine ⟨fun h => hn.1.2.2 _ h row.key (by simp [ReconcileRow.entry]) rfl,
          fun h => hn.2.2 row.key (by simp [ReconcileRow.entry]) _ h rfl⟩
      have hstep : upsertBefore (keys after).head? (before ++ after) row =
          (before ++ [row.entry]) ++ after := by
        rw [upsertBefore, rowMarkup_of_ne (hp row (by simp)), remove_eq_self hfresh]
        cases after with
        | nil => simp [placeBefore_none, ReconcileRow.entry]
        | cons e after =>
            have hmarker : e.1 ∉ keys before := by
              simp only [keys_append, keys_cons, List.nodup_append] at hn
              exact fun h => hn.2.2 e.1 (by simp [h]) e.1 (by simp) rfl
            rw [List.append_assoc]
            exact placeBefore_of_split (e := row.entry) (m := after) (w := e.2) hmarker
      rw [List.foldl_cons, hstep, ih (by simpa using hn) (fun r hr => hp r (by simp [hr]))]
      simp

theorem apply_insert (rows : List ReconcileRow) {before after : ClientList} (slotId : SlotId)
    (value : List Char) (hn : (keys (before ++ rows.map ReconcileRow.entry ++ after)).Nodup)
    (hp : ∀ row ∈ rows, row.payload ≠ "") :
    ClientList.apply (before ++ after) (TopicTransition.instruction slotId
      ⟨value, .insert (keys after).head? rows⟩) =
      before ++ rows.map ReconcileRow.entry ++ after := by
  have hmarker : (keys after).head?.filter (fun key => key ∈ keys (before ++ after)) =
      (keys after).head? := by
    cases after <;> simp
  have h := foldl_upsertBefore hn hp
  rw [TopicTransition.instruction, listInstruction]
  split_ifs with hempty
  · rw [Option.getD_some, ClientList.apply, applySlotInsertToList, hmarker, h]
  · rw [ne_eq, not_not] at hempty
    subst hempty
    simp [ClientList.apply]

end Albedo.Broadcast
