import Albedo.Forge.Delta
import Albedo.Runtime.Client

/-!
# The list half of a fan-out

`rowUpdate` chooses the wire shape of a transition. What it chooses is described
once, in `rowUpdate_cases`: the fallback, or a shape that says exactly how the rows
differ.
-/
namespace Albedo.Forge
open Json Broadcast KeyedList

def reconcileRows (rows : RenderedRows) : List ReconcileRow :=
  rows.rows.map fun row => ⟨row.1, row.2.html⟩

/-- The fallback: the full set, or a request for it when only some rows are rendered.
The flag is `needs_whole`. -/
def reconcileOrDefer (rows : RenderedRows) (isPartial : Bool) : ListUpdate × Bool :=
  if isPartial then (.none, true) else (.reconcile (reconcileRows rows), false)

def appendedChanges (appended : Keyed) (rows : RenderedRows) : Option (List SlotChange) :=
  appended.mapM fun row => (rows.get row.1).map fun markup => ⟨1, row.1, markup.html⟩

/-- Choose the cheapest wire shape that takes `previous` to `next`. -/
def rowUpdate (slot : ForgeCollection) (previous next : List Char) (rows : RenderedRows)
    (isPartial : Bool) : ListUpdate × Bool :=
  let reconcile := reconcileOrDefer rows isPartial
  match appendedRows previous next slot.keyColumn with
  | some [] => (.none, false)
  | some appended =>
      match appendedChanges appended rows with
      | some changes => (.delta changes, false)
      | none => reconcile
  | none =>
      match fromSlice previous, fromSlice next with
      | some previous, some next =>
          if !isTailAppend previous next slot.keyColumn then
            match classifyPositionedInsert previous next slot.keyColumn with
            | some insert =>
                match projectInsertedRows insert rows with
                | some rows => (.insert insert.before rows, false)
                | none => reconcile
            | none => reconcile
          else
            match diffRecords previous next slot.keyColumn with
            | some [] => (.none, false)
            | some changes =>
                match projectChanges changes rows with
                | some changes => (.delta changes, false)
                | none => reconcile
            | none => reconcile
      | _, _ => reconcile

/-- The instructions a write sends to one topic: the frame of its update, and the
whole set behind it when the update asked for that and the view renders. -/
def rowInstructions (slot : ForgeCollection) (slotId : SlotId) (previous next : List Char)
    (rows : RenderedRows) (isPartial : Bool) (whole : Option RenderedRows) : List Instruction :=
  let (update, needsWhole) := rowUpdate slot previous next rows isPartial
  TopicTransition.instruction slotId ⟨next, update⟩ ::
    if needsWhole then
      whole.toList.map fun rows =>
        TopicTransition.instruction slotId ⟨next, .reconcile (reconcileRows rows)⟩
    else []

def needsFullSet (previous next : List Char) (keyColumn : String) : Bool :=
  (appendedRows previous next keyColumn).isNone &&
    match fromSlice previous, fromSlice next with
    | some previous, some next =>
        !isTailAppend previous next keyColumn &&
          (classifyPositionedInsert previous next keyColumn).isNone
    | _, _ => true

def isChanged (previous : Keyed) (row : String × Value) : Bool :=
  match previous.lookup row.1 with
  | some before => !before.same row.2
  | none => true

def changedRows (previous next : Keyed) : Keyed := next.filter (isChanged previous)

def RenderedRows.htmlOf (rows : RenderedRows) (key : String) : String :=
  ((rows.get key).map Markup.html).getD ""

/-- The edits that make a keyed list follow a transition, up to the place of inserts. -/
def rowEdits (previous next : Keyed) (rows : RenderedRows) : List (Edit String String) :=
  (previous.filter fun row => row.1 ∉ keys next).map (fun row => .remove row.1) ++
    (changedRows previous next).map fun row => .put row.1 (rows.htmlOf row.1)

/-- The survivors keep their order and every insert comes after them. -/
def TailAppend (previous next : Keyed) : Prop :=
  keys next = (keys previous).filter (· ∈ keys next) ++ (keys next).filter (· ∉ keys previous)

def Rendered (changed : Keyed) (rows : RenderedRows) : Prop :=
  ∀ row ∈ changed, ∃ markup, rows.get row.1 = some markup

inductive RowShape (previous next : Keyed) (rows : RenderedRows) : ListUpdate → Prop
  | unchanged : keys previous = keys next → changedRows previous next = [] →
      RowShape previous next rows .none
  | delta (held : String → Bool) : TailAppend previous next →
      Rendered (changedRows previous next) rows →
      RowShape previous next rows (.delta ((rowEdits previous next rows).flatMap (changesOf held)))
  | insert (before inserted after : Keyed) : next = before ++ inserted ++ after →
      keys previous = keys (before ++ after) → changedRows previous next = inserted →
      Rendered inserted rows →
      RowShape previous next rows
        (.insert (keys after).head? (inserted.map fun row => ⟨row.1, rows.htmlOf row.1⟩))

/-! ### Reading the classifiers -/

theorem htmlOf_of_get {rows : RenderedRows} {key : String} {markup : Markup}
    (h : rows.get key = some markup) : rows.htmlOf key = markup.html := by
  simp [RenderedRows.htmlOf, h]

theorem mapM_get {β : Type} (f : String × Value → Markup → β) (rows : RenderedRows)
    (changed : Keyed) (g : String × Value → String → β)
    (hfg : ∀ row markup, f row markup = g row markup.html) :
    (changed.mapM fun row => (rows.get row.1).map (f row)) = none ∧ ¬ Rendered changed rows ∨
      (changed.mapM fun row => (rows.get row.1).map (f row)) =
          some (changed.map fun row => g row (rows.htmlOf row.1)) ∧ Rendered changed rows := by
  induction changed with
  | nil => exact Or.inr ⟨rfl, fun row hrow => by cases hrow⟩
  | cons row changed ih =>
      cases hget : rows.get row.1 with
      | none =>
          refine Or.inl ⟨by simp [List.mapM_cons, hget], fun h => ?_⟩
          obtain ⟨markup, hmarkup⟩ := h row (by simp)
          rw [hget] at hmarkup
          cases hmarkup
      | some markup =>
          rcases ih with ⟨hnone, hrendered⟩ | ⟨hsome, hrendered⟩
          · refine Or.inl ⟨by simp [List.mapM_cons, hget, hnone], fun h => hrendered ?_⟩
            exact fun r hr => h r (by simp [hr])
          · refine Or.inr ⟨by simp [List.mapM_cons, hget, hsome, hfg, htmlOf_of_get hget], ?_⟩
            intro r hr
            rcases List.mem_cons.mp hr with rfl | hr
            · exact ⟨markup, hget⟩
            · exact hrendered r hr

theorem index_unique {keyColumn : String} {xs ys : Keyed} (h : xs.map Prod.snd = ys.map Prod.snd)
    (hx : ∀ row ∈ xs, recordKey keyColumn row.2 = some row.1)
    (hy : ∀ row ∈ ys, recordKey keyColumn row.2 = some row.1) : xs = ys := by
  induction xs generalizing ys with
  | nil =>
      cases ys with
      | nil => rfl
      | cons y ys => simp at h
  | cons x xs ih =>
      cases ys with
      | nil => simp at h
      | cons y ys =>
          obtain ⟨k, record⟩ := x
          obtain ⟨l, record'⟩ := y
          simp only [List.map_cons, List.cons.injEq] at h
          obtain ⟨rfl, hrest⟩ := h
          have hk := hx (k, record) (by simp)
          have hl := hy (l, record) (by simp)
          obtain rfl : k = l := by simpa [hk] using hl
          rw [ih hrest (fun r hr => hx r (by simp [hr])) (fun r hr => hy r (by simp [hr]))]

theorem drop_joined (xs ys : List Value) :
    (((Value.array (xs ++ ys)).encode.drop (Value.array xs).encode.dropLast.length).dropLast) =
      if xs = [] then joined ys else encodeItems ys := by
  have hopen : (Value.array xs).encode.dropLast = '[' :: joined xs := by
    rw [encode_array, ← List.cons_append, List.dropLast_concat]
  rw [hopen]
  by_cases hx : xs = []
  · subst hx
    simp [encode_array, joined]
  · rw [encode_array, joined_append hx, if_neg hx]
    simp

theorem appendedRows_spec {previous next : List Value} {keyColumn : String} {appended : Keyed}
    (hp : ∀ row ∈ previous, ∀ n, row ≠ .number n)
    (h : appendedRows (Value.array previous).encode (Value.array next).encode keyColumn =
      some appended) :
    next = previous ++ appended.map Prod.snd ∧
      ∀ row ∈ appended, recordKey keyColumn row.2 = some row.1 := by
  unfold appendedRows at h
  split_ifs at h with hbrackets hopen
  have htext : '[' :: joined previous <+: (Value.array next).encode := by
    have hp' : (Value.array previous).encode.dropLast <+: (Value.array next).encode := by
      simpa using hopen
    rwa [encode_array, ← List.cons_append, List.dropLast_concat] at hp'
  obtain ⟨rest, rfl⟩ := prefix_of_encode_array hp htext
  rw [drop_joined] at h
  by_cases hrest : rest = []
  · subst hrest
    obtain rfl : appended = [] := by
      by_cases hx : previous = [] <;> simpa [hx, joined, encodeItems, eq_comm] using h
    simp
  · -- the tail is the joined text of the rest, behind a comma when rows stood before it
    have hbody : ∃ c tail, (if previous = [] then joined rest else encodeItems rest) = c :: tail ∧
        (if c = ',' then tail else c :: tail) = joined rest := by
      by_cases hx : previous = []
      · cases rest with
        | nil => exact absurd rfl hrest
        | cons value rest =>
            obtain ⟨c, r, hc, _, _, hcomma⟩ := value.encode_head
            exact ⟨c, r ++ encodeItems rest, by simp [hx, joined, hc], by simp [hcomma, joined, hc]⟩
      · exact ⟨',', joined rest, by simp [hx, encodeItems_eq_cons hrest], by simp⟩
    obtain ⟨c, tail, htail, hjoined⟩ := hbody
    rw [htail] at h
    simp only [hjoined, ← encode_array] at h
    rw [fromSlice, decodeWithin_encode] at h
    split_ifs at h with hdepth
    obtain ⟨hrows, hkeys⟩ := keyAppended_spec h
    exact ⟨by rw [hrows], hkeys⟩

theorem mem_keys_of_isChanged_false {previous : Keyed} {row : String × Value}
    (h : isChanged previous row = false) :
    ∃ before, previous.lookup row.1 = some before ∧ before.same row.2 = true := by
  unfold isChanged at h
  split at h
  · exact ⟨_, ‹_›, by simpa using h⟩
  · cases h

theorem changedRows_append {previous appended : Keyed} (hn : (keys (previous ++ appended)).Nodup) :
    changedRows previous (previous ++ appended) = appended := by
  rw [keys_append, List.nodup_append] at hn
  obtain ⟨hprevious, _, hfresh⟩ := hn
  have hsame : previous.filter (isChanged previous) = [] := by
    rw [List.filter_eq_nil_iff]
    intro row hrow
    simp [isChanged, lookup_of_mem hprevious hrow, Value.same_refl]
  have hnew : appended.filter (isChanged previous) = appended := by
    rw [List.filter_eq_self]
    intro row hrow
    have habsent : previous.lookup row.1 = none :=
      lookup_eq_none.mpr fun h => hfresh _ h row.1 (mem_keys.mpr ⟨row.2, hrow⟩) rfl
    simp [isChanged, habsent]
  rw [changedRows, List.filter_append, hsame, hnew, List.nil_append]

theorem filter_keys_fresh {previous appended : Keyed} (hn : (keys (previous ++ appended)).Nodup) :
    (keys appended).filter (· ∉ keys previous) = keys appended := by
  rw [List.filter_eq_self]
  intro key hkey
  rw [keys_append, List.nodup_append] at hn
  simpa using fun h => hn.2.2 key h key hkey rfl

theorem tailAppend_append {previous appended : Keyed} (hn : (keys (previous ++ appended)).Nodup) :
    TailAppend previous (previous ++ appended) := by
  have hkept : (keys previous).filter (· ∈ keys (previous ++ appended)) = keys previous := by
    rw [List.filter_eq_self]
    intro key hkey
    simp [hkey]
  have hnone : (keys previous).filter (· ∉ keys previous) = [] := by
    rw [List.filter_eq_nil_iff]
    intro key hkey
    simpa using hkey
  rw [TailAppend, hkept, keys_append, List.filter_append, hnone, filter_keys_fresh hn,
    List.nil_append]

theorem rowEdits_append {previous appended : Keyed} (rows : RenderedRows)
    (hn : (keys (previous ++ appended)).Nodup) :
    rowEdits previous (previous ++ appended) rows =
      appended.map fun row => .put row.1 (rows.htmlOf row.1) := by
  have hgone : previous.filter (fun row => row.1 ∉ keys (previous ++ appended)) = [] := by
    rw [List.filter_eq_nil_iff]
    intro row hrow
    simp [mem_keys.mpr ⟨row.2, hrow⟩]
  rw [rowEdits, hgone, changedRows_append hn, List.map_nil, List.nil_append]

theorem insertsLast_seen {previous ks : List String} (h : insertsLast previous true ks = true) :
    ∀ key ∈ ks, key ∉ previous := by
  induction ks with
  | nil => simp
  | cons key ks ih =>
      rw [insertsLast] at h
      split_ifs at h with hmem
      · simp at h
      · intro k hk
        rcases List.mem_cons.mp hk with rfl | hk
        · exact hmem
        · exact ih h k hk

theorem insertsLast_spec {previous ks : List String} (h : insertsLast previous false ks = true) :
    ks = ks.filter (· ∈ previous) ++ ks.filter (· ∉ previous) := by
  induction ks with
  | nil => rfl
  | cons key ks ih =>
      rw [insertsLast] at h
      split_ifs at h with hmem
      · have hrest := ih (by simpa using h)
        simp only [List.filter_cons, hmem, decide_true, if_true, not_true_eq_false, decide_false,
          Bool.false_eq_true, if_false, List.cons_append, List.cons.injEq, true_and]
        exact hrest
      · have hfresh := insertsLast_seen h
        have hnone : ks.filter (· ∈ previous) = [] := by
          rw [List.filter_eq_nil_iff]
          intro k hk
          simpa using hfresh k hk
        have hall : ks.filter (· ∉ previous) = ks := by
          rw [List.filter_eq_self]
          intro k hk
          simpa using hfresh k hk
        simp only [List.filter_cons, hmem, decide_false, Bool.false_eq_true, if_false,
          not_false_eq_true, decide_true, if_true]
        rw [hnone, hall, List.nil_append]

theorem isTailAppend_spec {previous next : List Value} {keyColumn : String} {P N : Keyed}
    (hp : indexByKey previous keyColumn = some P) (hn : indexByKey next keyColumn = some N)
    (h : isTailAppend (.array previous) (.array next) keyColumn = true) : TailAppend P N := by
  simp only [isTailAppend, Value.asArray, hp, hn, Bool.and_eq_true, decide_eq_true_eq] at h
  have hlast := insertsLast_spec h.2
  rw [← h.1] at hlast
  exact hlast

theorem projectChanges_append (rows : RenderedRows) (xs ys : List RecordChange) :
    projectChanges (xs ++ ys) rows =
      (projectChanges xs rows).bind fun a => (projectChanges ys rows).map fun b => a ++ b := by
  simp only [projectChanges, List.mapM_append, Option.bind_eq_bind, Option.pure_def]
  cases xs.mapM (projectChange rows) with
  | none => rfl
  | some a => cases ys.mapM (projectChange rows) <;> rfl

theorem projectChanges_retractions (rows : RenderedRows) (gone : Keyed) (held : String → Bool) :
    projectChanges (gone.map fun row => ⟨-1, row.1, row.2⟩) rows =
      some ((gone.map fun row => Edit.remove row.1).flatMap (changesOf held)) := by
  induction gone with
  | nil => rfl
  | cons row gone ih =>
      unfold projectChanges at ih ⊢
      simp [List.mapM_cons, projectChange, ih, changesOf]

theorem projectChanges_changesAt (previous : Keyed) (rows : RenderedRows)
    (row : String × Value) :
    projectChanges (changesAt previous row) rows =
      if isChanged previous row then
        (rows.get row.1).map fun markup =>
          changesOf (fun key => (previous.lookup key).isSome) (.put row.1 markup.html)
      else some [] := by
  unfold changesAt isChanged projectChanges changesOf
  cases hbefore : previous.lookup row.1 with
  | none => cases hget : rows.get row.1 <;> simp [projectChange, hget, hbefore]
  | some before =>
      cases hsame : before.same row.2 with
      | true => simp [hsame]
      | false => cases hget : rows.get row.1 <;> simp [projectChange, hsame, hget, hbefore]

theorem projectChanges_rows (previous next : Keyed) (rows : RenderedRows) :
    projectChanges (next.flatMap (changesAt previous)) rows = none ∧
        ¬ Rendered (changedRows previous next) rows ∨
      projectChanges (next.flatMap (changesAt previous)) rows =
          some (((changedRows previous next).map fun row =>
            Edit.put row.1 (rows.htmlOf row.1)).flatMap
              (changesOf fun key => (previous.lookup key).isSome)) ∧
        Rendered (changedRows previous next) rows := by
  induction next with
  | nil => exact Or.inr ⟨rfl, fun row hrow => by cases hrow⟩
  | cons row next ih =>
      rw [List.flatMap_cons, projectChanges_append, projectChanges_changesAt]
      cases hchanged : isChanged previous row with
      | false =>
          have hskip : changedRows previous (row :: next) = changedRows previous next := by
            simp [changedRows, hchanged]
          rw [hskip]
          rcases ih with ⟨hnone, h⟩ | ⟨hsome, h⟩
          · exact Or.inl ⟨by simp [hnone], h⟩
          · exact Or.inr ⟨by simp [hsome], h⟩
      | true =>
          have hkeep : changedRows previous (row :: next) = row :: changedRows previous next := by
            simp [changedRows, hchanged]
          rw [hkeep]
          cases hget : rows.get row.1 with
          | none =>
              refine Or.inl ⟨by simp, fun h => ?_⟩
              obtain ⟨markup, hmarkup⟩ := h row (by simp)
              rw [hget] at hmarkup
              cases hmarkup
          | some markup =>
              rcases ih with ⟨hnone, h⟩ | ⟨hsome, h⟩
              · exact Or.inl ⟨by simp [hnone], fun hr => h fun r hmem => hr r (by simp [hmem])⟩
              · refine Or.inr ⟨by simp [hsome, htmlOf_of_get hget], fun r hr => ?_⟩
                rcases List.mem_cons.mp hr with rfl | hr
                · exact ⟨markup, hget⟩
                · exact h r hr

theorem projectChanges_diffKeyed (previous next : Keyed) (rows : RenderedRows) :
    projectChanges (diffKeyed previous next) rows = none ∧
        ¬ Rendered (changedRows previous next) rows ∨
      projectChanges (diffKeyed previous next) rows =
          some ((rowEdits previous next rows).flatMap
            (changesOf fun key => (previous.lookup key).isSome)) ∧
        Rendered (changedRows previous next) rows := by
  rw [diffKeyed, projectChanges_append, projectChanges_retractions _ _ (fun key =>
    (previous.lookup key).isSome), rowEdits, List.flatMap_append]
  rcases projectChanges_rows previous next rows with ⟨hnone, h⟩ | ⟨hsome, h⟩
  · exact Or.inl ⟨by simp [hnone], h⟩
  · exact Or.inr ⟨by simp [hsome], h⟩

/-! ### The positioned insert -/

/-- Where the walk stands: the survivors read before and after the run of inserts. -/
structure WalkAt (previous : Keyed) (read : Keyed) (walk : InsertWalk) where
  before : Keyed
  inserted : Keyed
  after : Keyed
  read_eq : read = before ++ inserted ++ after
  unchanged : ∀ row ∈ before ++ after, isChanged previous row = false
  fresh : ∀ row ∈ inserted, isChanged previous row = true
  keys_eq : walk.keys = keys inserted
  survivors_eq : walk.survivors = keys (before ++ after)
  anchor : walk.before = (keys after).head?
  closed : walk.runClosed = true ↔ after ≠ []
  ahead : inserted = [] → after = []

theorem WalkAt.survivor {previous read : Keyed} {walk : InsertWalk} (w : WalkAt previous read walk)
    {row : String × Value} (h : isChanged previous row = false) :
    Nonempty (WalkAt previous (read ++ [row])
      (if walk.keys ≠ [] ∧ !walk.runClosed then
        { walk with
          before := some row.1
          runClosed := true
          survivors := walk.survivors ++ [row.1] }
      else { walk with survivors := walk.survivors ++ [row.1] })) := by
  by_cases hrun : w.inserted = []
  · have hafter := w.ahead hrun
    have hkeys : walk.keys = [] := by rw [w.keys_eq, hrun]; rfl
    rw [if_neg (by simp [hkeys])]
    refine ⟨⟨w.before ++ [row], [], [], ?_, ?_, by simp, by simp [hkeys], ?_, ?_, ?_, by simp⟩⟩
    · simp [w.read_eq, hrun, hafter]
    · intro r hr
      rcases List.mem_append.mp (by simpa using hr : r ∈ w.before ++ [row]) with hr | hr
      · exact w.unchanged r (by simp [hr])
      · exact List.mem_singleton.mp hr ▸ h
    · simp [w.survivors_eq, hafter]
    · simpa [hafter] using w.anchor
    · simpa [hafter] using w.closed
  · have hkeys : walk.keys ≠ [] := by
      rw [w.keys_eq]
      simpa [keys] using hrun
    have hunchanged : ∀ r ∈ w.before ++ (w.after ++ [row]), isChanged previous r = false := by
      intro r hr
      rw [← List.append_assoc, List.mem_append] at hr
      rcases hr with hr | hr
      · exact w.unchanged r hr
      · exact List.mem_singleton.mp hr ▸ h
    split_ifs with hopen
    · have hafter : w.after = [] := by
        by_contra hne
        simp [w.closed.mpr hne] at hopen
      refine ⟨⟨w.before, w.inserted, w.after ++ [row], ?_, hunchanged, w.fresh, w.keys_eq, ?_, ?_, ?_,
        fun hi => absurd hi hrun⟩⟩
      · simp [w.read_eq]
      · simp [w.survivors_eq]
      · simp [hafter]
      · simp
    · have hclosed : walk.runClosed = true := by simpa [hkeys] using hopen
      obtain ⟨first, rest, hafter⟩ := List.exists_cons_of_ne_nil (w.closed.mp hclosed)
      refine ⟨⟨w.before, w.inserted, w.after ++ [row], ?_, hunchanged, w.fresh, w.keys_eq, ?_, ?_, ?_,
        fun hi => absurd hi hrun⟩⟩
      · simp [w.read_eq]
      · simp [w.survivors_eq]
      · simpa [hafter] using w.anchor
      · simpa [hafter] using w.closed

theorem WalkAt.step {previous read : Keyed} {walk walk' : InsertWalk} (w : WalkAt previous read walk)
    {row : String × Value} (h : walkInsert previous walk row = some walk') :
    Nonempty (WalkAt previous (read ++ [row]) walk') := by
  unfold walkInsert at h
  cases hbefore : previous.lookup row.1 with
  | none =>
      rw [hbefore] at h
      dsimp only at h
      split_ifs at h with hclosed
      obtain rfl := Option.some.inj h
      have hafter : w.after = [] := by
        by_contra hne
        exact hclosed (w.closed.mpr hne)
      refine ⟨⟨w.before, w.inserted ++ [row], [], ?_, ?_, ?_, ?_, ?_, ?_, ?_, by simp⟩⟩
      · simp [w.read_eq, hafter]
      · intro r hr
        exact w.unchanged r (by simpa [hafter] using hr)
      · intro r hr
        rcases List.mem_append.mp hr with hr | hr
        · exact w.fresh r hr
        · obtain rfl := List.mem_singleton.mp hr
          simp [isChanged, hbefore]
      · simp [w.keys_eq]
      · simp [w.survivors_eq, hafter]
      · simpa [hafter] using w.anchor
      · simpa [hafter] using w.closed
  | some record =>
      rw [hbefore] at h
      dsimp only at h
      by_cases hsame : record.same row.2 = true
      · have hunchanged : isChanged previous row = false := by simp [isChanged, hbefore, hsame]
        have hnext := w.survivor hunchanged
        rw [hsame] at h
        split_ifs at h hnext <;> exact Option.some.inj h ▸ hnext
      · simp [hsame] at h

theorem WalkAt.run {previous : Keyed} {next read : Keyed} {walk walk' : InsertWalk}
    (w : WalkAt previous read walk) (h : next.foldlM (walkInsert previous) walk = some walk') :
    Nonempty (WalkAt previous (read ++ next) walk') := by
  induction next generalizing read walk with
  | nil =>
      obtain rfl : walk = walk' := by simpa using h
      exact ⟨by simpa using w⟩
  | cons row next ih =>
      rw [List.foldlM_cons] at h
      cases hstep : walkInsert previous walk row with
      | none => simp [hstep] at h
      | some middle =>
          obtain ⟨w'⟩ := w.step hstep
          rw [hstep] at h
          have hrest := ih w' (by simpa using h)
          simpa using hrest

theorem classifyKeyedInsert_spec {previous next : Keyed} {insert : PositionedInsert}
    (h : classifyKeyedInsert previous next = some insert) :
    ∃ before inserted after, next = before ++ inserted ++ after ∧
      keys previous = keys (before ++ after) ∧ changedRows previous next = inserted ∧
      insert = ⟨(keys after).head?, keys inserted⟩ := by
  unfold classifyKeyedInsert at h
  split_ifs at h with hgone
  cases hwalk : next.foldlM (walkInsert previous) ⟨[], none, false, []⟩ with
  | none => simp [hwalk] at h
  | some walk =>
      rw [hwalk] at h
      simp only [Option.bind_eq_bind, Option.bind_some] at h
      split_ifs at h with hempty horder
      have start : WalkAt previous [] ⟨[], none, false, []⟩ :=
        ⟨[], [], [], rfl, by simp, by simp, rfl, rfl, rfl, by simp, by simp⟩
      obtain ⟨before, inserted, after, hread, hunchanged, hfresh, hkeys, hsurvivors, hanchor, _, _⟩ :=
        start.run hwalk
      rw [List.nil_append] at hread
      refine ⟨before, inserted, after, hread, ?_, ?_, ?_⟩
      · rw [ne_eq, not_not] at horder
        rw [horder, hsurvivors]
      · have hbefore : before.filter (isChanged previous) = [] := by
          rw [List.filter_eq_nil_iff]
          intro row hrow
          simp [hunchanged row (by simp [hrow])]
        have hafter : after.filter (isChanged previous) = [] := by
          rw [List.filter_eq_nil_iff]
          intro row hrow
          simp [hunchanged row (by simp [hrow])]
        rw [changedRows, hread, List.filter_append, List.filter_append, hbefore, hafter,
          List.filter_eq_self.mpr hfresh]
        simp
      · have hinsert : insert = ⟨walk.before, walk.keys⟩ := by simpa [eq_comm] using h
        rw [hinsert, hanchor, hkeys]

/-! ### What `rowUpdate` chooses -/

theorem unchanged_of_diff_nil {P N : Keyed} (htail : TailAppend P N) (h : diffKeyed P N = []) :
    keys P = keys N ∧ changedRows P N = [] := by
  obtain ⟨hgone, hnew⟩ := List.append_eq_nil_iff.mp h
  have hchanged : changedRows P N = [] := by
    rw [changedRows, List.filter_eq_nil_iff]
    intro row hrow hc
    have hnil := List.flatMap_eq_nil_iff.mp hnew row hrow
    unfold changesAt at hnil
    unfold isChanged at hc
    split at hnil <;> simp_all
  have hall : (keys P).filter (· ∈ keys N) = keys P := by
    rw [List.filter_eq_self]
    intro key hkey
    obtain ⟨record, hmem⟩ := mem_keys.mp hkey
    have hkept := List.filter_eq_nil_iff.mp (List.map_eq_nil_iff.mp hgone) (key, record) hmem
    simpa using hkept
  have hnone : (keys N).filter (· ∉ keys P) = [] := by
    rw [List.filter_eq_nil_iff]
    intro key hkey habsent
    obtain ⟨record, hmem⟩ := mem_keys.mp hkey
    have hchanged' := List.filter_eq_nil_iff.mp hchanged (key, record) hmem
    rw [decide_eq_true_eq] at habsent
    simp [isChanged, lookup_eq_none.mpr habsent] at hchanged'
  refine ⟨?_, hchanged⟩
  rw [TailAppend, hall, hnone, List.append_nil] at htail
  exact htail.symm

theorem inserts_flatMap (appended : Keyed) (rows : RenderedRows) :
    (appended.map fun row => Edit.put row.1 (rows.htmlOf row.1)).flatMap (changesOf fun _ => false) =
      appended.map fun row => ⟨1, row.1, rows.htmlOf row.1⟩ := by
  induction appended with
  | nil => rfl
  | cons row appended ih => simp [ih, changesOf]

section
variable {slot : ForgeCollection} {previous next : List Value} {P N : Keyed} {rows : RenderedRows}
variable (hP : indexByKey previous slot.keyColumn = some P)
variable (hN : indexByKey next slot.keyColumn = some N)
include hP hN

theorem appendedRows_keyed {appended : Keyed}
    (h : appendedRows (Value.array previous).encode (Value.array next).encode slot.keyColumn =
      some appended) : N = P ++ appended ∧ (keys (P ++ appended)).Nodup := by
  obtain ⟨hnext, happended⟩ := appendedRows_spec (indexByKey_not_number hP) h
  obtain ⟨hrows, _, hkeys⟩ := indexByKey_spec hP
  obtain ⟨hrows', hnodup, hkeys'⟩ := indexByKey_spec hN
  have hN' : N = P ++ appended := by
    refine index_unique (by rw [hrows', hnext, List.map_append, hrows]) hkeys' ?_
    intro row hrow
    rcases List.mem_append.mp hrow with hrow | hrow
    · exact hkeys row hrow
    · exact happended row hrow
  exact ⟨hN', hN' ▸ hnodup⟩

/-- What `rowUpdate` chooses: the fallback, where no classifier accepts the transition
or a changed row was not rendered, and otherwise a shape that says how the rows differ. -/
theorem rowUpdate_cases (rows : RenderedRows) (isPartial : Bool) :
    (rowUpdate slot (Value.array previous).encode (Value.array next).encode rows isPartial =
        reconcileOrDefer rows isPartial ∧
      (needsFullSet (Value.array previous).encode (Value.array next).encode slot.keyColumn = true ∨
        ¬ Rendered (changedRows P N) rows)) ∨
    (needsFullSet (Value.array previous).encode (Value.array next).encode slot.keyColumn = false ∧
      ∃ update, RowShape P N rows update ∧
        rowUpdate slot (Value.array previous).encode (Value.array next).encode rows isPartial =
          (update, false)) := by
  cases happended : appendedRows (Value.array previous).encode (Value.array next).encode
      slot.keyColumn with
  | some appended =>
      obtain ⟨rfl, hnodup⟩ := appendedRows_keyed hP hN happended
      have hfull : needsFullSet (Value.array previous).encode (Value.array next).encode
          slot.keyColumn = false := by simp [needsFullSet, happended]
      cases appended with
      | nil =>
          refine Or.inr ⟨hfull, .none, .unchanged (by simp) (changedRows_append hnodup), ?_⟩
          simp [rowUpdate, happended]
      | cons row appended =>
          have hread := mapM_get (fun row markup => SlotChange.mk 1 row.1 markup.html) rows
            (row :: appended) (fun row html => ⟨1, row.1, html⟩) (fun _ _ => rfl)
          rcases hread with ⟨hnone, hr⟩ | ⟨hsome, hr⟩
          · refine Or.inl ⟨?_, Or.inr ?_⟩
            · simp only [rowUpdate, happended, appendedChanges, hnone]
            · rwa [changedRows_append hnodup]
          · have hshape := @RowShape.delta P _ rows (fun _ => false)
              (tailAppend_append hnodup) (by rwa [changedRows_append hnodup])
            refine Or.inr ⟨hfull, _, hshape, ?_⟩
            simp only [rowUpdate, happended, appendedChanges, hsome, rowEdits_append rows hnodup,
              inserts_flatMap]
  | none =>
      cases hread : fromSlice (Value.array previous).encode with
      | none =>
          exact Or.inl ⟨by simp [rowUpdate, happended, hread],
            Or.inl (by simp [needsFullSet, happended, hread])⟩
      | some p =>
          cases hread' : fromSlice (Value.array next).encode with
          | none =>
              exact Or.inl ⟨by simp [rowUpdate, happended, hread, hread'],
                Or.inl (by simp [needsFullSet, happended, hread, hread'])⟩
          | some n =>
              obtain rfl := fromSlice_encode hread
              obtain rfl := fromSlice_encode hread'
              cases htail : isTailAppend (.array previous) (.array next) slot.keyColumn with
              | true =>
                  have hdiff : diffRecords (.array previous) (.array next) slot.keyColumn =
                      some (diffKeyed P N) := by simp [diffRecords, Value.asArray, hP, hN]
                  have hfull : needsFullSet (Value.array previous).encode
                      (Value.array next).encode slot.keyColumn = false := by
                    simp [needsFullSet, hread, hread', htail]
                  have hspec := isTailAppend_spec hP hN htail
                  cases hchanges : diffKeyed P N with
                  | nil =>
                      obtain ⟨hkeys, hnone⟩ := unchanged_of_diff_nil hspec hchanges
                      refine Or.inr ⟨hfull, .none, .unchanged hkeys hnone, ?_⟩
                      simp [rowUpdate, happended, hread, hread', htail, hdiff, hchanges]
                  | cons change changes =>
                      rcases projectChanges_diffKeyed P N rows with ⟨hnone, hr⟩ | ⟨hsome, hr⟩
                      · rw [hchanges] at hnone
                        refine Or.inl ⟨?_, Or.inr hr⟩
                        simp [rowUpdate, happended, hread, hread', htail, hdiff, hchanges, hnone]
                      · rw [hchanges] at hsome
                        refine Or.inr ⟨hfull, _, .delta (fun key => (P.lookup key).isSome) hspec hr, ?_⟩
                        simp [rowUpdate, happended, hread, hread', htail, hdiff, hchanges, hsome]
              | false =>
                  have hclassify : classifyPositionedInsert (.array previous) (.array next)
                      slot.keyColumn = classifyKeyedInsert P N := by
                    simp [classifyPositionedInsert, Value.asArray, hP, hN]
                  cases hinsert : classifyKeyedInsert P N with
                  | none =>
                      refine Or.inl ⟨?_, Or.inl ?_⟩
                      · simp [rowUpdate, happended, hread, hread', htail, hclassify, hinsert]
                      · simp [needsFullSet, happended, hread, hread', htail, hclassify, hinsert]
                  | some insert =>
                      have hfull : needsFullSet (Value.array previous).encode
                          (Value.array next).encode slot.keyColumn = false := by
                        simp [needsFullSet, hread, hread', htail, hclassify, hinsert]
                      obtain ⟨before, inserted, after, hnext, hkeys, hchanged, rfl⟩ :=
                        classifyKeyedInsert_spec hinsert
                      have hproject : projectInsertedRows ⟨(keys after).head?, keys inserted⟩ rows =
                          inserted.mapM fun row => (rows.get row.1).map fun markup =>
                            ReconcileRow.mk row.1 markup.html := by
                        simp only [projectInsertedRows, keys, List.mapM_map, Function.comp_def]
                      rcases mapM_get (fun row markup => ReconcileRow.mk row.1 markup.html) rows
                        inserted (fun row html => ⟨row.1, html⟩) (fun _ _ => rfl) with
                        ⟨hnone, hr⟩ | ⟨hsome, hr⟩
                      · refine Or.inl ⟨?_, Or.inr (by rwa [hchanged])⟩
                        rw [← hproject] at hnone
                        simp [rowUpdate, happended, hread, hread', htail, hclassify, hinsert, hnone]
                      · refine Or.inr ⟨hfull, _,
                          .insert before inserted after hnext hkeys hchanged hr, ?_⟩
                        rw [← hproject] at hsome
                        simp [rowUpdate, happended, hread, hread', htail, hclassify, hinsert, hsome]
end

end Albedo.Forge
