import Albedo.Library.KeyedList
import Albedo.Runtime.Operations

/-!
# What a projected session learns

A session that is granted some columns of a topic is sent the topic's values cut to
them. Two runs that differ only in what the session was not granted show it the same,
as long as every value it is shown nests no deeper than the reader goes: a deeper one is
not cut at all.
-/
namespace Albedo.Broadcast
open Json KeyedList

/-! ### Cutting a value -/

def FieldsAgree (columns : Columns) (f g : List (String × Value)) : Prop :=
  ∀ column ∈ columns, f.lookup column = g.lookup column

/-- Two values are both arrays of objects, or both objects, that agree on some columns. -/
inductive AgreeOn (columns : Columns) : Value → Value → Prop where
  | rows {fs gs : List (List (String × Value))} (h : List.Forall₂ (FieldsAgree columns) fs gs) :
      AgreeOn columns (.array (fs.map Value.object)) (.array (gs.map Value.object))
  | object {f g : List (String × Value)} (h : FieldsAgree columns f g) :
      AgreeOn columns (.object f) (.object g)

def retain (columns : Columns) (fields : List (String × Value)) : List (String × Value) :=
  fields.filter fun f => f.1 ∈ columns

theorem retain_eq_of_agree {columns : Columns} {f g : List (String × Value)}
    (hf : f.Pairwise fun a b => a.1 < b.1) (hg : g.Pairwise fun a b => a.1 < b.1)
    (h : FieldsAgree columns f g) : retain columns f = retain columns g :=
  Sorted.filter_eq (p := fun column => decide (column ∈ columns)) hf hg
    fun column hcolumn => h column (of_decide_eq_true hcolumn)

def cutValue (columns : Columns) : Value → Option Value
  | .array rows => some (.array (rows.map fun row =>
      match row with
      | .object fields => .object (retain columns fields)
      | row => row))
  | .object fields => some (.object (retain columns fields))
  | _ => none

theorem projectValue_eq (wire : Wire) (value : List Char) (columns : Columns) :
    projectValue wire value columns =
      (((wire.fromSlice value).bind (cutValue columns)).map Value.encode).getD value := by
  unfold projectValue
  cases wire.fromSlice value with
  | none => rfl
  | some v => cases v <;> rfl

theorem cutValue_rows (columns : Columns) (fs : List (List (String × Value))) :
    cutValue columns (.array (fs.map Value.object)) =
      some (.array ((fs.map (retain columns)).map Value.object)) := by
  simp [cutValue, Function.comp_def]

theorem objectsOf_rows (fs : List (List (String × Value))) :
    objectsOf (.array (fs.map Value.object)) = fs := by
  simp [objectsOf, List.filterMap_map]

theorem cutValue_eq_of_agree {columns : Columns} {a b : Value} (ha : KeysSorted a)
    (hb : KeysSorted b) (h : AgreeOn columns a b) :
    (cutValue columns a).isSome ∧ cutValue columns a = cutValue columns b := by
  cases h with
  | @rows fs gs h =>
      rw [cutValue_rows, cutValue_rows]
      refine ⟨rfl, ?_⟩
      have hfs : ∀ f ∈ fs, f.Pairwise fun a b => a.1 < b.1 :=
        fun f hf => ha f (by rwa [objectsOf_rows])
      have hgs : ∀ g ∈ gs, g.Pairwise fun a b => a.1 < b.1 :=
        fun g hg => hb g (by rwa [objectsOf_rows])
      have hcut : fs.map (retain columns) = gs.map (retain columns) := by
        clear ha hb
        induction h with
        | nil => rfl
        | cons hfg _ ih =>
            obtain ⟨hf, hfs⟩ := List.forall_mem_cons.mp hfs
            obtain ⟨hg, hgs⟩ := List.forall_mem_cons.mp hgs
            rw [List.map_cons, List.map_cons, retain_eq_of_agree hf hg hfg, ih hfs hgs]
      rw [hcut]
  | @object f g h =>
      refine ⟨rfl, ?_⟩
      have hf : f.Pairwise fun a b => a.1 < b.1 := ha f (List.mem_singleton.mpr rfl)
      have hg : g.Pairwise fun a b => a.1 < b.1 := hb g (List.mem_singleton.mpr rfl)
      rw [cutValue, cutValue, retain_eq_of_agree hf hg h]

/-- Two values a session cannot tell apart: equal where it reads them whole, and otherwise
arrays of objects, or objects, that agree on its columns. -/
def Agree (json : List Char → Option Value) (columns : Option Columns) (v w : List Char) : Prop :=
  match columns with
  | none => v = w
  | some columns => ∃ a b, json v = some a ∧ json w = some b ∧ AgreeOn columns a b

def Shallow (json : List Char → Option Value) (columns : Option Columns) (v w : List Char) :
    Prop :=
  columns.isSome → ∀ text ∈ [v, w], ∀ a, json text = some a → a.depth ≤ recursionLimit

def shownValue (wire : Wire) (columns : Option Columns) (value : List Char) : List Char :=
  match columns with
  | some columns => projectValue wire value columns
  | none => value

theorem shownValue_eq {wire : Wire} {columns : Option Columns} {v w : List Char}
    (h : Agree wire.json columns v w) (hshallow : Shallow wire.json columns v w) :
    shownValue wire columns v = shownValue wire columns w := by
  cases columns with
  | none => exact h
  | some columns =>
      obtain ⟨a, b, ha, hb, hab⟩ := h
      have hread : ∀ text ∈ [v, w], ∀ c, wire.json text = some c → wire.fromSlice text = some c := by
        intro text htext c hc
        have hdepth := hshallow rfl text htext c hc
        simp [Wire.fromSlice, hc, Option.filter, hdepth]
      obtain ⟨hsome, hcut⟩ := cutValue_eq_of_agree (wire.json_sorted v a ha)
        (wire.json_sorted w b hb) hab
      obtain ⟨c, hc⟩ := Option.isSome_iff_exists.mp hsome
      rw [shownValue, shownValue, projectValue_eq, projectValue_eq, hread v (by simp) a ha,
        hread w (by simp) b hb, Option.bind_some, Option.bind_some, ← hcut, hc]
      rfl

theorem projectValue_of_deep {wire : Wire} {value : List Char} {a : Value}
    (h : wire.json value = some a) (hdeep : recursionLimit < a.depth) (columns : Columns) :
    projectValue wire value columns = value := by
  have hread : wire.fromSlice value = none := by
    simp [Wire.fromSlice, h, Option.filter, Nat.not_le.mpr hdeep]
  rw [projectValue_eq, hread]
  rfl

/-! ### The report, session by session -/

/-- How one subscriber's sink answers. A frame that does not encode is not sent. -/
def answer (wire : Wire) (t : Topic) (frame : OpcodeFrame)
    (entry : Sigma fun _ : SessionId => Sender) : SendOutcome :=
  if wire.encodes (frameFor wire t entry.1 frame) then
    wire.trySend entry.2 (frameFor wire t entry.1 frame)
  else .closed

theorem reportSend_delivered (wire : Wire) (t : Topic) (frame : OpcodeFrame)
    (report : BroadcastDelivery) (entry : Sigma fun _ : SessionId => Sender) :
    (reportSend wire t frame report entry).delivered = report.delivered ++
      if answer wire t frame entry = .sent then [(entry.1, frameFor wire t entry.1 frame)]
      else [] := by
  unfold reportSend answer
  dsimp only
  cases wire.encodes (frameFor wire t entry.1 frame) with
  | false => simp
  | true =>
      simp only [Bool.not_true, Bool.false_eq_true, if_false, if_true]
      cases wire.trySend entry.2 (frameFor wire t entry.1 frame) <;> simp

theorem mem_delivered_iff (wire : Wire) (t : Topic) (frame : OpcodeFrame) (session : SessionId)
    (own : OpcodeFrame) : (session, own) ∈ (fanOutReport wire t frame).delivered ↔
      own = frameFor wire t session frame ∧ ∃ sender, t.subscribers.lookup session = some sender ∧
        answer wire t frame ⟨session, sender⟩ = .sent := by
  have hfold : ∀ (entries : List (Sigma fun _ : SessionId => Sender)) (report : BroadcastDelivery),
      (session, own) ∈ (entries.foldl (reportSend wire t frame) report).delivered ↔
        (session, own) ∈ report.delivered ∨ ∃ entry ∈ entries, answer wire t frame entry = .sent ∧
          (session, own) = (entry.1, frameFor wire t entry.1 frame) := by
    intro entries
    induction entries with
    | nil => simp
    | cons entry entries ih =>
        intro report
        rw [List.foldl_cons, ih, reportSend_delivered]
        by_cases hsent : answer wire t frame entry = .sent
        · simp [hsent, or_assoc]
        · simp [hsent]
  rw [fanOutReport_eq, hfold]
  simp only [List.not_mem_nil, false_or, Prod.mk.injEq]
  constructor
  · rintro ⟨⟨s, sender⟩, hmem, hsent, rfl, rfl⟩
    exact ⟨rfl, sender, AList.mem_lookup_iff.mpr hmem, hsent⟩
  · rintro ⟨rfl, sender, hlook, hsent⟩
    exact ⟨⟨session, sender⟩, AList.mem_lookup_iff.mp hlook, hsent, rfl, rfl⟩

/-! ### One encoding for each column set -/

/-- The loop of a fan-out as it runs: its report, and the projected frames made so far,
nothing for one that did not encode. -/
structure FanOutLoop where
  report : BroadcastDelivery
  projected : List (Columns × Option OpcodeFrame)

def projectedFrame (wire : Wire) (frame : OpcodeFrame) (slotId : SlotId) (value : List Char)
    (columns : Columns) : Option OpcodeFrame :=
  let own : OpcodeFrame :=
    { frame with instruction := .slotSet slotId (projectValue wire value columns) }
  if wire.encodes own then some own else none

/-- The bytes for one subscriber: from the cache, made and cached, or the whole frame. -/
def FanOutLoop.bytes (loop : FanOutLoop) (wire : Wire) (t : Topic) (frame : OpcodeFrame)
    (session : SessionId) : Option OpcodeFrame × List (Columns × Option OpcodeFrame) :=
  match frame.instruction, t.projections.lookup session with
  | .slotSet slotId value, some columns =>
      match loop.projected.lookup columns with
      | some cached => (cached, loop.projected)
      | none =>
          let made := projectedFrame wire frame slotId value columns
          (made, (columns, made) :: loop.projected)
  | _, _ => (some frame, loop.projected)

def FanOutLoop.send (wire : Wire) (t : Topic) (frame : OpcodeFrame) (loop : FanOutLoop)
    (entry : Sigma fun _ : SessionId => Sender) : FanOutLoop :=
  let (bytes, projected) := loop.bytes wire t frame entry.1
  let report := loop.report
  match bytes with
  | none => ⟨{ report with droppedClosed := report.droppedClosed ++ [entry.1] }, projected⟩
  | some own =>
      match wire.trySend entry.2 own with
      | .sent => ⟨{ report with delivered := report.delivered ++ [(entry.1, own)] }, projected⟩
      | .full => ⟨{ report with droppedFull := report.droppedFull ++ [entry.1] }, projected⟩
      | .closed => ⟨{ report with droppedClosed := report.droppedClosed ++ [entry.1] }, projected⟩

def FanOutLoop.Cached (wire : Wire) (frame : OpcodeFrame) (loop : FanOutLoop) : Prop :=
  ∀ slotId value, frame.instruction = .slotSet slotId value → ∀ columns cached,
    loop.projected.lookup columns = some cached →
      cached = projectedFrame wire frame slotId value columns

theorem FanOutLoop.bytes_eq {wire : Wire} {t : Topic} {frame : OpcodeFrame} {loop : FanOutLoop}
    (h : loop.Cached wire frame) (hframe : wire.encodes frame = true) (session : SessionId) :
    (loop.bytes wire t frame session).1 =
        (if wire.encodes (frameFor wire t session frame) then some (frameFor wire t session frame)
          else none) ∧
      FanOutLoop.Cached wire frame ⟨loop.report, (loop.bytes wire t frame session).2⟩ := by
  unfold FanOutLoop.bytes frameFor
  cases hinstruction : frame.instruction with
  | slotSet slotId value =>
      cases t.projections.lookup session with
      | none =>
          simp only [hframe, if_true]
          exact ⟨trivial, h⟩
      | some columns =>
          cases hlook : loop.projected.lookup columns with
          | some cached =>
              simp only [hlook, h slotId value hinstruction columns cached hlook]
              exact ⟨rfl, h⟩
          | none =>
              simp only [hlook]
              refine ⟨rfl, ?_⟩
              intro slotId' value' hinstruction' columns' cached' hlook'
              obtain ⟨rfl, rfl⟩ := Instruction.slotSet.inj (hinstruction.symm.trans hinstruction')
              rw [List.lookup_cons] at hlook'
              by_cases hcolumns : columns' = columns
              · subst hcolumns
                simp only [BEq.rfl] at hlook'
                exact (Option.some.inj hlook').symm
              · rw [show (columns' == columns) = false by simpa using hcolumns] at hlook'
                exact h slotId value hinstruction columns' cached' hlook'
  | slotDelta slotId changes =>
      simp only [hframe, if_true]
      exact ⟨trivial, h⟩
  | slotInsert slotId before rows =>
      simp only [hframe, if_true]
      exact ⟨trivial, h⟩
  | reconcileList slotId rows =>
      simp only [hframe, if_true]
      exact ⟨trivial, h⟩

theorem fanOutLoop_report {wire : Wire} {frame : OpcodeFrame} (hframe : wire.encodes frame = true)
    (t : Topic) : (t.subscribers.entries.foldl (FanOutLoop.send wire t frame)
      ⟨{ frame, delivered := [], droppedFull := [], droppedClosed := [] }, []⟩).report =
        fanOutReport wire t frame := by
  have hsend : ∀ (loop : FanOutLoop) entry, loop.Cached wire frame →
      (loop.send wire t frame entry).report = reportSend wire t frame loop.report entry ∧
        (loop.send wire t frame entry).Cached wire frame := by
    intro loop entry hcached
    obtain ⟨hbytes, hprojected⟩ := FanOutLoop.bytes_eq (t := t) hcached hframe entry.1
    unfold FanOutLoop.send reportSend
    revert hbytes hprojected
    rcases loop.bytes wire t frame entry.1 with ⟨bytes, projected⟩
    rintro rfl hprojected
    dsimp only
    cases wire.encodes (frameFor wire t entry.1 frame) with
    | false => exact ⟨rfl, hprojected⟩
    | true =>
        simp only [Bool.not_true, Bool.false_eq_true, if_false, if_true]
        cases wire.trySend entry.2 (frameFor wire t entry.1 frame) <;> exact ⟨rfl, hprojected⟩
  have hfold : ∀ (entries : List (Sigma fun _ : SessionId => Sender)) (loop : FanOutLoop),
      loop.Cached wire frame → (entries.foldl (FanOutLoop.send wire t frame) loop).report =
        entries.foldl (reportSend wire t frame) loop.report := by
    intro entries
    induction entries with
    | nil => exact fun _ _ => rfl
    | cons entry entries ih =>
        intro loop hcached
        obtain ⟨hreport, hcached'⟩ := hsend loop entry hcached
        rw [List.foldl_cons, List.foldl_cons, ih _ hcached', hreport]
  exact hfold _ _ fun _ _ _ _ _ hlook => by simp at hlook

end Albedo.Broadcast
