import Mathlib.Algebra.Group.Int.Defs
import Mathlib.Data.List.Nodup
import Mathlib.Order.Basic
import Mathlib.Tactic.Common
import Albedo.Aperture.Journal

/-!
# The journal, made durable

One table of steps, keyed by workflow and step. A step is recorded as unknown before its
request leaves and settled after it was answered, and only from unknown. A log that does not
read back as a contiguous journal starts its workflow over.
-/
namespace Albedo.Aperture

/-- The `state` column. -/
inductive StepState where
  | unknown
  | completed
  | failed
  deriving DecidableEq

/-- A row of `albedo_workflow_steps`, its primary key apart. -/
structure StepRow where
  buildId : String
  kind : StepKind
  digest : String
  state : StepState
  value : Option String
  startedAt : ℤ
  settledAt : Option ℤ

@[ext]
structure StepLog where
  rows : List (ℕ × StepRow)
  sorted : rows.Pairwise fun r s => r.1 < s.1

structure Codec (Value : Type) where
  write : Value → String
  read : String → Option Value
  null : Value
  read_write : ∀ value, read (write value) = some value

def StepLog.empty : StepLog := ⟨[], .nil⟩

/-- Record that a step is about to be attempted. A row that is already there stays. -/
def StepLog.beginStep (log : StepLog) (buildId : String) (index : ℕ) (kind : StepKind)
    (digest : String) (now : ℤ) : StepLog :=
  if log.rows.any (·.1 = index) then log
  else
    { rows := log.rows.filter (·.1 < index) ++
        (index, ⟨buildId, kind, digest, .unknown, none, now, none⟩) ::
          log.rows.filter (index < ·.1)
      sorted := by
        refine List.pairwise_append.mpr ⟨log.sorted.filter _, ?_, fun r hr s hs => ?_⟩
        · exact List.pairwise_cons.mpr
            ⟨fun s hs => of_decide_eq_true (List.mem_filter.mp hs).2, log.sorted.filter _⟩
        · have hr := of_decide_eq_true (List.mem_filter.mp hr).2
          rcases List.mem_cons.mp hs with rfl | hs
          · exact hr
          · exact Nat.lt_trans hr (of_decide_eq_true (List.mem_filter.mp hs).2) }

def StepRow.settle (row : StepRow) (state : StepState) (value : String) (now : ℤ) : StepRow :=
  if row.state = .unknown then { row with state, value := some value, settledAt := some now }
  else row

def StepLog.update (log : StepLog) (index : ℕ) (f : StepRow → StepRow) : StepLog where
  rows := log.rows.map fun r => if r.1 = index then (r.1, f r.2) else r
  sorted := by
    refine List.pairwise_map.mpr (log.sorted.imp fun {r s} hlt => ?_)
    split_ifs <;> exact hlt

def StepLog.settleStep {Value : Type} (codec : Codec Value) (log : StepLog) (index : ℕ)
    (outcome : StepOutcome Value) (now : ℤ) : StepLog :=
  match outcome with
  | .completed value => log.update index fun row => row.settle .completed (codec.write value) now
  | .failed message => log.update index fun row => row.settle .failed message now
  | .unknown => log

def StepRow.outcome {Value : Type} (codec : Codec Value) (row : StepRow) : StepOutcome Value :=
  match row.state with
  | .completed => .completed ((row.value.bind codec.read).getD codec.null)
  | .failed => .failed (row.value.getD "")
  | .unknown => .unknown

def Journal.appendRows {Value : Type} (codec : Codec Value) :
    Journal Value → List (ℕ × StepRow) → Except JournalError (Journal Value)
  | journal, [] => .ok journal
  | journal, (index, row) :: rows =>
      match journal.append index .fetch row.digest (row.outcome codec) with
      | .ok journal => journal.appendRows codec rows
      | .error err => .error err

/-- Rebuild a workflow's log, or nothing when it has no rows or is not contiguous. -/
def StepLog.load {Value : Type} (codec : Codec Value) (log : StepLog) (workflow : String) :
    Option (Journal Value) :=
  match log.rows with
  | [] => none
  | (index, first) :: rows =>
      ((Journal.new workflow first.buildId).appendRows codec ((index, first) :: rows)).toOption

def StepLog.sweep (log : StepLog) (cutoff : ℤ) : StepLog :=
  ⟨log.rows.filter fun r => cutoff ≤ r.2.startedAt, log.sorted.filter _⟩

/-! ### The steps a log holds -/

section Steps

variable {Value : Type} (codec : Codec Value) {log : StepLog}

def decode (r : ℕ × StepRow) : Step Value := ⟨r.1, .fetch, r.2.digest, r.2.outcome codec⟩

def StepLog.steps (log : StepLog) : List (Step Value) := log.rows.map (decode codec)

def StepLog.Dense (log : StepLog) : Prop := log.rows.map Prod.fst = List.range log.rows.length

variable {codec}

theorem Journal.appendRows_ok {journal journal' : Journal Value} {rows : List (ℕ × StepRow)} :
    journal.appendRows codec rows = .ok journal' ↔
      rows.map Prod.fst = List.range' journal.steps.length rows.length ∧
      (rows = [] ∨ journal.steps.length + rows.length ≤ journal.stepCap) ∧
      journal' = { journal with steps := journal.steps ++ rows.map (decode codec) } := by
  induction rows generalizing journal with
  | nil => simp [Journal.appendRows, eq_comm]
  | cons r rows ih =>
      obtain ⟨index, row⟩ := r
      rw [Journal.appendRows, List.map_cons, List.length_cons, List.range'_succ, List.cons.injEq]
      cases happend : journal.append index .fetch row.digest (row.outcome codec) with
      | ok journal₁ =>
          obtain ⟨rfl, hcap, rfl⟩ := Journal.append_ok happend
          simp only [ih, List.length_append, List.length_singleton, List.append_assoc,
            List.singleton_append, List.map_cons, decode, true_and, reduceCtorEq, false_or]
          refine and_congr_right fun _ => and_congr_left fun _ => ?_
          constructor
          · rintro (rfl | hfit)
            · exact hcap
            · omega
          · intro hfit
            exact Or.inr (by omega)
      | error err =>
          simp only [reduceCtorEq, false_iff]
          rintro ⟨⟨rfl, -⟩, hfit, -⟩
          have hlt : journal.steps.length < journal.stepCap := by
            rcases hfit with hnil | hfit
            · cases hnil
            · omega
          rw [Journal.append_next hlt] at happend
          cases happend

theorem StepLog.load_some {workflow : String} {journal : Journal Value}
    (h : log.load codec workflow = some journal) : log.Dense ∧ log.rows ≠ [] ∧
      log.rows.length ≤ defaultStepCap ∧ journal.workflowId = workflow ∧
      journal.stepCap = defaultStepCap ∧ journal.steps = log.steps codec := by
  obtain ⟨rows, sorted⟩ := log
  cases rows with
  | nil => cases h
  | cons r rows =>
      obtain ⟨index, first⟩ := r
      simp only [StepLog.load, Except.toOption] at h
      split at h
      · rename_i journal' hok
        obtain rfl := Option.some.inj h
        obtain ⟨hdense, hcap, rfl⟩ := Journal.appendRows_ok.mp hok
        refine ⟨by rw [StepLog.Dense, List.range_eq_range']; exact hdense, nofun, ?_, rfl, rfl, ?_⟩
        · simpa [Journal.new] using hcap
        · simp [Journal.new, StepLog.steps]
      · cases h

theorem StepLog.load_dense (hdense : log.Dense) (hne : log.rows ≠ [])
    (hcap : log.rows.length ≤ defaultStepCap) (workflow : String) :
    ∃ buildId, log.load codec workflow =
      some ⟨workflow, buildId, log.steps codec, defaultStepCap⟩ := by
  obtain ⟨rows, sorted⟩ := log
  cases rows with
  | nil => exact absurd rfl hne
  | cons r rows =>
      obtain ⟨index, first⟩ := r
      have hok : (Journal.new workflow first.buildId).appendRows codec ((index, first) :: rows) =
          .ok ⟨workflow, first.buildId, ((index, first) :: rows).map (decode codec),
            defaultStepCap⟩ := by
        refine Journal.appendRows_ok.mpr ⟨?_, Or.inr ?_, ?_⟩
        · rw [StepLog.Dense, List.range_eq_range'] at hdense
          exact hdense
        · simpa [Journal.new] using hcap
        · simp [Journal.new]
      refine ⟨first.buildId, ?_⟩
      simp only [StepLog.load, hok]
      rfl

/-! ### What each statement does to a row -/

theorem StepLog.mem_beginStep {r : ℕ × StepRow} (h : r ∈ log.rows) (buildId : String) (index : ℕ)
    (kind : StepKind) (digest : String) (now : ℤ) :
    r ∈ (log.beginStep buildId index kind digest now).rows := by
  unfold StepLog.beginStep
  split_ifs with hany
  · exact h
  · have hne : r.1 ≠ index := fun heq => hany (List.any_eq_true.mpr ⟨r, h, decide_eq_true heq⟩)
    simp only [List.mem_append, List.mem_cons, List.mem_filter, decide_eq_true_eq]
    rcases Nat.lt_or_gt_of_ne hne with hlt | hgt
    · exact Or.inl ⟨h, hlt⟩
    · exact Or.inr (Or.inr ⟨h, hgt⟩)

theorem StepRow.settle_settled {row : StepRow} (h : row.state ≠ .unknown) (state : StepState)
    (value : String) (now : ℤ) : row.settle state value now = row :=
  if_neg h

theorem StepLog.mem_settleStep (codec : Codec Value) {r : ℕ × StepRow} (h : r ∈ log.rows)
    (hsettled : r.2.state ≠ .unknown) (index : ℕ) (outcome : StepOutcome Value) (now : ℤ) :
    r ∈ (log.settleStep codec index outcome now).rows := by
  have hupdate : ∀ state value,
      r ∈ (log.update index fun row => row.settle state value now).rows := by
    intro state value
    refine List.mem_map.mpr ⟨r, h, ?_⟩
    dsimp only
    rw [StepRow.settle_settled hsettled]
    split_ifs <;> rfl
  cases outcome with
  | completed value => exact hupdate _ _
  | failed message => exact hupdate _ _
  | unknown => exact h

theorem StepLog.mem_sweep {r : ℕ × StepRow} {cutoff : ℤ} :
    r ∈ (log.sweep cutoff).rows ↔ r ∈ log.rows ∧ cutoff ≤ r.2.startedAt := by
  simp [StepLog.sweep]

theorem StepLog.length_steps (codec : Codec Value) (log : StepLog) :
    (log.steps codec).length = log.rows.length :=
  List.length_map _

theorem StepLog.Dense.index (hdense : log.Dense) {k : ℕ} {r : ℕ × StepRow}
    (h : log.rows[k]? = some r) : r.1 = k := by
  have hlt := (List.getElem?_eq_some_iff.mp h).choose
  have hk : (log.rows.map Prod.fst)[k]? = some r.1 := by rw [List.getElem?_map, h]; rfl
  rw [hdense, List.getElem?_range hlt] at hk
  exact (Option.some.inj hk).symm

theorem StepLog.Dense.beginStep_old (hdense : log.Dense) {index : ℕ}
    (hold : index < log.rows.length) (buildId : String) (kind : StepKind) (digest : String)
    (now : ℤ) : log.beginStep buildId index kind digest now = log := by
  have hmem : index ∈ log.rows.map Prod.fst := by
    rw [hdense]
    exact List.mem_range.mpr hold
  obtain ⟨r, hr, hindex⟩ := List.mem_map.mp hmem
  exact if_pos (List.any_eq_true.mpr ⟨r, hr, decide_eq_true hindex⟩)

theorem StepLog.Dense.beginStep_next (hdense : log.Dense) (buildId : String) (kind : StepKind)
    (digest : String) (now : ℤ) :
    (log.beginStep buildId log.rows.length kind digest now).rows = log.rows ++
      [(log.rows.length, ⟨buildId, kind, digest, .unknown, none, now, none⟩)] := by
  have hlt : ∀ r ∈ log.rows, r.1 < log.rows.length := by
    intro r hr
    have hmem := List.mem_map_of_mem (f := Prod.fst) hr
    rw [hdense] at hmem
    exact List.mem_range.mp hmem
  have hnew : log.rows.any (·.1 = log.rows.length) = false := by
    rw [List.any_eq_false]
    exact fun r hr heq => absurd (of_decide_eq_true heq) (Nat.ne_of_lt (hlt r hr))
  have hbelow : log.rows.filter (·.1 < log.rows.length) = log.rows :=
    List.filter_eq_self.mpr fun r hr => decide_eq_true (hlt r hr)
  have habove : log.rows.filter (log.rows.length < ·.1) = [] :=
    List.filter_eq_nil_iff.mpr fun r hr hgt =>
      absurd (of_decide_eq_true hgt) (Nat.not_lt.mpr (Nat.le_of_lt (hlt r hr)))
  unfold StepLog.beginStep
  rw [if_neg (by rw [hnew]; decide)]
  simp only [hbelow, habove]

theorem StepLog.Dense.steps_beginStep (hdense : log.Dense) (buildId digest : String) (now : ℤ) :
    (log.beginStep buildId log.rows.length .fetch digest now).steps codec =
      log.steps codec ++ [⟨log.rows.length, .fetch, digest, .unknown⟩] := by
  rw [StepLog.steps, hdense.beginStep_next, List.map_append]
  rfl

theorem StepLog.getElem?_update (log : StepLog) (index k : ℕ) (f : StepRow → StepRow) :
    (log.update index f).rows[k]? =
      log.rows[k]?.map fun r => if r.1 = index then (r.1, f r.2) else r :=
  List.getElem?_map

theorem StepRow.state_of_outcome {row : StepRow} (h : row.outcome codec = .unknown) :
    row.state = .unknown := by
  unfold StepRow.outcome at h
  split at h
  · cases h
  · cases h
  · assumption

theorem StepRow.outcome_settle {row : StepRow} (h : row.outcome codec = .unknown) :
    (∀ value now, (row.settle .completed (codec.write value) now).outcome codec =
        .completed value) ∧
      ∀ message now, (row.settle .failed message now).outcome codec = .failed message := by
  have hstate := StepRow.state_of_outcome h
  constructor
  · intro value now
    simp [StepRow.settle, hstate, StepRow.outcome, codec.read_write]
  · intro message now
    simp [StepRow.settle, hstate, StepRow.outcome]

theorem StepRow.digest_settle (row : StepRow) (state : StepState) (value : String) (now : ℤ) :
    (row.settle state value now).digest = row.digest := by
  unfold StepRow.settle
  split_ifs <;> rfl

theorem StepLog.Dense.steps_settleStep (hdense : log.Dense) {index : ℕ} {step : Step Value}
    (hstep : (log.steps codec)[index]? = some step) (hunknown : step.outcome = .unknown)
    {outcome : StepOutcome Value} (hanswer : outcome ≠ .unknown) (now : ℤ) :
    (log.settleStep codec index outcome now).steps codec =
      (log.steps codec).set index { step with outcome } := by
  rw [StepLog.steps, List.getElem?_map, Option.map_eq_some_iff] at hstep
  obtain ⟨r, hr, rfl⟩ := hstep
  obtain ⟨hcompleted, hfailed⟩ := StepRow.outcome_settle hunknown
  have hupdate : ∀ state value, (∀ now, (r.2.settle state value now).outcome codec = outcome) →
      (log.update index fun row => row.settle state value now).steps codec =
        (log.steps codec).set index { decode codec r with outcome } := by
    intro state value houtcome
    refine List.ext_getElem? fun k => ?_
    rw [StepLog.steps, List.getElem?_map, StepLog.getElem?_update, List.getElem?_set,
      StepLog.length_steps, StepLog.steps, List.getElem?_map]
    split_ifs with hk hlt
    · subst hk
      rw [hr]
      simp only [Option.map_some, hdense.index hr, if_true, decode, houtcome,
        StepRow.digest_settle]
    · subst hk
      rw [List.getElem?_eq_none (Nat.not_lt.mp hlt)]
      rfl
    · cases hother : log.rows[k]? with
      | none => rfl
      | some r' =>
          have hne : r'.1 ≠ index := by
            rw [hdense.index hother]
            exact fun heq => hk heq.symm
          simp only [Option.map_some, if_neg hne]
  cases outcome with
  | completed value => exact hupdate _ _ (hcompleted value)
  | failed message => exact hupdate _ _ (hfailed message)
  | unknown => exact absurd rfl hanswer

end Steps

end Albedo.Aperture
