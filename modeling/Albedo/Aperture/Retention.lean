import Mathlib.Logic.Function.Basic
import Mathlib.Logic.Relation
import Albedo.Aperture.Workflow

/-!
# The durable log and the journal

Runs resolve what their passes ask for, die, and are resumed from the log, while a sweep
deletes the steps that were begun too long ago. The log reads back as the journal of the run
that last resolved, as long as a sweep takes a workflow's steps together.
-/
namespace Albedo.Aperture

variable {Value : Type}

structure Server (Value : Type) where
  ledger : String → StepLog
  live : String → Option (Journal Value)
  /-- The journal of the run that last completed a resolve. No run reads it. -/
  last : String → Option (List (Step Value))

def Server.empty : Server Value := ⟨fun _ => .empty, fun _ => none, fun _ => none⟩

def Server.setLive (server : Server Value) (workflow : String) (run : Option (Journal Value)) :
    Server Value :=
  { server with live := Function.update server.live workflow run }

def Server.resolved (server : Server Value) (workflow : String) (log : StepLog)
    (journal : Journal Value) : Server Value where
  ledger := Function.update server.ledger workflow log
  live := Function.update server.live workflow (some journal)
  last := Function.update server.last workflow (some journal.steps)

def Server.swept (server : Server Value) (cutoff : ℤ) : Server Value :=
  { server with ledger := fun workflow => (server.ledger workflow).sweep cutoff }

inductive ServerEvent (Value : Type) where
  | start (workflow buildId : String)
  | crash (workflow : String)
  | resolve (workflow buildId : String) (started : ℤ) (calls : List (Call Value))
  | sweep (cutoff : ℤ)

/-- One step of a server. A workflow has one run at a time, which picks its log up or starts
over, and goes on only under the build it was started by. -/
inductive ServerStep (codec : Codec Value) : ServerEvent Value → Server Value → Server Value → Prop
    where
  | start {server : Server Value} {workflow : String} (buildId : String)
      (hidle : server.live workflow = none) :
      ServerStep codec (.start workflow buildId) server
        (server.setLive workflow (some (((server.ledger workflow).load codec workflow).getD
          (Journal.new workflow buildId))))
  | crash {server : Server Value} (workflow : String) :
      ServerStep codec (.crash workflow) server (server.setLive workflow none)
  | resolve {server : Server Value} {workflow buildId : String} {started : ℤ}
      {calls : List (Call Value)} {log : StepLog} {journal journal' : Journal Value}
      (hlive : server.live workflow = some journal) (hbuild : journal.buildId = buildId)
      (hok : resolvePending codec (server.ledger workflow) journal buildId started calls =
        (log, .ok journal')) :
      ServerStep codec (.resolve workflow buildId started calls) server
        (server.resolved workflow log journal')
  | sweep {server : Server Value} (cutoff : ℤ) :
      ServerStep codec (.sweep cutoff) server (server.swept cutoff)

abbrev ServerReaches (codec : Codec Value) (Meets : ServerEvent Value → Server Value → Prop) :
    Server Value → Server Value → Prop :=
  Relation.ReflTransGen fun server server' =>
    ∃ event, ServerStep codec event server server' ∧ Meets event server

/-! ### Answers -/

variable {codec : Codec Value} {event : ServerEvent Value} {server server' : Server Value}

theorem mem_settleCalls {r : ℕ × StepRow} (hsettled : r.2.state ≠ .unknown) {log : StepLog}
    (h : r ∈ log.rows) (journal : Journal Value) (calls : List (Call Value)) :
    r ∈ (settleCalls codec log journal calls).1.rows := by
  induction calls generalizing log journal with
  | nil => exact h
  | cons call calls ih =>
      have hcall := StepLog.mem_settleStep codec h hsettled call.request.step
        call.outcome call.now
      rw [settleCalls]
      cases journal.settleCall call with
      | ok journal => exact ih hcall journal
      | error err => exact hcall

theorem mem_resolvePending (codec : Codec Value) {r : ℕ × StepRow} (hsettled : r.2.state ≠ .unknown) {log : StepLog}
    (h : r ∈ log.rows) (journal : Journal Value) (buildId : String) (started : ℤ)
    (calls : List (Call Value)) :
    r ∈ (resolvePending codec log journal buildId started calls).1.rows := by
  refine mem_settleCalls hsettled ?_ journal calls
  generalize calls.map Call.request = pending
  induction pending generalizing log with
  | nil => exact h
  | cons staged pending ih => exact ih (StepLog.mem_beginStep h _ _ _ _ _)

theorem ServerStep.settled (hstep : ServerStep codec event server server') {workflow : String}
    {r : ℕ × StepRow} (h : r ∈ (server.ledger workflow).rows) (hsettled : r.2.state ≠ .unknown) :
    r ∈ (server'.ledger workflow).rows ∨
      ∃ cutoff, event = .sweep cutoff ∧ r.2.startedAt < cutoff := by
  cases hstep with
  | start buildId hidle => exact Or.inl h
  | crash workflow => exact Or.inl h
  | @resolve _ own buildId started calls log journal journal' hlive hbuild hok =>
      refine Or.inl ?_
      simp only [Server.resolved, Function.update_apply]
      split_ifs with hown
      · subst hown
        have hkept := mem_resolvePending codec hsettled h journal buildId started calls
        rwa [hok] at hkept
      · exact h
  | sweep cutoff =>
      by_cases hold : cutoff ≤ r.2.startedAt
      · exact Or.inl (StepLog.mem_sweep.mpr ⟨h, hold⟩)
      · exact Or.inr ⟨cutoff, rfl, Int.not_le.mp hold⟩

/-! ### Logs that are swept whole -/

/-- A sweep takes the steps of a workflow together or not at all, and a run whose log was
swept does not go on with the steps it remembers. -/
def SweepsWhole : ServerEvent Value → Server Value → Prop
  | .sweep cutoff, server => ∀ workflow,
      (∀ r ∈ (server.ledger workflow).rows, cutoff ≤ r.2.startedAt) ∨
        ∀ r ∈ (server.ledger workflow).rows, r.2.startedAt < cutoff
  | .resolve workflow _ _ _, server => ∀ journal, server.live workflow = some journal →
      (server.ledger workflow).rows = [] → journal.steps = []
  | _, _ => True

/-- The log of a workflow is empty, or the journal of the run that last resolved, and so is
what a live run remembers. -/
structure Mirrored (codec : Codec Value) (server : Server Value) (workflow : String) : Prop where
  dense : (server.ledger workflow).Dense
  fits : (server.ledger workflow).rows.length ≤ defaultStepCap
  last : (server.ledger workflow).rows = [] ∨
    server.last workflow = some ((server.ledger workflow).steps codec)
  live : ∀ journal, server.live workflow = some journal → journal.stepCap = defaultStepCap ∧
    ((server.ledger workflow).rows = [] ∨ journal.steps = (server.ledger workflow).steps codec)

theorem Mirrored.empty (workflow : String) : Mirrored codec (.empty : Server Value) workflow := by
  refine ⟨rfl, Nat.zero_le _, Or.inl rfl, fun journal hlive => ?_⟩
  cases hlive

variable {workflow : String}

theorem Mirrored.load (h : Mirrored codec server workflow)
    (hne : (server.ledger workflow).rows ≠ []) : ∃ buildId,
      (server.ledger workflow).load codec workflow =
        some ⟨workflow, buildId, (server.ledger workflow).steps codec, defaultStepCap⟩ :=
  StepLog.load_dense h.dense hne h.fits workflow

theorem Mirrored.of_log (h : Mirrored codec server workflow) {server' : Server Value}
    (hledger : server'.ledger workflow = server.ledger workflow)
    (hlast : server'.last workflow = server.last workflow)
    (hlive : ∀ journal, server'.live workflow = some journal → journal.stepCap = defaultStepCap ∧
      ((server.ledger workflow).rows = [] ∨
        journal.steps = (server.ledger workflow).steps codec)) :
    Mirrored codec server' workflow := by
  refine ⟨hledger ▸ h.dense, hledger ▸ h.fits, ?_, ?_⟩
  · rw [hledger, hlast]
    exact h.last
  · rw [hledger]
    exact hlive

theorem Mirrored.start (h : Mirrored codec server workflow) (own buildId : String) :
    Mirrored codec (server.setLive own (some (((server.ledger own).load codec own).getD
      (Journal.new own buildId)))) workflow := by
  refine h.of_log rfl rfl fun journal hlive => ?_
  simp only [Server.setLive, Function.update_apply] at hlive
  split_ifs at hlive with hown
  · subst hown
    obtain rfl := Option.some.inj hlive
    by_cases hrows : (server.ledger workflow).rows = []
    · have hnone : (server.ledger workflow).load codec workflow = none := by
        rw [StepLog.load, hrows]
      rw [hnone]
      exact ⟨rfl, Or.inl hrows⟩
    · obtain ⟨buildId', hload⟩ := h.load hrows
      rw [hload]
      exact ⟨rfl, Or.inr rfl⟩
  · exact h.live journal hlive

theorem Mirrored.crash (h : Mirrored codec server workflow) (own : String) :
    Mirrored codec (server.setLive own none) workflow := by
  refine h.of_log rfl rfl fun journal hlive => ?_
  simp only [Server.setLive, Function.update_apply] at hlive
  split_ifs at hlive
  exact h.live journal hlive

theorem Mirrored.resolve (h : Mirrored codec server workflow) {own buildId : String} {started : ℤ}
    {calls : List (Call Value)} {log : StepLog} {journal journal' : Journal Value}
    (hlive : server.live own = some journal)
    (hwhole : (server.ledger own).rows = [] → journal.steps = [])
    (hok : resolvePending codec (server.ledger own) journal buildId started calls =
      (log, .ok journal')) : Mirrored codec (server.resolved own log journal') workflow := by
  by_cases hown : workflow = own
  · subst hown
    obtain ⟨hcap, hsteps⟩ := h.live journal hlive
    have hagree : (server.ledger workflow).steps codec = journal.steps := by
      rcases hsteps with hrows | hsteps
      · rw [hwhole hrows, StepLog.steps, hrows]
        rfl
      · exact hsteps.symm
    have hnumbered : Numbered journal.steps := hagree ▸ (StepLog.numbered_steps codec).mpr h.dense
    obtain ⟨hnumbered', hsteps', hcontinues⟩ := resolvePending_agree hnumbered hagree hok
    have hfits : journal'.steps.length ≤ defaultStepCap := by
      rw [← hcap]
      refine hcontinues.fits ?_
      rw [hcap, ← hagree, StepLog.length_steps]
      exact h.fits
    have hledger : (server.resolved workflow log journal').ledger workflow = log :=
      Function.update_self _ _ _
    constructor
    · rw [hledger, ← StepLog.numbered_steps codec, hsteps']
      exact hnumbered'
    · rwa [hledger, ← StepLog.length_steps codec, hsteps']
    · rw [hledger, hsteps']
      exact Or.inr (Function.update_self _ _ _)
    · intro run hrun
      simp only [Server.resolved, Function.update_self] at hrun
      obtain rfl := Option.some.inj hrun
      rw [hledger, hsteps']
      exact ⟨hcontinues.stepCap.trans hcap, Or.inr rfl⟩
  · refine h.of_log (Function.update_of_ne hown _ _) (Function.update_of_ne hown _ _)
      fun run hrun => h.live run ?_
    simpa only [Server.resolved, Function.update_of_ne hown] using hrun

theorem Mirrored.sweep (h : Mirrored codec server workflow) {cutoff : ℤ}
    (hwhole : (∀ r ∈ (server.ledger workflow).rows, cutoff ≤ r.2.startedAt) ∨
      ∀ r ∈ (server.ledger workflow).rows, r.2.startedAt < cutoff) :
    Mirrored codec (server.swept cutoff) workflow := by
  rcases hwhole with hkept | hgone
  · have hsame : (server.ledger workflow).sweep cutoff = server.ledger workflow :=
      StepLog.ext (List.filter_eq_self.mpr fun r hr => decide_eq_true (hkept r hr))
    exact h.of_log hsame rfl h.live
  · have hrows : ((server.swept cutoff).ledger workflow).rows = [] :=
      List.filter_eq_nil_iff.mpr fun r hr hkept =>
        absurd (of_decide_eq_true hkept) (Int.not_le.mpr (hgone r hr))
    refine ⟨?_, ?_, Or.inl hrows, fun journal hlive => ⟨(h.live journal hlive).1, Or.inl hrows⟩⟩
    · rw [StepLog.Dense, hrows]
      rfl
    · rw [hrows]
      exact Nat.zero_le _

theorem Mirrored.step (h : Mirrored codec server workflow)
    (hstep : ServerStep codec event server server') (hmeets : SweepsWhole event server) :
    Mirrored codec server' workflow := by
  cases hstep with
  | start buildId hidle => exact h.start _ buildId
  | crash own => exact h.crash own
  | resolve hlive hbuild hok =>
      exact h.resolve hlive (fun hrows => hmeets _ hlive hrows) hok
  | sweep cutoff => exact h.sweep (hmeets workflow)

theorem ServerReaches.mirrored (hrun : ServerReaches codec SweepsWhole .empty server)
    (workflow : String) : Mirrored codec server workflow := by
  induction hrun with
  | refl => exact .empty workflow
  | tail _ hnext ih =>
      obtain ⟨event, hstep, hmeets⟩ := hnext
      exact ih.step hstep hmeets

/-- Whatever loads is the journal of the run that last resolved, and a log that is there
loads. -/
def Server.LoadsLast (codec : Codec Value) (server : Server Value) : Prop :=
  ∀ workflow, (∀ journal, (server.ledger workflow).load codec workflow = some journal →
      server.last workflow = some journal.steps) ∧
    ((server.ledger workflow).rows ≠ [] → ((server.ledger workflow).load codec workflow).isSome)

theorem Server.LoadsLast.last (h : server.LoadsLast codec) {steps : List (Step Value)}
    (hload : ((server.ledger workflow).load codec workflow).map Journal.steps = some steps) :
    server.last workflow = some steps := by
  obtain ⟨journal, hjournal, rfl⟩ := Option.map_eq_some_iff.mp hload
  exact (h workflow).1 journal hjournal

/-- In a run whose sweeps take the steps of a workflow together, and in which no run goes on
with steps that were swept, the log reads back as the journal of the run that last resolved,
a log that is there is usable, and no step changes an answer until it is swept. -/
theorem loadsLast_of_sweepsWhole (hrun : ServerReaches codec SweepsWhole .empty server) :
    server.LoadsLast codec ∧ ∀ event server', ServerStep codec event server server' →
      ∀ workflow, ∀ r ∈ (server.ledger workflow).rows, r.2.state ≠ .unknown →
        r ∈ (server'.ledger workflow).rows ∨
          ∃ cutoff, event = .sweep cutoff ∧ r.2.startedAt < cutoff := by
  refine ⟨fun workflow => ?_, fun event server' hstep workflow r hr hsettled =>
    hstep.settled hr hsettled⟩
  have hmirrored := hrun.mirrored workflow
  constructor
  · intro journal hload
    obtain ⟨-, hne, -, -, -, hsteps⟩ := StepLog.load_some hload
    rw [hsteps]
    exact hmirrored.last.resolve_left hne
  · intro hne
    obtain ⟨buildId, hload⟩ := hmirrored.load hne
    rw [hload]
    rfl

/-! ### A charge and its receipt -/

/-- Responses that are `null`, `true` or `false`. -/
def flags : Codec (Option Bool) where
  write
    | none => "null"
    | some true => "true"
    | some false => "false"
  read text :=
    if text = "true" then some (some true) else if text = "false" then some (some false)
    else if text = "null" then some none else none
  null := none
  read_write := by
    rintro (_ | _ | _) <;> decide

def charge (answer : Bool) (now : ℤ) : Call (Option Bool) :=
  ⟨⟨0, "POST", "https://pay.example/charges", some "10", [], "c0"⟩, .ok (some answer), now⟩

def receipt (now : ℤ) : Call (Option Bool) :=
  ⟨⟨1, "POST", "https://mail.example/send", some "paid", [], "c1"⟩, .ok (some true), now⟩

theorem ServerReaches.next {Meets : ServerEvent Value → Server Value → Prop}
    (hrun : ServerReaches codec Meets .empty server) (event : ServerEvent Value)
    (hstep : ServerStep codec event server server') (hmeets : Meets event server) :
    ServerReaches codec Meets .empty server' :=
  hrun.tail ⟨event, hstep, hmeets⟩

/-- A charge that was answered before its process died. -/
theorem loadsLast_of_sweepsWhole_charge : ∃ server : Server (Option Bool),
    ServerReaches flags SweepsWhole .empty server ∧
      ((server.ledger "w").load flags "w").map Journal.steps =
        some [⟨0, .fetch, "c0", .completed (some true)⟩] ∧ server.LoadsLast flags := by
  have hstart : ServerReaches flags SweepsWhole .empty _ :=
    ServerReaches.next .refl (.start "w" "b") (.start "b" rfl) trivial
  have hcharge : ServerReaches flags SweepsWhole .empty _ :=
    hstart.next (.resolve "w" "b" 10 [charge true 12]) (.resolve rfl rfl rfl)
      fun journal hlive _ => by cases hlive; rfl
  have hcrash := hcharge.next (.crash "w") (.crash "w") trivial
  exact ⟨_, hcrash, by decide +kernel, (loadsLast_of_sweepsWhole hcrash).1⟩

/-- A sweep that takes the charge and leaves the receipt makes a log that is there unusable;
the run that starts over is answered anew, and the receipt of the first run follows. -/
theorem swept_charge_is_unusable :
    (∃ server : Server (Option Bool), ServerReaches flags (fun _ _ => True) .empty server ∧
      (server.ledger "w").rows ≠ [] ∧ (server.ledger "w").load flags "w" = none ∧
      ¬ server.LoadsLast flags) ∧
    ∃ server : Server (Option Bool), ServerReaches flags (fun _ _ => True) .empty server ∧
      server.last "w" = some [⟨0, .fetch, "c0", .completed (some false)⟩] ∧
      ((server.ledger "w").load flags "w").map Journal.steps =
        some [⟨0, .fetch, "c0", .completed (some false)⟩,
          ⟨1, .fetch, "c1", .completed (some true)⟩] ∧ ¬ server.LoadsLast flags := by
  have hstart : ServerReaches flags (fun _ _ => True) .empty _ :=
    ServerReaches.next .refl (.start "w" "b") (.start "b" rfl) trivial
  have hcharge : ServerReaches flags (fun _ _ => True) .empty _ :=
    hstart.next (.resolve "w" "b" 10 [charge true 12]) (.resolve rfl rfl rfl) trivial
  have hreceipt : ServerReaches flags (fun _ _ => True) .empty _ :=
    hcharge.next (.resolve "w" "b" 20 [receipt 22]) (.resolve rfl rfl rfl) trivial
  have hcrash := hreceipt.next (.crash "w") (.crash "w") trivial
  have hsweep := hcrash.next (.sweep 15) (.sweep 15) trivial
  have hrestart : ServerReaches flags (fun _ _ => True) .empty _ :=
    hsweep.next (.start "w" "b") (.start "b" rfl) trivial
  have hagain : ServerReaches flags (fun _ _ => True) .empty _ :=
    hrestart.next (.resolve "w" "b" 30 [charge false 32]) (.resolve rfl rfl rfl) trivial
  constructor
  · refine ⟨_, hsweep, by decide +kernel, by rfl, fun hloads => ?_⟩
    exact absurd ((hloads "w").2 (by decide +kernel)) (by decide +kernel)
  · refine ⟨_, hagain, by decide +kernel, by decide +kernel, fun hloads => ?_⟩
    have hlast := @Server.LoadsLast.last _ flags _ "w" hloads
      [⟨0, .fetch, "c0", .completed (some false)⟩, ⟨1, .fetch, "c1", .completed (some true)⟩]
      (by decide +kernel)
    exact absurd hlast (by decide +kernel)

end Albedo.Aperture
