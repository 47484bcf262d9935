import Mathlib.Data.List.AList
import Albedo.Library.Fallible
import Albedo.Shutter.Gcra

/-!
# The limiter

The table keeps one exact cell for each key up to a capacity, and shared overflow
cells addressed by hash beyond it. Each public call is one atomic step: it reads
the clock, may drop replenished cells to make room, and runs the cell operation.
The hash keys are drawn once for each process, so the slot of a key is a field.

The debt of a key lives in whichever cell served it last. `Shutter.Covered` says
that this cell is at least as indebted as a cell charged with nothing but the
key's own admitted charges, and it survives every step except one: an exact cell
created fresh for a key whose overflow debt is still outstanding.
-/
namespace Albedo.RateLimit

inductive OperationClass where
  | staticRead
  | read
  | write
  | outbound
  | credential
  deriving DecidableEq

def OperationClass.asStr : OperationClass → String
  | .staticRead => "static-read"
  | .read => "read"
  | .write => "write"
  | .outbound => "outbound"
  | .credential => "credential"

def OperationClass.baseWeight : OperationClass → ℕ
  | .staticRead => 1
  | .read => 2
  | .write => 4
  | .outbound => 8
  | .credential => 1

structure Cost where
  cls : OperationClass
  weight : ℕ
  base : ℕ
  fanout : ℕ
  observedSubscribers : ℕ

/-- Blast radius, compressed to the floor of its binary logarithm. -/
def compressFanout (subscribers : ℕ) : ℕ := if subscribers ≤ 1 then 0 else Nat.log2 subscribers

def Cost.flat (cls : OperationClass) : Cost :=
  { cls, weight := cls.baseWeight, base := cls.baseWeight, fanout := 0, observedSubscribers := 0 }

/-- The whole price of a write that reaches `subscribers` lanes. -/
def Cost.fanOut (cls : OperationClass) (subscribers : ℕ) : Cost :=
  let base := cls.baseWeight
  let fanout := compressFanout subscribers
  { cls, weight := min (base + fanout) u32Max, base, fanout, observedSubscribers := subscribers }

/-- The blast-radius half of a write's price, paid after it resolved its channels. -/
def Cost.surcharge (cls : OperationClass) (subscribers : ℕ) : Cost :=
  let fanout := compressFanout subscribers
  { cls, weight := fanout, base := 0, fanout, observedSubscribers := subscribers }

inductive IpAddr where
  | v4 (bits : BitVec 32)
  | v6 (bits : BitVec 128)
  deriving DecidableEq

inductive Key where
  | principal (id : String) (cls : OperationClass)
  | address (addr : IpAddr) (cls : OperationClass)
  | account (subject : String)
  | upstream (host : String)
  deriving DecidableEq

def Key.cls : Key → OperationClass
  | .principal _ cls | .address _ cls => cls
  | .account _ => .credential
  | .upstream _ => .outbound

structure Limits where
  staticRead : Quota
  read : Quota
  write : Quota
  outbound : Quota
  credential : Quota
  account : Quota
  upstream : Quota

def Limits.forKey (l : Limits) : Key → Quota
  | .account _ => l.account
  | .upstream _ => l.upstream
  | .principal _ cls | .address _ cls =>
      match cls with
      | .staticRead => l.staticRead
      | .read => l.read
      | .write => l.write
      | .outbound => l.outbound
      | .credential => l.credential

def expect {ε α : Type} (r : Except ε α) (h : r.toOption.isSome = true) : α := r.toOption.get h

def Limits.default : Limits :=
  let minute := 60000000000
  { staticRead := expect (Quota.withBurst 600 minute 200) (by decide)
    read := expect (Quota.withBurst 300 minute 100) (by decide)
    write := expect (Quota.withBurst 120 minute 60) (by decide)
    outbound := expect (Quota.withBurst 960 minute 80) (by decide)
    credential := expect (Quota.withBurst 10 minute 5) (by decide)
    account := expect (Quota.withBurst 50 (60 * minute) 20) (by decide)
    upstream := expect (Quota.withBurst 600 minute 60) (by decide) }

def Limits.checkAdmitsHeaviest (l : Limits) : Except QuotaError Unit := do
  let fanOutCeiling := compressFanout u32Max
  l.write.checkWeight (min (OperationClass.write.baseWeight + fanOutCeiling) u32Max)
  l.staticRead.checkWeight OperationClass.staticRead.baseWeight
  l.read.checkWeight OperationClass.read.baseWeight
  l.outbound.checkWeight OperationClass.outbound.baseWeight
  l.credential.checkWeight OperationClass.credential.baseWeight

def overflowCells : ℕ := 8192

/-- Cells examined for eviction on an insertion that finds the table full. -/
def evictionSample : ℕ := 32

structure Shutter where
  exact : AList fun _ : Key => Cell
  overflow : Fin overflowCells → Cell
  slot : Key → Fin overflowCells
  capacity : ℕ
  limits : Limits
  upstreamOverrides : AList fun _ : String => Quota
  instances : ℕ
  upstreamShare : Quota
  accountShare : Quota
  degradedDecisions : ℕ

/-- A limiter that is one of `instances` processes serving the same app. -/
def Shutter.partitioned (slot : Key → Fin overflowCells) (limits : Limits)
    (capacity instances : ℕ) : Except QuotaError Shutter := do
  limits.checkAdmitsHeaviest
  let instances := max instances 1
  let upstreamShare ← limits.upstream.partitioned instances
  let accountShare ← limits.account.partitioned instances
  return {
    exact := ∅
    overflow := fun _ => Cell.new
    slot
    capacity := max capacity 1
    limits
    upstreamOverrides := ∅
    instances
    upstreamShare
    accountShare
    degradedDecisions := 0 }

/-- The quota `key` answers to, overrides and the instance split included. -/
def Shutter.quotaFor (sh : Shutter) (key : Key) : Quota :=
  match key with
  | .upstream host => (sh.upstreamOverrides.lookup host).getD sh.upstreamShare
  | .account _ => sh.accountShare
  | _ => sh.limits.forKey key

def Shutter.setUpstreamQuota (sh : Shutter) (host : String) (quota : Quota) :
    Except QuotaError Shutter := do
  let share ← quota.partitioned sh.instances
  return { sh with upstreamOverrides := sh.upstreamOverrides.insert host.toLower share }

/-- What a call reads from outside: the clock when it starts, the clock again if
it evicts, and the order in which the sharded map iterates then. -/
structure Reading where
  now : ℕ
  scanAt : ℕ
  scan : List Key

/-- Drop the cell of `key` if it is replenished at `now`. -/
def removeIfReplenished (now : ℕ) (m : AList fun _ : Key => Cell) (key : Key) :
    AList fun _ : Key => Cell :=
  if (m.lookup key).any (fun cell => cell.isReplenished now) then m.erase key else m

/-- Drop up to `sample` replenished cells. -/
def Shutter.evictSample (sh : Shutter) (r : Reading) (sample : ℕ) : Shutter :=
  let doomed := (r.scan.filter fun key =>
    (sh.exact.lookup key).any (fun cell => cell.isReplenished r.scanAt)).take sample
  { sh with exact := doomed.foldl (removeIfReplenished r.scanAt) sh.exact }

def Shutter.sweep (sh : Shutter) (now : ℕ) : Shutter :=
  { sh with exact := sh.exact.keys.foldl (removeIfReplenished now) sh.exact }

def Shutter.full (sh : Shutter) : Bool := sh.capacity ≤ sh.exact.keys.length

def Shutter.makeRoom (sh : Shutter) (r : Reading) : Shutter :=
  if sh.full then sh.evictSample r evictionSample else sh

/-- Run `f` against the cell for `key`. The flag says whether the cell was a
shared overflow one. -/
def Shutter.withCell {R : Type} (sh : Shutter) (r : Reading) (key : Key) (f : Cell → R × Cell) :
    R × Bool × Shutter :=
  match sh.exact.lookup key with
  | some cell => ((f cell).1, false, { sh with exact := sh.exact.insert key (f cell).2 })
  | none =>
      let sh := sh.makeRoom r
      if sh.full then
        let cell := sh.overflow (sh.slot key)
        ((f cell).1, true,
          { sh with overflow := Function.update sh.overflow (sh.slot key) (f cell).2 })
      else
        ((f Cell.new).1, false, { sh with exact := sh.exact.insert key (f Cell.new).2 })

/-- What the limiter decided, with what a caller needs to answer the request. -/
structure Verdict where
  decision : Decision
  cost : Cost
  limit : ℕ
  degraded : Bool

def Shutter.noteDegraded (sh : Shutter) (degraded : Bool) : Shutter :=
  { sh with degradedDecisions := sh.degradedDecisions + if degraded then 1 else 0 }

def Shutter.charge (sh : Shutter) (r : Reading) (key : Key) (cost : Cost) : Verdict × Shutter :=
  let quota := sh.quotaFor key
  let (decision, degraded, sh) := sh.withCell r key (fun cell => cell.charge quota r.now cost.weight)
  ({ decision, cost, limit := quota.burst, degraded }, sh.noteDegraded degraded)

/-- Record a price that only became knowable after the work was done. -/
def Shutter.debit (sh : Shutter) (r : Reading) (key : Key) (cost : Cost) : Shutter :=
  if cost.weight = 0 then sh
  else
    let quota := sh.quotaFor key
    let (_, degraded, sh) := sh.withCell r key (fun cell => cell.debit quota r.now cost.weight)
    sh.noteDegraded degraded

/-- Would a charge of `weight` be admitted? The cell is created but not charged. -/
def Shutter.peek (sh : Shutter) (r : Reading) (key : Key) (weight : ℕ) : Bool × Bool × Shutter :=
  let quota := sh.quotaFor key
  sh.withCell r key (fun cell => (cell.peek quota r.now weight, cell))

/-! ### One step of the table -/

def Shutter.holding (sh : Shutter) (key : Key) : Cell :=
  (sh.exact.lookup key).getD (sh.overflow (sh.slot key))

/-- Whether a call on `key` would create a fresh exact cell for it. -/
def Shutter.makesFresh (sh : Shutter) (r : Reading) (key : Key) : Bool :=
  (sh.exact.lookup key).isNone && !(sh.makeRoom r).full

theorem removeIfReplenished_lookup (now : ℕ) (m : AList fun _ : Key => Cell) (k key : Key) :
    (removeIfReplenished now m k).lookup key = m.lookup key ∨
      (removeIfReplenished now m k).lookup key = none ∧
        ∃ cell, m.lookup key = some cell ∧ cell.tat ≤ now := by
  unfold removeIfReplenished
  split_ifs with hany
  · by_cases hk : key = k
    · subst hk
      cases hcell : m.lookup key with
      | none => simp [hcell] at hany
      | some cell =>
          refine Or.inr ⟨AList.lookup_erase key m, cell, rfl, ?_⟩
          simpa [hcell, Cell.isReplenished] using hany
    · exact Or.inl (AList.lookup_erase_ne hk)
  · exact Or.inl rfl

theorem foldl_removeIfReplenished (now : ℕ) (keys : List Key) (m : AList fun _ : Key => Cell)
    (key : Key) :
    (keys.foldl (removeIfReplenished now) m).lookup key = m.lookup key ∨
      (keys.foldl (removeIfReplenished now) m).lookup key = none ∧
        ∃ cell, m.lookup key = some cell ∧ cell.tat ≤ now := by
  induction keys generalizing m with
  | nil => exact Or.inl rfl
  | cons k ks ih =>
      rw [List.foldl_cons]
      rcases ih (removeIfReplenished now m k) with hsame | ⟨hnone, cell, hcell, hrep⟩
      · rw [hsame]
        exact removeIfReplenished_lookup now m k key
      · rcases removeIfReplenished_lookup now m k key with hkept | ⟨hgone, _⟩
        · exact Or.inr ⟨hnone, cell, hkept ▸ hcell, hrep⟩
        · rw [hgone] at hcell
          cases hcell

/-- What every table operation leaves alone. -/
def Shutter.SameConfig (sh sh' : Shutter) : Prop :=
  sh'.slot = sh.slot ∧ sh'.limits = sh.limits ∧ sh'.upstreamOverrides = sh.upstreamOverrides ∧
    sh'.upstreamShare = sh.upstreamShare ∧ sh'.accountShare = sh.accountShare

theorem Shutter.SameConfig.quotaFor {sh sh' : Shutter} (h : sh.SameConfig sh') (key : Key) :
    sh'.quotaFor key = sh.quotaFor key := by
  obtain ⟨_, hl, ho, hu, ha⟩ := h
  unfold Shutter.quotaFor
  rw [hl, ho, hu, ha]

theorem Shutter.makeRoom_sameConfig (sh : Shutter) (r : Reading) :
    sh.SameConfig (sh.makeRoom r) := by
  unfold Shutter.makeRoom
  split_ifs <;> exact ⟨rfl, rfl, rfl, rfl, rfl⟩

theorem Shutter.withCell_sameConfig {R : Type} (sh : Shutter) (r : Reading) (key : Key)
    (f : Cell → R × Cell) : sh.SameConfig (sh.withCell r key f).2.2 := by
  unfold Shutter.withCell
  split
  · exact ⟨rfl, rfl, rfl, rfl, rfl⟩
  · dsimp only
    split_ifs <;> exact sh.makeRoom_sameConfig r

theorem Shutter.makeRoom_cases (sh : Shutter) (r : Reading) (key : Key) :
    (sh.makeRoom r).overflow = sh.overflow ∧
      ((sh.makeRoom r).exact.lookup key = sh.exact.lookup key ∨
        (sh.makeRoom r).exact.lookup key = none ∧
          ∃ cell, sh.exact.lookup key = some cell ∧ cell.tat ≤ r.scanAt) := by
  unfold Shutter.makeRoom
  split_ifs
  · exact ⟨rfl, foldl_removeIfReplenished r.scanAt _ sh.exact key⟩
  · exact ⟨rfl, Or.inl rfl⟩

/-- A call on a key runs on the cell that holds its debt, or on a fresh one, and
that cell's successor holds the debt afterwards. -/
theorem Shutter.withCell_self {R : Type} (sh : Shutter) (r : Reading) (key : Key)
    (f : Cell → R × Cell) :
    ∃ cell, (cell = sh.holding key ∨ cell = Cell.new ∧ sh.makesFresh r key = true) ∧
      (sh.withCell r key f).1 = (f cell).1 ∧
      (sh.withCell r key f).2.2.holding key = (f cell).2 := by
  unfold Shutter.withCell
  cases hl : sh.exact.lookup key with
  | some cell =>
      refine ⟨cell, Or.inl (by simp [Shutter.holding, hl]), rfl, ?_⟩
      simp [Shutter.holding, AList.lookup_insert]
  | none =>
      obtain ⟨hover, hlook⟩ := sh.makeRoom_cases r key
      have hnone : (sh.makeRoom r).exact.lookup key = none := by
        rcases hlook with h | ⟨h, _⟩
        · rw [h, hl]
        · exact h
      have hslot : (sh.makeRoom r).slot = sh.slot := (sh.makeRoom_sameConfig r).1
      by_cases hfull : (sh.makeRoom r).full = true
      · refine ⟨sh.holding key, Or.inl rfl, ?_, ?_⟩
        · simp [hfull, Shutter.holding, hl, hover, hslot]
        · simp [hfull, Shutter.holding, hl, hnone, hover, hslot]
      · refine ⟨Cell.new, Or.inr ⟨rfl, ?_⟩, ?_, ?_⟩
        · simpa [Shutter.makesFresh, hl] using hfull
        · simp [hfull]
        · simp [hfull, Shutter.holding, AList.lookup_insert]

/-- A call on another key drops this key's cell only when it is replenished, and
otherwise leaves it no less indebted than it was. -/
theorem Shutter.withCell_other {R : Type} (sh : Shutter) (r : Reading) {key other : Key}
    (hne : other ≠ key) (f : Cell → R × Cell) (hf : ∀ cell, cell.tat ≤ (f cell).2.tat) :
    (sh.holding other).tat ≤ max ((sh.withCell r key f).2.2.holding other).tat r.scanAt := by
  unfold Shutter.withCell
  cases hl : sh.exact.lookup key with
  | some cell => simp [Shutter.holding, AList.lookup_insert_ne hne]
  | none =>
      obtain ⟨hover, hlook⟩ := sh.makeRoom_cases r other
      have hslot : (sh.makeRoom r).slot = sh.slot := (sh.makeRoom_sameConfig r).1
      have hroom : (sh.holding other).tat ≤ max ((sh.makeRoom r).holding other).tat r.scanAt := by
        unfold Shutter.holding
        rcases hlook with h | ⟨_, cell, hcell, hrep⟩
        · rw [h, hover, hslot]
          exact le_max_left _ _
        · rw [hcell]
          exact le_max_of_le_right hrep
      by_cases hfull : (sh.makeRoom r).full = true
      · refine hroom.trans (max_le_max_right _ ?_)
        simp only [hfull, if_true, Shutter.holding]
        cases hlo : (sh.makeRoom r).exact.lookup other with
        | some cell => exact le_rfl
        | none =>
            simp only [Option.getD_none, Function.update_apply]
            split_ifs with hs
            · rw [hs]
              exact hf _
            · exact le_rfl
      · simpa [hfull, Shutter.holding, AList.lookup_insert_ne hne] using hroom

/-! ### Runs of the table -/

inductive Op where
  | charge (key : Key) (cost : Cost)
  | debit (key : Key) (cost : Cost)
  | peek (key : Key) (weight : ℕ)
  | sweep
  | evict (sample : ℕ)

structure Event where
  reading : Reading
  op : Op

def Shutter.step (sh : Shutter) (e : Event) : Shutter :=
  match e.op with
  | .charge key cost => (sh.charge e.reading key cost).2
  | .debit key cost => sh.debit e.reading key cost
  | .peek key weight => (sh.peek e.reading key weight).2.2
  | .sweep => sh.sweep e.reading.scanAt
  | .evict sample => sh.evictSample e.reading sample

/-- The charge of `key` the event gets admitted, if it does. -/
def Shutter.admits (sh : Shutter) (key : Key) (e : Event) : Option Charge :=
  match e.op with
  | .charge k cost =>
      if k = key ∧ (sh.charge e.reading k cost).1.decision.isAdmitted = true then
        some ⟨e.reading.now, cost.weight⟩
      else none
  | _ => none

/-- The charges of `key` a run gets admitted, in order. -/
def Shutter.admittedTo (key : Key) : Shutter → List Event → List Charge
  | _, [] => []
  | sh, e :: es => (sh.admits key e).toList ++ Shutter.admittedTo key (sh.step e) es

/-- The clock never goes backwards, within a call or between two of them. -/
def Clocked : ℕ → List Event → Prop
  | _, [] => True
  | last, e :: es =>
      last ≤ e.reading.now ∧ e.reading.now ≤ e.reading.scanAt ∧ Clocked e.reading.scanAt es

instance Clocked.decidable : ∀ (last : ℕ) (es : List Event), Decidable (Clocked last es)
  | _, [] => isTrue trivial
  | last, e :: es =>
      have := Clocked.decidable e.reading.scanAt es
      inferInstanceAs (Decidable (last ≤ e.reading.now ∧ e.reading.now ≤ e.reading.scanAt ∧ _))

/-- Whether the event runs a cell operation on `key`. -/
def Event.serves (e : Event) (key : Key) : Bool :=
  match e.op with
  | .charge k _ | .peek k _ => k = key
  | .debit k cost => k = key ∧ cost.weight ≠ 0
  | _ => false

def Cell.follow (own : Cell) (q : Quota) : Option Charge → Cell
  | none => own
  | some x => (own.charge q x.now x.weight).2

/-- Whenever a call gives `key` a fresh exact cell, the charges it was admitted
so far have drained: a cell of its own is replenished at that instant. -/
def Shutter.DrainedWhenFresh (key : Key) : Cell → Shutter → List Event → Prop
  | _, _, [] => True
  | own, sh, e :: es =>
      (e.serves key = true → sh.makesFresh e.reading key = true →
        own.isReplenished e.reading.now = true) ∧
      Shutter.DrainedWhenFresh key (own.follow (sh.quotaFor key) (sh.admits key e)) (sh.step e) es

instance Shutter.DrainedWhenFresh.decidable (key : Key) : ∀ (own : Cell) (sh : Shutter)
    (es : List Event), Decidable (Shutter.DrainedWhenFresh key own sh es)
  | _, _, [] => isTrue trivial
  | own, sh, e :: es =>
      have := Shutter.DrainedWhenFresh.decidable key
        (own.follow (sh.quotaFor key) (sh.admits key e)) (sh.step e) es
      inferInstanceAs (Decidable ((e.serves key = true → sh.makesFresh e.reading key = true →
        own.isReplenished e.reading.now = true) ∧ _))

/-- The cell that holds the key's debt is at least as indebted as the key's own. -/
def Shutter.Covered (sh : Shutter) (key : Key) (own : Cell) (last : ℕ) : Prop :=
  own.tat ≤ max (sh.holding key).tat last

theorem Shutter.step_sameConfig (sh : Shutter) (e : Event) : sh.SameConfig (sh.step e) := by
  obtain ⟨r, op⟩ := e
  cases op with
  | charge key cost => exact sh.withCell_sameConfig r key _
  | debit key cost =>
      simp only [Shutter.step, Shutter.debit]
      split_ifs
      · exact ⟨rfl, rfl, rfl, rfl, rfl⟩
      · exact sh.withCell_sameConfig r key _
  | peek key weight => exact sh.withCell_sameConfig r key _
  | sweep => exact ⟨rfl, rfl, rfl, rfl, rfl⟩
  | evict sample => exact ⟨rfl, rfl, rfl, rfl, rfl⟩

theorem Shutter.Covered.drop {sh : Shutter} {key : Key} {own : Cell} {last now : ℕ}
    (h : sh.Covered key own last) (hlast : last ≤ now) (keys : List Key) :
    Shutter.Covered { sh with exact := keys.foldl (removeIfReplenished now) sh.exact }
      key own now := by
  unfold Shutter.Covered Shutter.holding at *
  dsimp only
  rcases foldl_removeIfReplenished now keys sh.exact key with hsame | ⟨_, cell, hcell, hrep⟩
  · rw [hsame]
    exact h.trans (max_le_max_left _ hlast)
  · rw [hcell, Option.getD_some] at h
    exact h.trans (max_le (hrep.trans (le_max_right _ _)) (hlast.trans (le_max_right _ _)))

/-- A cell operation that forgives nothing keeps the key covered, whichever key
it serves, unless it starts the key on a fresh cell before its debt has drained. -/
theorem Shutter.Covered.withCell {R : Type} {sh : Shutter} {key : Key} {own : Cell} {last : ℕ}
    (h : sh.Covered key own last) (r : Reading) (hlast : last ≤ r.now) (hscan : r.now ≤ r.scanAt)
    (k : Key) (f : Cell → R × Cell) (hf : ∀ cell, cell.tat ≤ (f cell).2.tat)
    (hfresh : k = key → sh.makesFresh r key = true → own.isReplenished r.now = true) :
    (sh.withCell r k f).2.2.Covered key own r.scanAt := by
  unfold Shutter.Covered at *
  by_cases hk : k = key
  · subst hk
    obtain ⟨cell, hcell, _, hafter⟩ := sh.withCell_self r k f
    rw [hafter]
    rcases hcell with rfl | ⟨rfl, hmakes⟩
    · have := hf (sh.holding k)
      omega
    · have hrep : own.tat ≤ r.now := by
        simpa [Cell.isReplenished] using hfresh rfl hmakes
      omega
  · have := sh.withCell_other r (Ne.symm hk) f hf
    omega

/-- An admitted charge of the key moves its own cell no further than the cell
that served it, and its own cell admits the charge too. -/
theorem Shutter.Covered.admitted {sh : Shutter} {key : Key} {own : Cell} {last : ℕ}
    (h : sh.Covered key own last) (r : Reading) (hlast : last ≤ r.now) (cost : Cost)
    (hfresh : sh.makesFresh r key = true → own.isReplenished r.now = true)
    (hadm : (sh.charge r key cost).1.decision.isAdmitted = true) :
    (own.charge (sh.quotaFor key) r.now cost.weight).1.isAdmitted = true ∧
      (sh.charge r key cost).2.Covered key
        (own.charge (sh.quotaFor key) r.now cost.weight).2 r.scanAt := by
  obtain ⟨cell, hcell, hres, hafter⟩ :=
    sh.withCell_self r key (fun cell => cell.charge (sh.quotaFor key) r.now cost.weight)
  have hle : own.tat ≤ max cell.tat r.now := by
    rcases hcell with rfl | ⟨rfl, hmakes⟩
    · exact h.trans (max_le_max_left _ hlast)
    · have hrep : own.tat ≤ r.now := by simpa [Cell.isReplenished] using hfresh hmakes
      exact hrep.trans (le_max_right _ _)
  have hserved : (cell.charge (sh.quotaFor key) r.now cost.weight).1.isAdmitted = true := by
    rw [← hres]
    exact hadm
  obtain ⟨hown, hmono⟩ := Cell.charge_mono hle hserved
  refine ⟨hown, ?_⟩
  unfold Shutter.Covered
  rw [← hafter] at hmono
  exact le_max_of_le_left hmono

theorem Shutter.Covered.step {sh : Shutter} {key : Key} {own : Cell} {last : ℕ}
    (h : sh.Covered key own last) (e : Event) (hlast : last ≤ e.reading.now)
    (hscan : e.reading.now ≤ e.reading.scanAt)
    (hfresh : e.serves key = true → sh.makesFresh e.reading key = true →
      own.isReplenished e.reading.now = true) :
    own.AdmitsAll (sh.quotaFor key) (sh.admits key e).toList ∧
      (sh.step e).Covered key (own.follow (sh.quotaFor key) (sh.admits key e))
        e.reading.scanAt := by
  obtain ⟨r, op⟩ := e
  cases op with
  | charge k cost =>
      by_cases hadm : k = key ∧ (sh.charge r k cost).1.decision.isAdmitted = true
      · obtain ⟨rfl, hok⟩ := hadm
        obtain ⟨hown, hcov⟩ := h.admitted r hlast cost (hfresh (by simp [Event.serves])) hok
        simp only [Shutter.admits, hok, and_self, if_true, Option.toList_some, Cell.AdmitsAll,
          Cell.follow, Shutter.step, and_true]
        exact ⟨hown, hcov⟩
      · simp only [Shutter.admits, hadm, if_false, Option.toList_none, Cell.AdmitsAll,
          Cell.follow, Shutter.step, true_and]
        exact h.withCell r hlast hscan k _ (fun cell => cell.le_charge _ _ _)
          (fun hk => hfresh (by simp [Event.serves, hk]))
  | debit k cost =>
      refine ⟨trivial, ?_⟩
      simp only [Shutter.admits, Cell.follow, Shutter.step, Shutter.debit]
      split_ifs with hw
      · exact h.trans (max_le_max_left _ (hlast.trans hscan))
      · exact h.withCell r hlast hscan k _ (fun cell => cell.le_debit _ _ _)
          (fun hk => hfresh (by simp [Event.serves, hk, hw]))
  | peek k weight =>
      exact ⟨trivial, h.withCell r hlast hscan k _ (fun _ => le_rfl)
        (fun hk => hfresh (by simp [Event.serves, hk]))⟩
  | sweep => exact ⟨trivial, h.drop (hlast.trans hscan) _⟩
  | evict sample => exact ⟨trivial, h.drop (hlast.trans hscan) _⟩

theorem Shutter.Covered.run {sh : Shutter} {key : Key} {own : Cell} {last : ℕ} (es : List Event)
    (h : sh.Covered key own last) (hclock : Clocked last es)
    (hdrained : Shutter.DrainedWhenFresh key own sh es) :
    own.AdmitsAll (sh.quotaFor key) (Shutter.admittedTo key sh es) := by
  induction es generalizing sh own last with
  | nil => trivial
  | cons e es ih =>
      obtain ⟨hlast, hscan, hrest⟩ := hclock
      obtain ⟨hone, hcov⟩ := h.step e hlast hscan hdrained.1
      have htail := ih hcov hrest hdrained.2
      rw [(sh.step_sameConfig e).quotaFor key] at htail
      simp only [Shutter.admittedTo]
      cases hadm : sh.admits key e with
      | none =>
          rw [hadm] at htail
          exact htail
      | some x =>
          rw [hadm] at hone htail
          exact ⟨hone.1, htail⟩

/-- The weight admitted to `key` in the window `[s, s + d]` of the run is at most
what its quota allows for a window of that length. -/
def Shutter.WithinRate (sh : Shutter) (key : Key) (es : List Event) (s d : ℕ) : Prop :=
  (weightIn s (s + d) (Shutter.admittedTo key sh es) : ℚ) ≤
    (sh.quotaFor key).burst + (d : ℚ) / (sh.quotaFor key).emissionInterval

theorem Shutter.admittedTo_now (key : Key) (sh : Shutter) (es : List Event) :
    ∀ x ∈ Shutter.admittedTo key sh es, ∃ e ∈ es, e.serves key = true ∧ x.now = e.reading.now := by
  induction es generalizing sh with
  | nil => simp [Shutter.admittedTo]
  | cons e es ih =>
      intro x hx
      rcases List.mem_append.mp hx with hhead | htail
      · refine ⟨e, by simp, ?_⟩
        obtain ⟨r, op⟩ := e
        cases op with
        | charge k cost =>
            simp only [Shutter.admits] at hhead
            split_ifs at hhead with hadm
            · obtain rfl : x = ⟨r.now, cost.weight⟩ := by simpa using hhead
              exact ⟨by simp [Event.serves, hadm.1], rfl⟩
            · simp at hhead
        | _ => simp [Shutter.admits] at hhead
      · obtain ⟨e', he', hs⟩ := ih (sh.step e) x htail
        exact ⟨e', by simp [he'], hs⟩

/-- A run in which every fresh exact cell comes to a key whose own admitted
charges have drained keeps the key within its rate in every window. The table
the run starts from is arbitrary. -/
theorem withinRate_of_drained (sh : Shutter) (key : Key) (es : List Event) (hclock : Clocked 0 es)
    (hsat : ∀ e ∈ es, e.serves key = true → (sh.quotaFor key).UnsaturatedAt e.reading.now)
    (hdrained : Shutter.DrainedWhenFresh key Cell.new sh es) (s d : ℕ) :
    sh.WithinRate key es s d := by
  have hstart : sh.Covered key Cell.new 0 := Nat.zero_le _
  have hadmits := hstart.run es hclock hdrained
  have hbound := Cell.new.admittedIn_le (sh.quotaFor key) (Shutter.admittedTo key sh es) s d
    (fun x hx => by
      obtain ⟨e, he, hserves, hnow⟩ := Shutter.admittedTo_now key sh es x hx
      exact hnow ▸ hsat e he hserves)
  rw [Cell.admittedIn_of_admitsAll _ _ _ _ _ hadmits] at hbound
  exact hbound

def oneCell : Shutter :=
  expect (Shutter.partitioned (fun _ => ⟨0, by decide⟩) Limits.default 1 1) (by decide)

/-- Logins by principal `id` at `now`. -/
def login (id : String) (now : ℕ) (scan : List Key) : Event :=
  ⟨⟨now, now, scan⟩, .charge (.principal id .credential) (Cost.flat .credential)⟩

/-- Ann takes the only exact cell, Bob spends his burst on the overflow cell, and
once Ann has drained Bob is given an exact cell of his own. -/
def overflowThenExact : List Event :=
  let ann := Key.principal "ann" .credential
  [login "ann" 0 []] ++ List.replicate 5 (login "bob" 0 [ann]) ++
    List.replicate 5 (login "bob" 6000000000 [ann])

theorem withinRate_of_drained_ann :
    oneCell.WithinRate (.principal "ann" .credential) overflowThenExact 0 6000000000 :=
  withinRate_of_drained oneCell (.principal "ann" .credential) overflowThenExact (by decide)
    (by decide) (by decide) 0 6000000000

/-- Six seconds allow Bob a burst of five and one more; he gets ten. -/
theorem overflow_debt_forgiven :
    Clocked 0 overflowThenExact ∧
      (∀ e ∈ overflowThenExact,
        (oneCell.quotaFor (.principal "bob" .credential)).UnsaturatedAt e.reading.now) ∧
      ¬ oneCell.WithinRate (.principal "bob" .credential) overflowThenExact 0 6000000000 := by
  refine ⟨by decide, by decide, ?_⟩
  have hburst : (oneCell.quotaFor (.principal "bob" .credential)).burst = 5 := by decide
  have hemit : (oneCell.quotaFor (.principal "bob" .credential)).emissionInterval = 6000000000 := by
    decide
  have hgot : weightIn 0 (0 + 6000000000)
      (Shutter.admittedTo (.principal "bob" .credential) oneCell overflowThenExact) = 10 := by
    decide
  unfold Shutter.WithinRate
  rw [hburst, hemit, hgot]
  norm_num

/-! ### The room the table takes -/

theorem length_foldl_removeIfReplenished (now : ℕ) (keys : List Key)
    (m : AList fun _ : Key => Cell) :
    (keys.foldl (removeIfReplenished now) m).keys.length ≤ m.keys.length := by
  induction keys generalizing m with
  | nil => exact le_rfl
  | cons key keys ih =>
      refine (ih _).trans ?_
      unfold removeIfReplenished
      split_ifs
      · rw [AList.keys_erase]
        exact List.length_erase_le
      · exact le_rfl

/-- The exact table holds no more keys than its capacity. -/
def Shutter.Within (capacity : ℕ) (sh : Shutter) : Prop :=
  sh.capacity = capacity ∧ sh.exact.keys.length ≤ capacity

theorem Shutter.Within.makeRoom {capacity : ℕ} {sh : Shutter} (h : sh.Within capacity)
    (r : Reading) : (sh.makeRoom r).Within capacity := by
  unfold Shutter.makeRoom
  split_ifs
  · exact ⟨h.1, (length_foldl_removeIfReplenished _ _ _).trans h.2⟩
  · exact h

theorem Shutter.Within.withCell {R : Type} {capacity : ℕ} {sh : Shutter} (h : sh.Within capacity)
    (r : Reading) (key : Key) (f : Cell → R × Cell) : (sh.withCell r key f).2.2.Within capacity := by
  unfold Shutter.withCell
  cases hcell : sh.exact.lookup key with
  | some cell =>
      refine ⟨h.1, le_of_eq_of_le ?_ h.2⟩
      have hmem : key ∈ sh.exact.keys := AList.lookup_isSome.mp (by rw [hcell]; rfl)
      rw [AList.keys_insert, List.length_cons, List.length_erase_add_one hmem]
  | none =>
      have hroom := h.makeRoom r
      by_cases hfull : (sh.makeRoom r).full = true
      · simp only [hfull, if_true]
        exact hroom
      · simp only [hfull]
        refine ⟨hroom.1, ?_⟩
        have hspare : (sh.makeRoom r).exact.keys.length < capacity := by
          simpa [Shutter.full, hroom.1] using hfull
        rw [if_neg Bool.false_ne_true, AList.keys_insert]
        exact (Nat.succ_le_succ List.length_erase_le).trans hspare

theorem Shutter.Within.step {capacity : ℕ} {sh : Shutter} (h : sh.Within capacity) (e : Event) :
    (sh.step e).Within capacity := by
  obtain ⟨r, op⟩ := e
  cases op with
  | charge key cost => exact h.withCell r key _
  | debit key cost =>
      simp only [Shutter.step, Shutter.debit]
      split_ifs
      · exact h
      · exact h.withCell r key _
  | peek key weight => exact h.withCell r key _
  | sweep => exact ⟨h.1, (length_foldl_removeIfReplenished _ _ _).trans h.2⟩
  | evict sample => exact ⟨h.1, (length_foldl_removeIfReplenished _ _ _).trans h.2⟩

theorem partitioned_eq_ok {slot : Key → Fin overflowCells} {limits : Limits}
    {capacity instances : ℕ} {sh : Shutter}
    (h : Shutter.partitioned slot limits capacity instances = .ok sh) :
    limits.checkAdmitsHeaviest = .ok () ∧ sh.exact = ∅ ∧ sh.capacity = max capacity 1 ∧
      sh.limits = limits := by
  unfold Shutter.partitioned at h
  obtain ⟨⟨⟩, hcheck, h⟩ := Fallible.bind_eq_ok.mp h
  obtain ⟨upstream, -, h⟩ := Fallible.bind_eq_ok.mp h
  obtain ⟨account, -, h⟩ := Fallible.bind_eq_ok.mp h
  obtain rfl := Except.ok.inj h
  exact ⟨hcheck, rfl, rfl, rfl⟩

/-- However many keys a run serves, the exact table holds no more of them than its capacity. -/
theorem exact_within_capacity {slot : Key → Fin overflowCells} {limits : Limits}
    {capacity instances : ℕ} {sh : Shutter}
    (h : Shutter.partitioned slot limits capacity instances = .ok sh) (events : List Event) :
    (events.foldl Shutter.step sh).exact.keys.length ≤ max capacity 1 := by
  obtain ⟨-, hexact, hcapacity, -⟩ := partitioned_eq_ok h
  have hwithin : sh.Within (max capacity 1) := ⟨hcapacity, by rw [hexact]; exact Nat.zero_le _⟩
  exact (List.foldlRecOn events Shutter.step hwithin fun _ h e _ => h.step e).2

theorem ok_expect {ε α : Type} (r : Except ε α) (h : r.toOption.isSome = true) :
    r = .ok (expect r h) := by
  cases r with
  | ok value => rfl
  | error err => cases h

theorem oneCell_ok :
    Shutter.partitioned (fun _ => ⟨0, by decide⟩) Limits.default 1 1 = .ok oneCell :=
  ok_expect _ _

theorem exact_within_capacity_one :
    (overflowThenExact.foldl Shutter.step oneCell).exact.keys.length ≤ 1 :=
  exact_within_capacity oneCell_ok overflowThenExact

/-! ### No request is refused for ever -/

/-- The prices of a request of a class: the flat one, and for a write that of its blast radius. -/
inductive OperationClass.Prices : OperationClass → Cost → Prop
  | flat (cls : OperationClass) : Prices cls (Cost.flat cls)
  | fanOut (subscribers : ℕ) (h : subscribers ≤ u32Max) :
      Prices .write (Cost.fanOut .write subscribers)

/-- What a caller or an account is charged. -/
def Key.Prices : Key → Cost → Prop
  | .principal _ cls, cost | .address _ cls, cost => cls.Prices cost
  | .account _, cost => cost = Cost.flat .credential
  | .upstream _, _ => False

theorem checkWeight_eq_ok {q : Quota} {weight : ℕ} (h : q.checkWeight weight = .ok ()) :
    weight ≤ q.burst := by
  unfold Quota.checkWeight at h
  split_ifs at h with hover
  exact not_lt.mp hover

theorem compressFanout_le {subscribers : ℕ} (h : subscribers ≤ u32Max) :
    compressFanout subscribers ≤ compressFanout u32Max := by
  unfold compressFanout
  rw [if_neg (by decide : ¬ u32Max ≤ 1)]
  split_ifs
  · exact Nat.zero_le _
  · have hlog : subscribers.log2 < 32 :=
      (Nat.log2_lt (by omega)).mpr (Nat.lt_of_le_of_lt h (by decide))
    exact (Nat.le_of_lt_succ hlog).trans (by decide)

theorem weight_le_burst {limits : Limits} (h : limits.checkAdmitsHeaviest = .ok ())
    {cls : OperationClass} {cost : Cost} (hcost : cls.Prices cost) (id : String) :
    cost.weight ≤ (limits.forKey (.principal id cls)).burst ∧ 1 ≤ cost.weight := by
  unfold Limits.checkAdmitsHeaviest at h
  obtain ⟨⟨⟩, hwrite, h⟩ := Fallible.bind_eq_ok.mp h
  obtain ⟨⟨⟩, hstatic, h⟩ := Fallible.bind_eq_ok.mp h
  obtain ⟨⟨⟩, hread, h⟩ := Fallible.bind_eq_ok.mp h
  obtain ⟨⟨⟩, houtbound, hcredential⟩ := Fallible.bind_eq_ok.mp h
  have hheaviest := checkWeight_eq_ok hwrite
  cases hcost with
  | flat =>
      cases cls with
      | staticRead => exact ⟨checkWeight_eq_ok hstatic, by decide⟩
      | read => exact ⟨checkWeight_eq_ok hread, by decide⟩
      | write => exact ⟨le_trans (by decide) hheaviest, by decide⟩
      | outbound => exact ⟨checkWeight_eq_ok houtbound, by decide⟩
      | credential => exact ⟨checkWeight_eq_ok hcredential, by decide⟩
  | fanOut subscribers hsubscribers =>
      have hfanout := compressFanout_le hsubscribers
      have hmono := min_le_min_right u32Max (Nat.add_le_add_left hfanout OperationClass.write.baseWeight)
      refine ⟨hmono.trans hheaviest, le_min ?_ (by decide)⟩
      exact (by decide : 1 ≤ OperationClass.write.baseWeight).trans (Nat.le_add_right _ _)

/-- A cell without debt admits whatever is no heavier than the burst. -/
theorem Cell.admits_of_settled {c : Cell} {q : Quota} {now weight : ℕ} (hsettled : c.tat ≤ now)
    (hweight : max weight 1 ≤ q.burst) : (c.charge q now weight).1.isAdmitted = true := by
  rw [Cell.charge_isAdmitted_iff, Nat.sub_eq_zero_of_le hsettled, saturatingAdd, Nat.zero_add,
    q.tolerance_eq]
  exact (min_le_left _ _).trans (min_le_min_right _ (Nat.mul_le_mul_left _ hweight))

theorem Shutter.quotaFor_run (events : List Event) (sh : Shutter) (key : Key) :
    (events.foldl Shutter.step sh).quotaFor key = sh.quotaFor key := by
  induction events generalizing sh with
  | nil => rfl
  | cons e events ih => exact (ih _).trans ((sh.step_sameConfig e).quotaFor key)

/-- After any run, a caller or an account whose debt has drained is admitted, whatever the request
is priced. -/
theorem settled_is_admitted {slot : Key → Fin overflowCells} {limits : Limits}
    {capacity instances : ℕ} {sh : Shutter}
    (h : Shutter.partitioned slot limits capacity instances = .ok sh) (events : List Event)
    {key : Key} {cost : Cost} (hcost : key.Prices cost) (r : Reading)
    (hsettled : ((events.foldl Shutter.step sh).holding key).tat ≤ r.now) :
    ((events.foldl Shutter.step sh).charge r key cost).1.decision.isAdmitted = true := by
  obtain ⟨hcheck, -, -, hlimits⟩ := partitioned_eq_ok h
  have hweight : max cost.weight 1 ≤ (sh.quotaFor key).burst := by
    cases key with
    | principal id cls | address id cls =>
        obtain ⟨hle, hpos⟩ := weight_le_burst hcheck hcost ""
        change max cost.weight 1 ≤ (sh.limits.forKey _).burst
        rw [max_eq_left hpos, hlimits]
        exact hle
    | account subject =>
        obtain rfl := hcost
        exact (sh.quotaFor _).burst_pos
    | upstream host => exact hcost.elim
  obtain ⟨cell, hcell, hdecision, -⟩ := (events.foldl Shutter.step sh).withCell_self r key fun cell =>
    cell.charge ((events.foldl Shutter.step sh).quotaFor key) r.now cost.weight
  have hdrained : cell.tat ≤ r.now := by
    rcases hcell with rfl | ⟨rfl, -⟩
    · exact hsettled
    · exact Nat.zero_le _
  rw [← Shutter.quotaFor_run events sh key] at hweight
  exact (congrArg Decision.isAdmitted hdecision).trans (Cell.admits_of_settled hdrained hweight)

theorem settled_is_admitted_bob :
    ((overflowThenExact.foldl Shutter.step oneCell).charge ⟨60000000000, 60000000000, []⟩
      (.principal "bob" .credential) (Cost.flat .credential)).1.decision.isAdmitted = true := by
  have hprice : (Key.principal "bob" .credential).Prices (Cost.flat .credential) :=
    OperationClass.Prices.flat .credential
  exact settled_is_admitted oneCell_ok overflowThenExact hprice _ (by decide)

end Albedo.RateLimit
