import Albedo.Forge.Splice
import Mathlib.Logic.Function.Basic

/-!
# Calls on one channel, a step at a time

After its commit a call derives the next value of the channel, from the cached one or from the
database, and stores it later. Between these steps other calls go on. Every derived value is
numbered by the commits it holds: a read holds all there were, and a splice adds its own call's
commit to what it is made from.
-/
namespace Albedo.Forge
open Broadcast Fallible Json

structure Line where
  slot : ForgeCollection
  partition : Option String
  channel : String

/-- A call that has committed: what it touched, here and elsewhere, and the number of its commit. -/
structure Flight where
  call : Call
  touched : Touched
  everywhere : List Touched
  place : ℕ

structure Answer where
  bytes : List Char
  holds : ℕ

inductive Stage where
  | committed (flight : Flight)
  | asked (flight : Flight)
  | derived (flight : Flight) (answer : Answer)
  | registered (flight : Flight) (answer : Answer)
  | sent (flight : Flight) (answer : Answer) (needsWhole : Bool)

/-- The database after each commit, the topics with the number of commits their value holds, and
the calls that are under way. -/
structure Traffic where
  past : ℕ → Db
  commits : ℕ
  broadcast : Registry
  stored : ℕ
  stages : ℕ → Option Stage

def Traffic.db (s : Traffic) : Db := s.past s.commits

def Traffic.put (s : Traffic) (i : ℕ) (stage : Option Stage) : Traffic :=
  { s with stages := Function.update s.stages i stage }

@[simp] theorem Traffic.put_self (s : Traffic) (i : ℕ) (stage : Option Stage) :
    (s.put i stage).stages i = stage := by
  simp only [Traffic.put, Function.update_self]

theorem Traffic.put_of_ne (s : Traffic) {i j : ℕ} (stage : Option Stage) (h : j ≠ i) :
    (s.put i stage).stages j = s.stages j := by
  simp only [Traffic.put, Function.update_of_ne h]

def Traffic.land (s : Traffic) (i : ℕ) (call : Call) (t : Touched) (touched : List Touched)
    (db : Db) : Traffic :=
  { s.put i (some (.committed ⟨call, t, touched, s.commits + 1⟩)) with
    past := Function.update s.past (s.commits + 1) db
    commits := s.commits + 1 }

theorem Traffic.past_land (s : Traffic) (i : ℕ) (call : Call) (t : Touched)
    (touched : List Touched) (db : Db) :
    (s.land i call t touched db).past (s.commits + 1) = db ∧
      ∀ n ≤ s.commits, (s.land i call t touched db).past n = s.past n := by
  refine ⟨by simp only [Traffic.land, Function.update_self], fun n hn => ?_⟩
  have hne : n ≠ s.commits + 1 := by omega
  simp only [Traffic.land, Function.update_of_ne hne]

inductive Move where
  | commit (i : ℕ) (call : Call)
  | splice (i : ℕ)
  | ask (i : ℕ)
  | read (i : ℕ)
  | register (i : ℕ)
  | write (i : ℕ)
  | rewrite (i : ℕ)
  | finish (i : ℕ)

def Move.caller : Move → ℕ
  | .commit i _ => i
  | .splice i | .ask i | .read i | .register i | .write i | .rewrite i | .finish i => i

/-- The whole set that is shown after a write, where the partial rows could not say the change. -/
def Flight.whole (flight : Flight) (bytes : List Char) (needsWhole : Bool) : Option RenderedRows :=
  if needsWhole then
    flight.call.projector.bind fun p =>
      p.projectRows flight.touched.slot.topic flight.touched.partition bytes
  else none

/-- The calls on one channel, a step at a time. A call whose read fails ends there. The rows that a
write carries were rendered against the topics as they were at some earlier time. -/
inductive Traffic.Moves (schema : ForgeSchema) (engine : Engine) (line : Line) :
    Traffic → Move → Traffic → Prop
  | commit {s : Traffic} {i : ℕ} {call : Call} {t : Touched} {touched : List Touched} {db : Db}
      (hfree : s.stages i = none) (hengine : call.substrate.engine = engine)
      (hslot : t.slot = line.slot) (hpartition : t.partition = line.partition)
      (hchannel : t.channel = line.channel) (htouched : t ∈ touched)
      (hcommit : commitWrites call.substrate schema call.writes call.principal s.db =
        .ok (touched, db)) :
      Moves schema engine line s (.commit i call)
        (s.land i call t touched db)
  | splice {s : Traffic} {i : ℕ} {flight : Flight} {bytes : List Char}
      (hstage : s.stages i = some (.committed flight))
      (hsplice : flight.touched.splice s.broadcast = some bytes) :
      Moves schema engine line s (.splice i)
        (s.put i (some (.derived flight ⟨bytes, flight.place⟩)))
  | ask {s : Traffic} {i : ℕ} {flight : Flight}
      (hstage : s.stages i = some (.committed flight))
      (hsplice : flight.touched.splice s.broadcast = none) :
      Moves schema engine line s (.ask i) (s.put i (some (.asked flight)))
  | read {s : Traffic} {i : ℕ} {flight : Flight} {bytes : List Char}
      (hstage : s.stages i = some (.asked flight))
      (hread : materializeSlot flight.call.substrate (.read flight.touched.channel) s.db
        flight.touched.slot flight.touched.partition = .ok bytes) :
      Moves schema engine line s (.read i) (s.put i (some (.derived flight ⟨bytes, s.commits⟩)))
  | fail {s : Traffic} {i : ℕ} {flight : Flight} {err : SubstrateError}
      (hstage : s.stages i = some (.asked flight))
      (hread : materializeSlot flight.call.substrate (.read flight.touched.channel) s.db
        flight.touched.slot flight.touched.partition = .error err) :
      Moves schema engine line s (.read i) (s.put i none)
  | register {s : Traffic} {i : ℕ} {flight : Flight} {answer : Answer}
      (hstage : s.stages i = some (.derived flight answer)) :
      Moves schema engine line s (.register i)
        { s.put i (some (.registered flight answer)) with
          broadcast := s.broadcast.topic flight.touched.channel answer.bytes
          stored := if s.broadcast.value flight.touched.channel = none then answer.holds
            else s.stored }
  | write {s : Traffic} {i : ℕ} {flight : Flight} {answer : Answer} {earlier : Registry}
      {rows : Option RenderedRows} {isPartial : Bool}
      (hstage : s.stages i = some (.registered flight answer))
      (hrows : renderRows flight.call.projector earlier flight.touched answer.bytes =
        (rows, isPartial)) :
      Moves schema engine line s (.write i)
        { s.put i (some (.sent flight answer
            ((s.broadcast.value flight.touched.channel).any fun previous =>
              (updateOf flight.touched.slot rows isPartial answer.bytes previous).2))) with
          broadcast := (s.broadcast.writeTopicDelta flight.call.wire flight.touched.channel
            fun previous => ⟨answer.bytes,
              (updateOf flight.touched.slot rows isPartial answer.bytes previous).1⟩).2
          stored := answer.holds }
  | rewrite {s : Traffic} {i : ℕ} {flight : Flight} {answer : Answer} {needsWhole : Bool}
      {whole : RenderedRows} (hstage : s.stages i = some (.sent flight answer needsWhole))
      (hwhole : flight.whole answer.bytes needsWhole = some whole) :
      Moves schema engine line s (.rewrite i)
        { s.put i none with
          broadcast := (s.broadcast.writeTopicDelta flight.call.wire flight.touched.channel
            fun _ => ⟨answer.bytes, .reconcile (reconcileRows whole)⟩).2
          stored := answer.holds }
  | finish {s : Traffic} {i : ℕ} {flight : Flight} {answer : Answer} {needsWhole : Bool}
      (hstage : s.stages i = some (.sent flight answer needsWhole))
      (hwhole : flight.whole answer.bytes needsWhole = none) :
      Moves schema engine line s (.finish i) (s.put i none)

/-- A run from one state to another, where every step is made in a state that meets a condition. -/
inductive Traffic.Run (schema : ForgeSchema) (engine : Engine) (line : Line)
    (C : Traffic → Move → Prop) : Traffic → Traffic → Prop
  | refl (s : Traffic) : Run schema engine line C s s
  | step {s s' s'' : Traffic} {move : Move} (hrun : Run schema engine line C s s')
      (hmeets : C s' move) (hmove : s'.Moves schema engine line move s'') :
      Run schema engine line C s s''

def Line.Reads (line : Line) (engine : Engine) (db : Db) (bytes : List Char) : Prop :=
  ∃ substrate op, substrate.engine = engine ∧
    materializeSlot substrate op db line.slot line.partition = .ok bytes

def Line.Current (line : Line) (engine : Engine) (s : Traffic) : Prop :=
  ∀ bytes, line.Reads engine s.db bytes → s.broadcast.value line.channel = some bytes

def Line.Unheard (line : Line) (s : Traffic) : Prop :=
  s.commits = 0 ∧ s.broadcast.value line.channel = none

def Traffic.Quiet (s : Traffic) : Prop := ∀ i, s.stages i = none

/-- Nothing has happened yet: the tables are there, and the channel is unheard of or current. -/
structure Traffic.Fresh (schema : ForgeSchema) (engine : Engine) (line : Line) (s : Traffic) :
    Prop where
  deployed : schema.Deployed s.db
  commits : s.commits = 0
  stored : s.stored = 0
  quiet : s.Quiet
  value : s.broadcast.value line.channel = none ∨ line.Current engine s

/-- A splice is made from a value that lacks only the commit of its own call, which only appended
to this channel, and the rows come as a read shows them. -/
def Flight.Splices (schema : ForgeSchema) (engine : Engine) (line : Line) (s : Traffic)
    (flight : Flight) : Prop :=
  s.stored + 1 = flight.place ∧ flight.everywhere = [flight.touched] ∧
    (∀ write ∈ flight.call.writes, ∃ record, write = .append line.slot.topic record) ∧
    ∃ table atHead, (s.past s.stored).table line.slot.table = some table ∧
      insertAtHead line.slot = some atHead ∧
      Continues line.slot engine flight.call.principal line.partition
        (if atHead then .desc else .asc) table
        (committedSteps flight.call.substrate schema flight.call.writes flight.call.principal
          (s.past s.stored))

/-- Splices are made from the value before their commit, reads do not fail, and no value is stored
over one that holds more commits. -/
def Orderly (schema : ForgeSchema) (engine : Engine) (line : Line) (s : Traffic) : Move → Prop
  | .splice i => ∀ flight, s.stages i = some (.committed flight) →
      flight.Splices schema engine line s
  | .read i => ∀ flight, s.stages i = some (.asked flight) →
      flight.call.substrate.fault (.read line.channel) = none
  | .write i => ∀ flight answer, s.stages i = some (.registered flight answer) →
      s.stored ≤ answer.holds
  | .rewrite i => ∀ flight answer needsWhole, s.stages i = some (.sent flight answer needsWhole) →
      s.stored ≤ answer.holds
  | _ => True

/-! ### Reads -/

section Reads

variable {substrate substrate' : Substrate} {op op' : Op} {db db' : Db} {c : ForgeCollection}
variable {partition : Option String} {bytes bytes' : List Char}

theorem resolve_of_declares {t t' : Table} (h : c.Declares t) (h' : c.Declares t') :
    t.resolve = t'.resolve := by
  funext name
  unfold Table.resolve
  rw [h.1, h.2, h'.1, h'.2]

theorem materializeSlot_readable (hd : c.DeployedIn db) (hd' : c.DeployedIn db')
    (hread : materializeSlot substrate op db c partition = .ok bytes)
    (hfault : substrate'.fault op' = none) :
    ∃ bytes', materializeSlot substrate' op' db' c partition = .ok bytes' := by
  obtain ⟨t, ht, hdeclares⟩ := hd
  obtain ⟨t', ht', hdeclares'⟩ := hd'
  obtain ⟨params, cols, hparams, hcols, -⟩ := materializeSlot_ok hdeclares ht hread
  rw [resolve_of_declares hdeclares hdeclares'] at hcols
  exact ⟨_, materializeSlot_eq hdeclares' ht' hparams hcols hfault⟩

theorem materializeSlot_unique (hd : c.DeployedIn db)
    (hread : materializeSlot substrate op db c partition = .ok bytes)
    (hread' : materializeSlot substrate' op' db c partition = .ok bytes')
    (hengine : substrate.engine = substrate'.engine) : bytes = bytes' := by
  obtain ⟨t, ht, hdeclares⟩ := hd
  obtain ⟨_, cols, _, hcols, rfl⟩ := materializeSlot_ok hdeclares ht hread
  obtain ⟨_, cols', _, hcols', rfl⟩ := materializeSlot_ok hdeclares ht hread'
  obtain rfl := Option.some.inj (hcols.symm.trans hcols')
  rw [hengine]

end Reads

theorem commitWrites_commit {substrate : Substrate} {schema : ForgeSchema}
    {writes : List ForgeWrite} {principal : Option PrincipalId} {db : Db}
    {result : List Touched × Db}
    (h : commitWrites substrate schema writes principal db = .ok result) :
    substrate.fault .commit = none := by
  unfold commitWrites at h
  split at h
  · cases h
  · cases hfault : substrate.fault .commit with
    | none => rfl
    | some err =>
      rw [hfault] at h
      cases h

theorem value_writeTopicDelta {broadcast : Registry} {topic : String}
    (h : broadcast.value topic ≠ none) (wire : Wire) (bytes : List Char)
    (update : List Char → ListUpdate) (x : String) :
    (broadcast.writeTopicDelta wire topic fun previous => ⟨bytes, update previous⟩).2.value x =
      if x = topic then some bytes else broadcast.value x := by
  obtain ⟨previous, hprevious⟩ := Option.ne_none_iff_exists'.mp h
  rw [Registry.value_eq] at hprevious
  obtain ⟨stored, hstored, -⟩ := Option.map_eq_some_iff.mp hprevious
  rw [Registry.value_eq, Registry.stored_writeTopicDelta hstored, Registry.value_eq]
  split_ifs <;> rfl

/-! ### What every step keeps -/

section Steps

variable {schema : ForgeSchema} {engine : Engine} {line : Line} {s s' : Traffic}

def Answer.Right (engine : Engine) (line : Line) (s : Traffic) (answer : Answer) : Prop :=
  answer.holds ≤ s.commits ∧
    ∀ bytes, line.Reads engine (s.past answer.holds) bytes → answer.bytes = bytes

structure Flight.Right (schema : ForgeSchema) (engine : Engine) (line : Line) (s : Traffic)
    (flight : Flight) : Prop where
  engine : flight.call.substrate.engine = engine
  slot : flight.touched.slot = line.slot
  partition : flight.touched.partition = line.partition
  channel : flight.touched.channel = line.channel
  place_pos : 0 < flight.place
  place_le : flight.place ≤ s.commits
  commit : ∀ n, n + 1 = flight.place →
    commitWrites flight.call.substrate schema flight.call.writes flight.call.principal
      (s.past n) = .ok (flight.everywhere, s.past (n + 1))

/-- A call has derived its value after its commit. -/
def Flight.Has (schema : ForgeSchema) (engine : Engine) (line : Line) (s : Traffic)
    (flight : Flight) (answer : Answer) : Prop :=
  flight.Right schema engine line s ∧ answer.Right engine line s ∧ flight.place ≤ answer.holds

def Stage.Right (schema : ForgeSchema) (engine : Engine) (line : Line) (s : Traffic) :
    Stage → Prop
  | .committed flight | .asked flight => flight.Right schema engine line s
  | .derived flight answer => flight.Has schema engine line s answer
  | .registered flight answer | .sent flight answer _ =>
      flight.Has schema engine line s answer ∧ s.broadcast.value line.channel ≠ none

/-- A call that has yet to store its value, and whose commit is the one with a number. -/
def Stage.Owes (n : ℕ) : Stage → Prop
  | .committed flight | .asked flight | .derived flight _ | .registered flight _ =>
      flight.place = n
  | .sent _ _ _ => False

/-- The stored value is what a read answered after as many commits as it holds. If these are not
all, the last call has yet to store its value, or nobody can read the channel. -/
structure Traffic.Inv (schema : ForgeSchema) (engine : Engine) (line : Line) (s : Traffic) :
    Prop where
  deployed : ∀ n ≤ s.commits, schema.Deployed (s.past n)
  stored_le : s.stored ≤ s.commits
  unheard : s.broadcast.value line.channel = none → s.stored = 0
  held : ∀ bytes previous, line.Reads engine (s.past s.stored) bytes →
    s.broadcast.value line.channel = some previous → previous = bytes
  stages : ∀ i stage, s.stages i = some stage → stage.Right schema engine line s
  owes : s.stored = s.commits ∨ (∃ i stage, s.stages i = some stage ∧ stage.Owes s.commits) ∨
    ∀ bytes, ¬ line.Reads engine s.db bytes

theorem Line.Reads.unique {db : Db} {bytes bytes' : List Char}
    (hline : line.slot ∈ schema.collections) (hd : schema.Deployed db)
    (h : line.Reads engine db bytes) (h' : line.Reads engine db bytes') : bytes = bytes' := by
  obtain ⟨substrate, op, hengine, hread⟩ := h
  obtain ⟨substrate', op', hengine', hread'⟩ := h'
  exact materializeSlot_unique (hd _ hline) hread hread' (hengine.trans hengine'.symm)

theorem Flight.Right.mono {flight : Flight} (h : flight.Right schema engine line s)
    (hcommits : s.commits ≤ s'.commits) (hpast : ∀ n ≤ s.commits, s'.past n = s.past n) :
    flight.Right schema engine line s' := by
  refine ⟨h.engine, h.slot, h.partition, h.channel, h.place_pos, h.place_le.trans hcommits,
    fun n hn => ?_⟩
  have hle := h.place_le
  rw [hpast n (by omega), hpast (n + 1) (by omega)]
  exact h.commit n hn

theorem Flight.Has.mono {flight : Flight} {answer : Answer}
    (h : flight.Has schema engine line s answer) (hcommits : s.commits ≤ s'.commits)
    (hpast : ∀ n ≤ s.commits, s'.past n = s.past n) :
    flight.Has schema engine line s' answer := by
  obtain ⟨hright, ⟨hholds, hbytes⟩, hplace⟩ := h
  refine ⟨hright.mono hcommits hpast, ⟨hholds.trans hcommits, ?_⟩, hplace⟩
  rw [hpast _ hholds]
  exact hbytes

theorem Stage.Right.mono {stage : Stage} (h : stage.Right schema engine line s)
    (hcommits : s.commits ≤ s'.commits) (hpast : ∀ n ≤ s.commits, s'.past n = s.past n)
    (hvalue : s.broadcast.value line.channel ≠ none → s'.broadcast.value line.channel ≠ none) :
    stage.Right schema engine line s' := by
  cases stage with
  | committed flight => exact Flight.Right.mono h hcommits hpast
  | asked flight => exact Flight.Right.mono h hcommits hpast
  | derived flight answer => exact Flight.Has.mono h hcommits hpast
  | registered flight answer => exact ⟨Flight.Has.mono h.1 hcommits hpast, hvalue h.2⟩
  | sent flight answer needsWhole => exact ⟨Flight.Has.mono h.1 hcommits hpast, hvalue h.2⟩

theorem Traffic.Inv.put (h : s.Inv schema engine line) {i : ℕ} {old : Stage} {new : Option Stage}
    (hold : s.stages i = some old)
    (hright : ∀ stage, new = some stage → stage.Right schema engine line s)
    (howes : old.Owes s.commits → s.stored = s.commits ∨
      (∃ stage, new = some stage ∧ stage.Owes s.commits) ∨
        ∀ bytes, ¬ line.Reads engine s.db bytes) : (s.put i new).Inv schema engine line := by
  refine ⟨h.deployed, h.stored_le, h.unheard, h.held, fun j stage hj => ?_, ?_⟩
  · have hstage : stage.Right schema engine line s := by
      by_cases hji : j = i
      · subst hji
        exact hright stage ((s.put_self j new).symm.trans hj)
      · exact h.stages j stage ((s.put_of_ne new hji).symm.trans hj)
    exact hstage.mono le_rfl (fun _ _ => rfl) id
  · rcases h.owes with hall | ⟨j, stage, hj, howed⟩ | hunread
    · exact Or.inl hall
    · by_cases hji : j = i
      · subst hji
        obtain rfl := Option.some.inj (hold.symm.trans hj)
        rcases howes howed with hall | ⟨next, hnext, howed'⟩ | hunread
        · exact Or.inl hall
        · exact Or.inr (Or.inl ⟨j, next, (s.put_self j new).trans hnext, howed'⟩)
        · exact Or.inr (Or.inr hunread)
      · exact Or.inr (Or.inl ⟨j, stage, (s.put_of_ne new hji).trans hj, howed⟩)
    · exact Or.inr (Or.inr hunread)

theorem Traffic.Inv.store (h : s.Inv schema engine line) {answer : Answer} {broadcast : Registry}
    (hvalue : broadcast.value line.channel = some answer.bytes)
    (hanswer : answer.Right engine line s) (hle : s.stored ≤ answer.holds) :
    ({ s with broadcast, stored := answer.holds } : Traffic).Inv schema engine line where
  deployed := h.deployed
  stored_le := hanswer.1
  unheard hnone := by simp [hvalue] at hnone
  held bytes previous hreads hprevious := by
    obtain rfl := Option.some.inj (hvalue.symm.trans hprevious)
    exact hanswer.2 bytes hreads
  stages i stage hstage := (h.stages i stage hstage).mono le_rfl (fun _ _ => rfl) fun _ => by
    simp [hvalue]
  owes := by
    rcases h.owes with hall | hrest
    · exact Or.inl (le_antisymm hanswer.1 (hall ▸ hle))
    · exact Or.inr hrest

theorem Traffic.Inv.publish (h : s.Inv schema engine line) {i : ℕ} {old : Stage}
    (hold : s.stages i = some old) {flight : Flight} {answer : Answer}
    (hhas : flight.Has schema engine line s answer)
    (howes : old.Owes s.commits → flight.place = s.commits) {broadcast : Registry}
    (hvalue : broadcast.value line.channel = some answer.bytes) (hle : s.stored ≤ answer.holds)
    {new : Option Stage} (hnew : ∀ stage, new = some stage →
      stage = .registered flight answer ∨ ∃ needsWhole, stage = .sent flight answer needsWhole) :
    ({ s.put i new with broadcast, stored := answer.holds } : Traffic).Inv schema engine line := by
  have hinv := h.store hvalue hhas.2.1 hle
  have hheard : broadcast.value line.channel ≠ none := by simp [hvalue]
  refine hinv.put hold (fun stage hstage => ?_) fun howed => Or.inl ?_
  · rcases hnew stage hstage with rfl | ⟨needsWhole, rfl⟩
    · exact ⟨hhas.mono le_rfl fun _ _ => rfl, hheard⟩
    · exact ⟨hhas.mono le_rfl fun _ _ => rfl, hheard⟩
  · have hplace := howes howed
    exact le_antisymm hhas.2.1.1 (hplace ▸ hhas.2.2)

theorem Traffic.Inv.same_value (h : s.Inv schema engine line) {broadcast : Registry}
    (hvalue : broadcast.value line.channel = s.broadcast.value line.channel) :
    ({ s with broadcast } : Traffic).Inv schema engine line where
  deployed := h.deployed
  stored_le := h.stored_le
  unheard hnone := h.unheard (hvalue ▸ hnone)
  held bytes previous hreads hprevious := h.held bytes previous hreads (hvalue ▸ hprevious)
  stages i stage hstage := (h.stages i stage hstage).mono le_rfl (fun _ _ => rfl) fun hheard =>
    hvalue ▸ hheard
  owes := h.owes

theorem Flight.Right.splice {flight : Flight} (hright : flight.Right schema engine line s)
    (h : s.Inv schema engine line) (hline : line.slot ∈ schema.collections)
    (hsplices : flight.Splices schema engine line s) {bytes : List Char}
    (hsplice : flight.touched.splice s.broadcast = some bytes) :
    Answer.Right engine line s ⟨bytes, flight.place⟩ := by
  refine ⟨hright.place_le, fun next hnext => ?_⟩
  obtain ⟨hplace, halone, happends, table, atHead, htable, hlead, hcontinues⟩ := hsplices
  have hcommit := hright.commit s.stored hplace
  rw [halone] at hcommit
  have hplace_le := hright.place_le
  have hd := h.deployed s.stored (by omega)
  have hd' := h.deployed (s.stored + 1) (by omega)
  -- what a read answered before the commit, and what it answers after it
  obtain ⟨substrate, op, hengine, hread⟩ := hnext
  rw [← hplace] at hread
  have hfault := commitWrites_commit hcommit
  obtain ⟨previous, hbefore⟩ := materializeSlot_readable (hd' _ hline) (hd _ hline) hread hfault
  obtain ⟨next', hafter⟩ := materializeSlot_readable (hd' _ hline) (hd' _ hline) hread hfault
  obtain rfl := materializeSlot_unique (hd' _ hline) hread hafter
    (hengine.trans hright.engine.symm)
  -- a splice is made from the value before the commit
  obtain ⟨_, cached, -, hcached⟩ := Touched.splice_source hsplice
  obtain rfl := h.held previous cached ⟨_, _, hright.engine, hbefore⟩ (hright.channel ▸ hcached)
  rw [← hright.slot, ← hright.partition] at hbefore hafter
  rw [← hright.slot] at happends hlead htable
  refine (splice_eq_materialize_iff hd hcommit happends hlead hbefore hcached hsplice hafter).mpr
    ⟨table, htable, ?_⟩
  rw [hright.slot, hright.partition, hright.engine]
  exact hcontinues

theorem Answer.right_read {flight : Flight} (hright : flight.Right schema engine line s)
    (hd : schema.Deployed s.db) (hline : line.slot ∈ schema.collections) {bytes : List Char}
    (hread : materializeSlot flight.call.substrate (.read flight.touched.channel) s.db
      flight.touched.slot flight.touched.partition = .ok bytes) :
    Answer.Right engine line s ⟨bytes, s.commits⟩ := by
  refine ⟨le_rfl, fun next hnext => ?_⟩
  rw [hright.slot, hright.partition] at hread
  exact Line.Reads.unique hline hd ⟨_, _, hright.engine, hread⟩ hnext

theorem Flight.Right.unreadable {flight : Flight} (hright : flight.Right schema engine line s)
    (hd : schema.Deployed s.db) (hline : line.slot ∈ schema.collections)
    (hfault : flight.call.substrate.fault (.read line.channel) = none) {err : SubstrateError}
    (hread : materializeSlot flight.call.substrate (.read flight.touched.channel) s.db
      flight.touched.slot flight.touched.partition = .error err) (bytes : List Char) :
    ¬ line.Reads engine s.db bytes := by
  rintro ⟨substrate, op, -, hreads⟩
  rw [← hright.channel] at hfault
  obtain ⟨bytes', hread'⟩ := materializeSlot_readable (hd _ hline) (hd _ hline) hreads hfault
  rw [hright.slot, hright.partition] at hread
  cases hread.symm.trans hread'

theorem Flight.right_land {i : ℕ} {call : Call} {t : Touched} {touched : List Touched} {db : Db}
    (hengine : call.substrate.engine = engine) (hslot : t.slot = line.slot)
    (hpartition : t.partition = line.partition) (hchannel : t.channel = line.channel)
    (hcommit : commitWrites call.substrate schema call.writes call.principal s.db =
      .ok (touched, db)) :
    Flight.Right schema engine line (s.land i call t touched db)
      ⟨call, t, touched, s.commits + 1⟩ := by
  obtain ⟨hnew, hpast⟩ := s.past_land i call t touched db
  refine ⟨hengine, hslot, hpartition, hchannel, Nat.succ_pos _, le_rfl, fun n hn => ?_⟩
  obtain rfl := Nat.succ.inj hn
  rw [hpast _ le_rfl, hnew]
  exact hcommit

theorem Traffic.Inv.commit (h : s.Inv schema engine line) {i : ℕ} {call : Call} {t : Touched}
    {touched : List Touched} {db : Db} (hengine : call.substrate.engine = engine)
    (hslot : t.slot = line.slot) (hpartition : t.partition = line.partition)
    (hchannel : t.channel = line.channel)
    (hcommit : commitWrites call.substrate schema call.writes call.principal s.db =
      .ok (touched, db)) :
    (s.land i call t touched db).Inv schema engine line := by
  obtain ⟨hnew, hpast⟩ := s.past_land i call t touched db
  have hdb := h.deployed s.commits le_rfl
  constructor
  · intro n hn
    rcases Nat.le_succ_iff.mp hn with hn | rfl
    · rw [hpast n hn]
      exact h.deployed n hn
    · rw [hnew]
      exact (commitWrites_ran hdb hcommit).2.deployed hdb
  · exact h.stored_le.trans (Nat.le_succ _)
  · exact h.unheard
  · intro bytes previous hreads
    refine h.held bytes previous ?_
    rwa [← hpast _ h.stored_le]
  · intro j stage hj
    by_cases hji : j = i
    · subst hji
      obtain rfl := Option.some.inj ((s.put_self j _).symm.trans hj)
      exact Flight.right_land hengine hslot hpartition hchannel hcommit
    · refine (h.stages j stage ((s.put_of_ne _ hji).symm.trans hj)).mono (Nat.le_succ _) hpast id
  · exact Or.inr (Or.inl ⟨i, _, s.put_self i _, rfl⟩)

theorem Traffic.Inv.step (h : s.Inv schema engine line) (hline : line.slot ∈ schema.collections)
    {move : Move} (hmeets : Orderly schema engine line s move)
    (hmove : s.Moves schema engine line move s') : s'.Inv schema engine line := by
  cases hmove with
  | commit hfree hengine hslot hpartition hchannel htouched hcommit =>
    exact h.commit hengine hslot hpartition hchannel hcommit
  | @splice i flight bytes hstage hsplice =>
    have hright : flight.Right schema engine line s := h.stages i _ hstage
    refine h.put hstage ?_ fun howed => Or.inr (Or.inl ⟨_, rfl, howed⟩)
    rintro _ ⟨⟩
    exact ⟨hright, hright.splice h hline (hmeets flight hstage) hsplice, le_rfl⟩
  | @ask i flight hstage hsplice =>
    have hright : flight.Right schema engine line s := h.stages i _ hstage
    refine h.put hstage ?_ fun howed => Or.inr (Or.inl ⟨_, rfl, howed⟩)
    rintro _ ⟨⟩
    exact hright
  | @read i flight bytes hstage hread =>
    have hright : flight.Right schema engine line s := h.stages i _ hstage
    refine h.put hstage ?_ fun howed => Or.inr (Or.inl ⟨_, rfl, howed⟩)
    rintro _ ⟨⟩
    exact ⟨hright, Answer.right_read hright (h.deployed _ le_rfl) hline hread, hright.place_le⟩
  | @fail i flight err hstage hread =>
    have hright : flight.Right schema engine line s := h.stages i _ hstage
    exact h.put hstage (by rintro _ ⟨⟩) fun _ => Or.inr (Or.inr
      (hright.unreadable (h.deployed _ le_rfl) hline (hmeets flight hstage) hread))
  | @register i flight answer hstage =>
    have hhas : flight.Has schema engine line s answer := h.stages i _ hstage
    have hvalue := s.broadcast.value_topic flight.touched.channel line.channel answer.bytes
    rw [if_pos hhas.1.channel.symm, hhas.1.channel] at hvalue
    rw [hhas.1.channel]
    cases hheard : s.broadcast.value line.channel with
    | none =>
      rw [hheard] at hvalue
      have hle : s.stored ≤ answer.holds := h.unheard hheard ▸ Nat.zero_le _
      rw [if_pos rfl]
      refine h.publish hstage hhas id hvalue hle ?_
      rintro _ ⟨⟩
      exact Or.inl rfl
    | some previous =>
      rw [hheard] at hvalue
      rw [if_neg (by simp)]
      have hinv := h.same_value (hvalue.trans hheard.symm)
      refine hinv.put hstage ?_ fun howed => Or.inr (Or.inl ⟨_, rfl, howed⟩)
      rintro _ ⟨⟩
      exact ⟨hinv.stages i _ hstage, by simp [hvalue]⟩
  | @write i flight answer earlier rows isPartial hstage hrows =>
    obtain ⟨hhas, hheard⟩ : flight.Has schema engine line s answer ∧ _ := h.stages i _ hstage
    have hchannel := hhas.1.channel
    rw [← hchannel] at hheard
    have hvalue := value_writeTopicDelta hheard flight.call.wire answer.bytes (fun previous =>
      (updateOf flight.touched.slot rows isPartial answer.bytes previous).1) line.channel
    rw [if_pos hchannel.symm] at hvalue
    refine h.publish hstage hhas id hvalue (hmeets flight answer hstage) ?_
    rintro _ ⟨⟩
    exact Or.inr ⟨_, rfl⟩
  | @rewrite i flight answer needsWhole whole hstage hwhole =>
    obtain ⟨hhas, hheard⟩ : flight.Has schema engine line s answer ∧ _ := h.stages i _ hstage
    have hchannel := hhas.1.channel
    rw [← hchannel] at hheard
    have hvalue := value_writeTopicDelta hheard flight.call.wire answer.bytes
      (fun _ => .reconcile (reconcileRows whole)) line.channel
    rw [if_pos hchannel.symm] at hvalue
    refine h.publish hstage hhas False.elim hvalue (hmeets flight answer needsWhole hstage) ?_
    rintro _ ⟨⟩
  | @finish i flight answer needsWhole hstage hwhole =>
    exact h.put hstage (by rintro _ ⟨⟩) fun howed => howed.elim

theorem Traffic.Fresh.inv (h : s.Fresh schema engine line) : s.Inv schema engine line where
  deployed n hn := by
    obtain rfl : n = s.commits := le_antisymm hn (h.commits ▸ Nat.zero_le n)
    exact h.deployed
  stored_le := h.stored ▸ Nat.zero_le _
  unheard _ := h.stored
  held bytes previous hreads hprevious := by
    rcases h.value with hnone | hcurrent
    · exact absurd (hnone.symm.trans hprevious) (by simp)
    · rw [h.stored, ← h.commits] at hreads
      exact Option.some.inj (hprevious.symm.trans (hcurrent bytes hreads))
  stages i stage hstage := absurd ((h.quiet i).symm.trans hstage) (by simp)
  owes := Or.inl (h.stored.trans h.commits.symm)

theorem Traffic.Run.inv (hline : line.slot ∈ schema.collections) (h : s.Inv schema engine line)
    (hrun : Traffic.Run schema engine line (Orderly schema engine line) s s') :
    s'.Inv schema engine line := by
  induction hrun with
  | refl => exact h
  | step _ hmeets hmove ih => exact ih.step hline hmeets hmove

theorem Traffic.Inv.current (h : s.Inv schema engine line) (hquiet : s.Quiet) :
    line.Unheard s ∨ line.Current engine s := by
  rcases h.owes with hall | ⟨i, stage, hstage, -⟩ | hunread
  · cases hvalue : s.broadcast.value line.channel with
    | none => exact Or.inl ⟨hall.symm.trans (h.unheard hvalue), hvalue⟩
    | some previous =>
      refine Or.inr fun bytes hreads => ?_
      rw [Traffic.db, ← hall] at hreads
      rw [hvalue, h.held bytes previous hreads hvalue]
  · exact absurd ((hquiet i).symm.trans hstage) (by simp)
  · exact Or.inr fun bytes hreads => absurd hreads (hunread bytes)

end Steps

end Albedo.Forge
