import Albedo.Forge.Traffic

/-!
# Calls that overlap on one channel

The last value stored is what a read answers when splices were made from a value that lacked only
their own commit, and no value was stored over one that holds more. Whatever the order was, a later
call that reads the channel again brings it up to date. One that splices does not.
-/
namespace Albedo.Forge
open Broadcast Fallible Json

section Steps

variable {schema : ForgeSchema} {engine : Engine} {line : Line} {s s' : Traffic}

/-! ### A call that runs alone -/

theorem Traffic.Run.deployed {C : Traffic → Move → Prop} (hd : schema.Deployed s.db)
    (hrun : Traffic.Run schema engine line C s s') : schema.Deployed s'.db := by
  induction hrun with
  | refl => exact hd
  | @step mid _ _ _ _ hmove ih =>
    cases hmove with
    | @commit i call t touched db _ _ _ _ _ _ hcommit =>
      have hdb : (mid.land i call t touched db).db = db := (mid.past_land i call t touched db).1
      rw [hdb]
      exact (commitWrites_ran ih hcommit).2.deployed ih
    | _ => exact ih

def Requeries (line : Line) (i : ℕ) (s : Traffic) (move : Move) : Prop :=
  move.caller = i ∧ match move with
    | .splice _ => False
    | .read _ => ∀ flight, s.stages i = some (.asked flight) →
        flight.call.substrate.fault (.read line.channel) = none
    | _ => True

/-- What a call has derived holds every commit, and is what is stored once it was sent. -/
def Stage.Last (line : Line) (s : Traffic) : Stage → Prop
  | .committed _ | .asked _ => True
  | .derived _ answer | .registered _ answer => answer.holds = s.commits
  | .sent _ answer _ =>
      answer.holds = s.commits ∧ s.broadcast.value line.channel = some answer.bytes

/-- One call is under way, or it has brought the channel up to date since a commit. -/
structure Traffic.Alone (schema : ForgeSchema) (engine : Engine) (line : Line) (i start : ℕ)
    (s : Traffic) : Prop where
  deployed : schema.Deployed s.db
  ended : s.stages i = none → s.commits = start ∨ line.Current engine s
  ahead : ∀ stage, s.stages i = some stage →
    stage.Right schema engine line s ∧ stage.Last line s

theorem Answer.Right.current {answer : Answer} (h : answer.Right engine line s)
    (hholds : answer.holds = s.commits)
    (hvalue : s.broadcast.value line.channel = some answer.bytes) : line.Current engine s := by
  intro bytes hreads
  rw [Traffic.db, ← hholds] at hreads
  rw [hvalue, h.2 bytes hreads]

theorem Traffic.Alone.of_stage {i start : ℕ} {stage : Stage} (hd : schema.Deployed s.db)
    (hstage : s.stages i = some stage) (hright : stage.Right schema engine line s)
    (hlast : stage.Last line s) : s.Alone schema engine line i start where
  deployed := hd
  ended hnone := by cases hstage.symm.trans hnone
  ahead stage' hstage' := by
    obtain rfl := Option.some.inj (hstage.symm.trans hstage')
    exact ⟨hright, hlast⟩

theorem Traffic.Alone.of_none {i start : ℕ} (hd : schema.Deployed s.db)
    (hstage : s.stages i = none) (hended : s.commits = start ∨ line.Current engine s) :
    s.Alone schema engine line i start where
  deployed := hd
  ended _ := hended
  ahead stage hstage' := by cases hstage.symm.trans hstage'

theorem Traffic.Alone.step {i start : ℕ} (h : s.Alone schema engine line i start)
    (hline : line.slot ∈ schema.collections) {move : Move} (hmeets : Requeries line i s move)
    (hmove : s.Moves schema engine line move s') : s'.Alone schema engine line i start := by
  obtain ⟨hcaller, hmeets⟩ := hmeets
  cases hmove with
  | @commit j call t touched db hfree hengine hslot hpartition hchannel htouched hcommit =>
    obtain rfl : j = i := hcaller
    have hdb : (s.land j call t touched db).db = db := (s.past_land j call t touched db).1
    refine .of_stage ?_ (s.put_self j _)
      (Flight.right_land hengine hslot hpartition hchannel hcommit) trivial
    rw [hdb]
    exact (commitWrites_ran h.deployed hcommit).2.deployed h.deployed
  | splice => exact hmeets.elim
  | @ask j flight hstage hsplice =>
    obtain rfl : j = i := hcaller
    have hright : flight.Right schema engine line s := (h.ahead _ hstage).1
    refine .of_stage h.deployed (s.put_self j _) ?_ trivial
    exact hright.mono le_rfl fun _ _ => rfl
  | @read j flight bytes hstage hread =>
    obtain rfl : j = i := hcaller
    have hright : flight.Right schema engine line s := (h.ahead _ hstage).1
    refine .of_stage h.deployed (s.put_self j _) ?_ rfl
    exact ⟨hright.mono le_rfl fun _ _ => rfl, Answer.right_read hright h.deployed hline hread,
      hright.place_le⟩
  | @fail j flight err hstage hread =>
    obtain rfl : j = i := hcaller
    have hright : flight.Right schema engine line s := (h.ahead _ hstage).1
    have hunread := hright.unreadable h.deployed hline (hmeets flight hstage) hread
    exact .of_none h.deployed (s.put_self j _)
      (Or.inr fun bytes hreads => absurd hreads (hunread bytes))
  | @register j flight answer hstage =>
    obtain rfl : j = i := hcaller
    obtain ⟨hhas, hlast⟩ : flight.Has schema engine line s answer ∧ _ := h.ahead _ hstage
    have hvalue := s.broadcast.value_topic flight.touched.channel line.channel answer.bytes
    rw [if_pos hhas.1.channel.symm] at hvalue
    refine .of_stage h.deployed (s.put_self j _) ?_ hlast
    exact ⟨hhas.mono le_rfl fun _ _ => rfl, by simp [hvalue]⟩
  | @write j flight answer earlier rows isPartial hstage hrows =>
    obtain rfl : j = i := hcaller
    obtain ⟨⟨hhas, hheard⟩, hlast⟩ : (flight.Has schema engine line s answer ∧ _) ∧ _ :=
      h.ahead _ hstage
    have hchannel := hhas.1.channel
    rw [← hchannel] at hheard
    have hvalue := value_writeTopicDelta hheard flight.call.wire answer.bytes (fun previous =>
      (updateOf flight.touched.slot rows isPartial answer.bytes previous).1) line.channel
    rw [if_pos hchannel.symm] at hvalue
    refine .of_stage h.deployed (s.put_self j _) ?_ ⟨hlast, hvalue⟩
    exact ⟨hhas.mono le_rfl fun _ _ => rfl, by simp [hvalue]⟩
  | @rewrite j flight answer needsWhole whole hstage hwhole =>
    obtain rfl : j = i := hcaller
    obtain ⟨⟨hhas, hheard⟩, hlast, -⟩ : (flight.Has schema engine line s answer ∧ _) ∧ _ :=
      h.ahead _ hstage
    have hchannel := hhas.1.channel
    rw [← hchannel] at hheard
    have hvalue := value_writeTopicDelta hheard flight.call.wire answer.bytes
      (fun _ => .reconcile (reconcileRows whole)) line.channel
    rw [if_pos hchannel.symm] at hvalue
    refine .of_none h.deployed (s.put_self j _) (Or.inr ?_)
    exact Answer.Right.current hhas.2.1 hlast hvalue
  | @finish j flight answer needsWhole hstage hwhole =>
    obtain rfl : j = i := hcaller
    obtain ⟨⟨hhas, -⟩, hlast, hvalue⟩ : (flight.Has schema engine line s answer ∧ _) ∧ _ :=
      h.ahead _ hstage
    refine .of_none h.deployed (s.put_self j _) (Or.inr ?_)
    exact Answer.Right.current hhas.2.1 hlast hvalue

theorem Traffic.Run.alone {i start : ℕ} (hline : line.slot ∈ schema.collections)
    (h : s.Alone schema engine line i start)
    (hrun : Traffic.Run schema engine line (Requeries line i) s s') :
    s'.Alone schema engine line i start := by
  induction hrun with
  | refl => exact h
  | step _ hmeets hmove ih => exact ih.step hline hmeets hmove

/-- Calls whose steps overlap in order lose no update: once all have ended, the channel has what a
read answers. Whatever the order was, it has once a call that reads the channel again has run
alone. -/
theorem no_lost_update (hline : line.slot ∈ schema.collections)
    (hfresh : s.Fresh schema engine line)
    (hrun : Traffic.Run schema engine line (fun _ _ => True) s s') (hquiet : s'.Quiet) :
    (Traffic.Run schema engine line (Orderly schema engine line) s s' →
      line.Unheard s' ∨ line.Current engine s') ∧
    ∀ i s'', Traffic.Run schema engine line (Requeries line i) s' s'' → s''.Quiet →
      s'.commits < s''.commits → line.Current engine s'' := by
  refine ⟨fun horderly => (Traffic.Run.inv hline hfresh.inv horderly).current hquiet,
    fun i s'' hlone hquiet' hcommits => ?_⟩
  have hstart : s'.Alone schema engine line i s'.commits :=
    .of_none (hrun.deployed hfresh.deployed) (hquiet i) (Or.inl rfl)
  rcases (hlone.alone hline hstart).ended (hquiet' i) with hnone | hcurrent
  · omega
  · exact hcurrent

end Steps

/-! ### Entries that overlap -/

section

variable {schema : ForgeSchema} {engine : Engine} {line : Line} {C : Traffic → Move → Prop}
variable {s s' s'' : Traffic}

theorem Traffic.Run.trans (h : Traffic.Run schema engine line C s s')
    (h' : Traffic.Run schema engine line C s' s'') : Traffic.Run schema engine line C s s'' := by
  induction h' with
  | refl => exact h
  | step _ hmeets hmove ih => exact ih.step hmeets hmove

theorem Flight.whole_plain (flight : Flight) (h : flight.call.projector = none)
    (bytes : List Char) (needsWhole : Bool) : flight.whole bytes needsWhole = none := by
  unfold Flight.whole
  rw [h]
  split_ifs <;> rfl

theorem Traffic.Run.settle {i : ℕ} {flight : Flight} {answer : Answer}
    (hstage : s.stages i = some (.derived flight answer)) (hplain : flight.call.projector = none)
    (hregister : C s (.register i))
    (hwrite : ∀ mid : Traffic, mid.stages i = some (.registered flight answer) →
      mid.stored ≤ max s.stored answer.holds → C mid (.write i))
    (hfinish : ∀ mid, C mid (.finish i)) :
    ∃ s', Traffic.Run schema engine line C s s' ∧ s'.past = s.past ∧ s'.commits = s.commits ∧
      s'.stored = answer.holds ∧ (∀ j, s'.stages j = if j = i then none else s.stages j) ∧
      s'.broadcast.value flight.touched.channel = some answer.bytes := by
  -- the channel is registered, written, and the call ends
  have hregistered : s.Moves schema engine line (.register i) _ := .register hstage
  generalize hmid : ({ s.put i (some (.registered flight answer)) with
    broadcast := s.broadcast.topic flight.touched.channel answer.bytes
    stored := if s.broadcast.value flight.touched.channel = none then answer.holds
      else s.stored } : Traffic) = mid at hregistered
  have hmidstage : mid.stages i = some (.registered flight answer) := by
    rw [← hmid]
    exact s.put_self i _
  have hmidstored : mid.stored ≤ max s.stored answer.holds := by
    rw [← hmid]
    dsimp only
    split_ifs
    · exact le_max_right _ _
    · exact le_max_left _ _
  have hmidvalue : mid.broadcast.value flight.touched.channel ≠ none := by
    rw [← hmid]
    simp [Registry.value_topic]
  have hrows : renderRows flight.call.projector mid.broadcast flight.touched answer.bytes =
      (none, false) := by
    rw [hplain]
    rfl
  have hwritten : mid.Moves schema engine line (.write i) _ := .write hmidstage hrows
  have hvalue := value_writeTopicDelta hmidvalue flight.call.wire answer.bytes
    (fun previous => (updateOf flight.touched.slot none false answer.bytes previous).1)
    flight.touched.channel
  rw [if_pos rfl] at hvalue
  generalize hlast : ({ mid.put i (some (.sent flight answer
      ((mid.broadcast.value flight.touched.channel).any fun previous =>
        (updateOf flight.touched.slot none false answer.bytes previous).2))) with
    broadcast := (mid.broadcast.writeTopicDelta flight.call.wire flight.touched.channel
      fun previous => ⟨answer.bytes,
        (updateOf flight.touched.slot none false answer.bytes previous).1⟩).2
    stored := answer.holds } : Traffic) = last at hwritten
  obtain ⟨needsWhole, hlaststage⟩ :
      ∃ needsWhole, last.stages i = some (.sent flight answer needsWhole) := by
    rw [← hlast]
    exact ⟨_, mid.put_self i _⟩
  have hsent : last.Moves schema engine line (.finish i) _ :=
    .finish hlaststage (flight.whole_plain hplain _ _)
  refine ⟨_, (((Run.refl s).step hregister hregistered).step (hwrite mid hmidstage hmidstored)
    hwritten).step (hfinish last) hsent, ?_, ?_, ?_, fun j => ?_, ?_⟩
  · rw [← hmid] at hlast
    rw [← hlast]
    rfl
  · rw [← hmid] at hlast
    rw [← hlast]
    rfl
  · rw [← hlast]
    rfl
  · split_ifs with hj
    · rw [hj]
      exact last.put_self i _
    · rw [last.put_of_ne _ hj, ← hlast, ← hmid]
      exact ((Traffic.put_of_ne _ _ hj).trans (s.put_of_ne _ hj))
  · rw [← hlast]
    exact hvalue

theorem Traffic.Run.weaken {C' : Traffic → Move → Prop} (h : ∀ s move, C s move → C' s move)
    (hrun : Traffic.Run schema engine line C s s') : Traffic.Run schema engine line C' s s' := by
  induction hrun with
  | refl => exact .refl s
  | step _ hmeets hmove ih => exact ih.step (h _ _ hmeets) hmove

theorem Traffic.Run.requery (hquiet : s.Quiet) (i : ℕ) {call : Call} {t : Touched}
    {touched : List Touched} {db : Db} {bytes : List Char}
    (hengine : call.substrate.engine = engine) (hslot : t.slot = line.slot)
    (hpartition : t.partition = line.partition) (hchannel : t.channel = line.channel)
    (htouched : t ∈ touched)
    (hcommit : commitWrites call.substrate schema call.writes call.principal s.db =
      .ok (touched, db)) (hplain : call.projector = none) (hmutated : t.mutated = true)
    (hfault : call.substrate.fault (.read line.channel) = none)
    (hread : materializeSlot call.substrate (.read t.channel) db t.slot t.partition = .ok bytes) :
    ∃ s', Traffic.Run schema engine line (Requeries line i) s s' ∧ s'.Quiet ∧
      s.commits < s'.commits := by
  have hland : s.Moves schema engine line (.commit i call) _ :=
    .commit (hquiet i) hengine hslot hpartition hchannel htouched hcommit
  have hdb := (s.past_land i call t touched db).1
  generalize hs₁ : s.land i call t touched db = s₁ at hland hdb
  have hcommitted : s₁.stages i = some (.committed ⟨call, t, touched, s.commits + 1⟩) := by
    rw [← hs₁]
    exact s.put_self i _
  have hsplice : t.splice s₁.broadcast = none := by
    unfold Touched.splice
    split
    · rfl
    · rw [if_pos (Or.inl hmutated)]
  have hask : s₁.Moves schema engine line (.ask i) _ := .ask hcommitted hsplice
  have hasked := s₁.put_self i (some (.asked ⟨call, t, touched, s.commits + 1⟩))
  have hcommits : s₁.commits = s.commits + 1 := by
    rw [← hs₁]
    rfl
  generalize hs₂ : s₁.put i (some (.asked ⟨call, t, touched, s.commits + 1⟩)) = s₂ at hask hasked
  have hdb₂ : s₂.db = db := by
    rw [← hs₂, Traffic.db, ← hdb, ← hcommits]
    rfl
  have hanswer : s₂.Moves schema engine line (.read i) _ := .read hasked (hdb₂.symm ▸ hread)
  have hderived := s₂.put_self i
    (some (.derived ⟨call, t, touched, s.commits + 1⟩ ⟨bytes, s₂.commits⟩))
  obtain ⟨s', hsettle, -, hcommits', -, hstages, -⟩ :=
    Run.settle (C := Requeries line i) hderived hplain ⟨rfl, trivial⟩
      (fun _ _ _ => ⟨rfl, trivial⟩) fun _ => ⟨rfl, trivial⟩
  have hanswered : Requeries line i s₂ (.read i) := by
    refine ⟨rfl, fun flight hflight => ?_⟩
    obtain rfl := Stage.asked.inj (Option.some.inj (hasked.symm.trans hflight))
    exact hfault
  refine ⟨s', ((((Run.refl s).step ⟨rfl, trivial⟩ hland).step ⟨rfl, trivial⟩ hask).step hanswered
    hanswer).trans hsettle, fun j => ?_, ?_⟩
  · rw [hstages]
    split_ifs with hj
    · rfl
    · rw [s₂.put_of_ne _ hj, ← hs₂, s₁.put_of_ne _ hj, ← hs₁]
      exact (s.put_of_ne _ hj).trans (hquiet j)
  · rw [hcommits', ← hs₂]
    exact (Nat.lt_succ_self _).trans_eq hcommits.symm

end

def guestbookLine : Line := ⟨guestbook, none, "guestbook"⟩

def blank : Traffic where
  past := fun _ => guestbookDb
  commits := 0
  broadcast := Registry.empty.topic "guestbook" (Value.array []).encode
  stored := 0
  stages := fun _ => none

def signs (author : String) : Call :=
  ⟨.plain, .plain, none, some ada, [.append "guestbook" (.single "author" (.string author))]⟩

def signature (author : String) (id : ℤ) : Value :=
  .object [("author", .string author), ("id", .number (.int id))]

def signatureTouched (author : String) (id : ℤ) : Touched :=
  ⟨guestbook, none, "guestbook", [signature author id], false⟩

def signedDb (db : Db) (author : String) : Db :=
  match commitWrites .plain guestbookSchema (signs author).writes (some ada) db with
  | .ok (_, after) => after
  | .error _ => db

def guestbookOf (authors : List String) : Db := authors.foldl signedDb guestbookDb

def signing (author : String) (id : ℕ) : Flight :=
  ⟨signs author, signatureTouched author id, [signatureTouched author id], id⟩

theorem Traffic.Run.signs {C : Traffic → Move → Prop} {s : Traffic} {i : ℕ} (author : String)
    (authors : List String) (hC : C s (.commit i (Forge.signs author))) (hfree : s.stages i = none)
    (hdb : s.db = guestbookOf authors) (hcommits : s.commits = authors.length)
    (hcommit : commitWrites .plain guestbookSchema (Forge.signs author).writes (some ada)
      (guestbookOf authors) =
        .ok ([signatureTouched author (authors.length + 1)], guestbookOf (authors ++ [author]))) :
    ∃ s', Traffic.Run guestbookSchema .plain guestbookLine C s s' ∧
      s'.db = guestbookOf (authors ++ [author]) ∧ s'.commits = authors.length + 1 ∧
      s'.broadcast = s.broadcast ∧ s'.stored = s.stored ∧
      (∀ n ≤ s.commits, s'.past n = s.past n) ∧
      ∀ j, s'.stages j = if j = i then some (.committed (signing author (authors.length + 1)))
        else s.stages j := by
  rw [← hdb] at hcommit
  have hmove : s.Moves guestbookSchema .plain guestbookLine (.commit i (Forge.signs author)) _ :=
    .commit hfree rfl rfl rfl rfl List.mem_cons_self hcommit
  have hpast := s.past_land i (Forge.signs author) (signatureTouched author (authors.length + 1))
    [signatureTouched author (authors.length + 1)] (guestbookOf (authors ++ [author]))
  refine ⟨_, (Run.refl s).step hC hmove, hpast.1, ?_, rfl, rfl, hpast.2, fun j => ?_⟩
  · rw [← hcommits]
    rfl
  · split_ifs with hj
    · rw [hj]
      refine (s.put_self i _).trans ?_
      rw [signing, ← hcommits]
      rfl
    · exact s.put_of_ne _ hj

theorem signatureTouched_splice (author : String) (id : ℤ) {broadcast : Registry}
    {previous : List Value}
    (h : broadcast.value "guestbook" = some (Value.array previous).encode) :
    (signatureTouched author id).splice broadcast =
      some (Value.array (previous ++ [signature author id])).encode := by
  have hlead : insertAtHead (signatureTouched author id).slot = some false := rfl
  have hplain : ¬ ((signatureTouched author id).mutated = true ∨
      (signatureTouched author id).appended = []) := by simp [signatureTouched]
  have hvalue : broadcast.value (signatureTouched author id).channel = _ := h
  have happended : (signatureTouched author id).appended ≠ [] := by simp [signatureTouched]
  unfold Touched.splice
  rw [hlead]
  dsimp only
  rw [if_neg hplain, hvalue, Option.bind_some, spliceAppended_array happended, if_neg (by simp)]
  rfl

theorem Traffic.Run.spliced {C : Traffic → Move → Prop} {s : Traffic} {i id : ℕ} {author : String}
    {previous : List Value} (hC : C s (.splice i))
    (hstage : s.stages i = some (.committed (signing author id)))
    (hvalue : s.broadcast.value "guestbook" = some (Value.array previous).encode) :
    ∃ s', Traffic.Run guestbookSchema .plain guestbookLine C s s' ∧ s'.past = s.past ∧
      s'.commits = s.commits ∧ s'.broadcast = s.broadcast ∧ s'.stored = s.stored ∧
      ∀ j, s'.stages j = if j = i then some (.derived (signing author id)
        ⟨(Value.array (previous ++ [signature author id])).encode, id⟩) else s.stages j := by
  refine ⟨_, (Run.refl s).step hC (.splice hstage (signatureTouched_splice author id hvalue)), rfl,
    rfl, rfl, rfl, fun j => ?_⟩
  split_ifs with hj
  · rw [hj]
    exact s.put_self i _
  · exact s.put_of_ne _ hj

theorem Traffic.Run.settled {C : Traffic → Move → Prop} {s : Traffic} {i id : ℕ} {author : String}
    {answer : Answer} (hregister : C s (.register i))
    (hstage : s.stages i = some (.derived (signing author id) answer))
    (hwrite : ∀ mid : Traffic, mid.stages i = some (.registered (signing author id) answer) →
      mid.stored ≤ max s.stored answer.holds → C mid (.write i))
    (hfinish : ∀ mid, C mid (.finish i)) :
    ∃ s', Traffic.Run guestbookSchema .plain guestbookLine C s s' ∧ s'.past = s.past ∧
      s'.commits = s.commits ∧ s'.stored = answer.holds ∧
      (∀ j, s'.stages j = if j = i then none else s.stages j) ∧
      s'.broadcast.value "guestbook" = some answer.bytes :=
  Run.settle hstage rfl hregister hwrite hfinish

theorem guestbook_reads : guestbookLine.Reads .plain (guestbookOf ["ada", "alan"])
      (Value.array [signature "ada" 1, signature "alan" 2]).encode ∧
    guestbookLine.Reads .plain (guestbookOf ["ada", "alan", "grace"])
      (Value.array [signature "ada" 1, signature "alan" 2, signature "grace" 3]).encode :=
  ⟨⟨.plain, .commit, rfl, by decide⟩, ⟨.plain, .commit, rfl, by decide⟩⟩

theorem blank_fresh : blank.Fresh guestbookSchema .plain guestbookLine where
  deployed := guestbook_deployed
  commits := rfl
  stored := rfl
  quiet _ := rfl
  value := by
    refine Or.inr fun bytes hreads => ?_
    have hblank : guestbookLine.Reads .plain blank.db (Value.array []).encode :=
      ⟨.plain, .commit, rfl, by decide⟩
    obtain rfl := hreads.unique List.mem_cons_self guestbook_deployed hblank
    decide

/-- Two signatures are spliced onto the same page, and one is lost. A third that is spliced alone
does not bring it back. -/
theorem signature_lost :
    blank.Fresh guestbookSchema .plain guestbookLine ∧
    ∃ s s', Traffic.Run guestbookSchema .plain guestbookLine (fun _ _ => True) blank s ∧
      s.Quiet ∧ ¬ (guestbookLine.Unheard s ∨ guestbookLine.Current .plain s) ∧
      Traffic.Run guestbookSchema .plain guestbookLine (fun _ move => move.caller = 2) s s' ∧
      s'.Quiet ∧ s.commits < s'.commits ∧ ¬ guestbookLine.Current .plain s' := by
  refine ⟨blank_fresh, ?_⟩
  -- both commit
  obtain ⟨s₁, hrun₁, hdb₁, hcommits₁, hbroadcast₁, -, -, hstages₁⟩ :=
    Traffic.Run.signs (C := fun _ _ => True) (s := blank) (i := 0) "ada" [] trivial rfl rfl rfl rfl
  obtain ⟨s₂, hrun₂, hdb₂, hcommits₂, hbroadcast₂, -, -, hstages₂⟩ :=
    Traffic.Run.signs (C := fun _ _ => True) (s := s₁) (i := 1) "alan" ["ada"] trivial
      ((hstages₁ 1).trans rfl) hdb₁ hcommits₁ rfl
  -- both are spliced onto the blank page
  have hblank : s₂.broadcast.value "guestbook" = some (Value.array []).encode := by
    rw [hbroadcast₂, hbroadcast₁]
    decide
  have hada : s₂.stages 0 = some (.committed (signing "ada" 1)) := (hstages₂ 0).trans (hstages₁ 0)
  obtain ⟨s₃, hrun₃, hpast₃, hcommits₃, hbroadcast₃, -, hstages₃⟩ :=
    Traffic.Run.spliced (C := fun _ _ => True) trivial hada hblank
  have halan : s₃.stages 1 = some (.committed (signing "alan" 2)) := (hstages₃ 1).trans (hstages₂ 1)
  rw [← hbroadcast₃] at hblank
  obtain ⟨s₄, hrun₄, hpast₄, hcommits₄, -, -, hstages₄⟩ :=
    Traffic.Run.spliced (C := fun _ _ => True) trivial halan hblank
  -- the second is stored over the first
  obtain ⟨s₅, hrun₅, hpast₅, hcommits₅, -, hstages₅, -⟩ :=
    Traffic.Run.settled (C := fun _ _ => True) trivial ((hstages₄ 0).trans (hstages₃ 0))
      (fun _ _ _ => trivial) fun _ => trivial
  obtain ⟨s₆, hrun₆, hpast₆, hcommits₆, -, hstages₆, hvalue₆⟩ :=
    Traffic.Run.settled (C := fun _ _ => True) trivial ((hstages₅ 1).trans (hstages₄ 1))
      (fun _ _ _ => trivial) fun _ => trivial
  have hcommits : s₆.commits = s₂.commits := by
    rw [hcommits₆, hcommits₅, hcommits₄, hcommits₃]
  have hdb₆ : s₆.db = guestbookOf ["ada", "alan"] := by
    rw [Traffic.db, hcommits, hpast₆, hpast₅, hpast₄, hpast₃]
    exact hdb₂
  have hquiet₆ : s₆.Quiet := by
    intro i
    rw [hstages₆, hstages₅, hstages₄, hstages₃, hstages₂, hstages₁]
    split_ifs <;> rfl
  -- the third is spliced onto what the second left
  obtain ⟨s₇, hrun₇, hdb₇, hcommits₇, hbroadcast₇, -, -, hstages₇⟩ :=
    Traffic.Run.signs (C := fun _ move => move.caller = 2) (s := s₆) (i := 2) "grace"
      ["ada", "alan"] rfl (hquiet₆ 2) hdb₆ (hcommits.trans hcommits₂) rfl
  rw [← hbroadcast₇] at hvalue₆
  obtain ⟨s₈, hrun₈, hpast₈, hcommits₈, -, -, hstages₈⟩ :=
    Traffic.Run.spliced (C := fun _ move => move.caller = 2) rfl (hstages₇ 2) hvalue₆
  obtain ⟨s₉, hrun₉, hpast₉, hcommits₉, -, hstages₉, hvalue₉⟩ :=
    Traffic.Run.settled (C := fun _ move => move.caller = 2) rfl (hstages₈ 2)
      (fun _ _ _ => rfl) fun _ => rfl
  refine ⟨s₆, s₉, ((((hrun₁.trans hrun₂).trans hrun₃).trans hrun₄).trans hrun₅).trans hrun₆,
    hquiet₆, ?_, (hrun₇.trans hrun₈).trans hrun₉, ?_, ?_, ?_⟩
  · rintro (⟨hnone, -⟩ | hcurrent)
    · rw [hcommits, hcommits₂] at hnone
      cases hnone
    · have hvalue := hcurrent _ (hdb₆ ▸ guestbook_reads.1)
      rw [show guestbookLine.channel = "guestbook" from rfl, ← hbroadcast₇, hvalue₆] at hvalue
      revert hvalue
      decide
  · intro i
    rw [hstages₉, hstages₈, hstages₇, hquiet₆]
    split_ifs <;> rfl
  · rw [hcommits₉, hcommits₈, hcommits₇, hcommits, hcommits₂]
    decide
  · intro hcurrent
    have hdb₉ : s₉.db = guestbookOf ["ada", "alan", "grace"] := by
      rw [Traffic.db, hcommits₉, hpast₉, hcommits₈, hpast₈]
      exact hdb₇
    have hvalue := hcurrent _ (hdb₉ ▸ guestbook_reads.2)
    rw [show guestbookLine.channel = "guestbook" from rfl, hvalue₉] at hvalue
    revert hvalue
    decide

theorem signature_continues (author : String) (authors : List String) {table : Table}
    (hsteps : committedSteps .plain guestbookSchema (signs author).writes (some ada)
      (guestbookOf authors) =
        [⟨guestbook, guestbookOf authors, .append "guestbook" (.single "author" (.string author))⟩])
    (hshown : ∀ row ∈ (committedSteps .plain guestbookSchema (signs author).writes (some ada)
      (guestbookOf authors)).filterMap (Step.inserted .plain (some ada)),
      guestbook.shows .plain none row = true)
    (hplaced : SortDir.Places .asc (guestbook.channelRows .plain none table)
      ((committedSteps .plain guestbookSchema (signs author).writes (some ada)
        (guestbookOf authors)).filterMap (Step.inserted .plain (some ada)))) :
    Continues guestbook .plain (some ada) none .asc table
      (committedSteps .plain guestbookSchema (signs author).writes (some ada)
        (guestbookOf authors)) := by
  refine ⟨fun step hstep name => ?_, hshown, hplaced⟩
  rw [hsteps, List.mem_singleton] at hstep
  rw [hstep]
  rfl

theorem signing_splices (author : String) (authors : List String) {s : Traffic} {table : Table}
    (hstored : s.stored = authors.length) (hpast : s.past s.stored = guestbookOf authors)
    (htable : (guestbookOf authors).table "guestbook" = some table)
    (hcontinues : Continues guestbook .plain (some ada) none .asc table
      (committedSteps .plain guestbookSchema (signs author).writes (some ada)
        (guestbookOf authors))) :
    (signing author (authors.length + 1)).Splices guestbookSchema .plain guestbookLine s := by
  refine ⟨by rw [hstored]; rfl, rfl, fun write hwrite => ⟨_, List.mem_singleton.mp hwrite⟩, table,
    false, ?_, rfl, ?_⟩
  · rw [hpast]
    exact htable
  · rw [hpast]
    exact hcontinues

def corrects : Call :=
  ⟨.plain, .plain, none, some ada,
    [.update "guestbook" (.number (.int 1)) (.single "author" (.string "Ada"))]⟩

/-- Two signatures overlap, and the second is spliced after the first was stored. Then Ada corrects
her entry alone. -/
theorem no_lost_update_guestbook :
    ∃ s s', Traffic.Run guestbookSchema .plain guestbookLine
        (Orderly guestbookSchema .plain guestbookLine) blank s ∧ s.Quiet ∧ s.commits = 2 ∧
      (guestbookLine.Unheard s ∨ guestbookLine.Current .plain s) ∧
      Traffic.Run guestbookSchema .plain guestbookLine (Requeries guestbookLine 2) s s' ∧
      s'.Quiet ∧ s.commits < s'.commits ∧ guestbookLine.Current .plain s' := by
  let C := Orderly guestbookSchema .plain guestbookLine
  obtain ⟨s₁, hrun₁, hdb₁, hcommits₁, hbroadcast₁, hstored₁, hpast₁, hstages₁⟩ :=
    Traffic.Run.signs (C := C) (s := blank) (i := 0) "ada" [] trivial rfl rfl rfl rfl
  have hblank : s₁.broadcast.value "guestbook" = some (Value.array []).encode := by
    rw [hbroadcast₁]
    decide
  have hada : C s₁ (.splice 0) := by
    intro flight hflight
    obtain rfl := Stage.committed.inj (Option.some.inj ((hstages₁ 0).symm.trans hflight))
    refine signing_splices "ada" [] hstored₁ ?_ rfl
      (signature_continues "ada" [] rfl (by decide) (by unfold SortDir.Places; decide))
    rw [hstored₁]
    exact hpast₁ 0 le_rfl
  obtain ⟨s₂, hrun₂, hpast₂, hcommits₂, hbroadcast₂, hstored₂, hstages₂⟩ :=
    Traffic.Run.spliced hada (hstages₁ 0) hblank
  have hdb₂ : s₂.db = guestbookOf ["ada"] := by
    rw [Traffic.db, hcommits₂, hpast₂]
    exact hdb₁
  -- the second commits before the first is stored, and is spliced after it
  obtain ⟨s₃, hrun₃, hdb₃, hcommits₃, hbroadcast₃, hstored₃, hpast₃, hstages₃⟩ :=
    Traffic.Run.signs (C := C) (i := 1) "alan" ["ada"] trivial ((hstages₂ 1).trans (hstages₁ 1))
      hdb₂ (hcommits₂.trans hcommits₁) rfl
  have hderived : s₃.stages 0 = some (.derived (signing "ada" 1)
      ⟨(Value.array ([] ++ [signature "ada" 1])).encode, 1⟩) := (hstages₃ 0).trans (hstages₂ 0)
  obtain ⟨s₄, hrun₄, hpast₄, hcommits₄, hstored₄, hstages₄, hvalue₄⟩ :=
    Traffic.Run.settled (C := C) trivial hderived (fun mid hmid hle flight answer hstage => by
      obtain ⟨-, rfl⟩ := Stage.registered.inj (Option.some.inj (hmid.symm.trans hstage))
      rw [hstored₃, hstored₂, hstored₁] at hle
      exact hle) fun _ => trivial
  have hcommitted : s₄.stages 1 = some (.committed (signing "alan" 2)) :=
    (hstages₄ 1).trans (hstages₃ 1)
  have halan : C s₄ (.splice 1) := by
    intro flight hflight
    obtain rfl := Stage.committed.inj (Option.some.inj (hcommitted.symm.trans hflight))
    refine signing_splices "alan" ["ada"] hstored₄ ?_ rfl
      (signature_continues "alan" ["ada"] rfl (by decide) (by unfold SortDir.Places; decide))
    rw [hstored₄, hpast₄, hpast₃ 1 (hcommits₂.trans hcommits₁).ge, hpast₂]
    rw [Traffic.db, hcommits₁] at hdb₁
    exact hdb₁
  obtain ⟨s₅, hrun₅, hpast₅, hcommits₅, -, hstored₅, hstages₅⟩ :=
    Traffic.Run.spliced halan hcommitted hvalue₄
  obtain ⟨s₆, hrun₆, hpast₆, hcommits₆, -, hstages₆, -⟩ :=
    Traffic.Run.settled (C := C) trivial (hstages₅ 1) (fun mid hmid hle flight answer hstage => by
      obtain ⟨-, rfl⟩ := Stage.registered.inj (Option.some.inj (hmid.symm.trans hstage))
      rw [hstored₅, hstored₄] at hle
      exact hle) fun _ => trivial
  have hrun : Traffic.Run guestbookSchema .plain guestbookLine C blank s₆ :=
    ((((hrun₁.trans hrun₂).trans hrun₃).trans hrun₄).trans hrun₅).trans hrun₆
  have hcommits : s₆.commits = 2 := by
    rw [hcommits₆, hcommits₅, hcommits₄, hcommits₃]
    rfl
  have hquiet : s₆.Quiet := by
    intro i
    rw [hstages₆, hstages₅, hstages₄, hstages₃, hstages₂, hstages₁]
    split_ifs <;> rfl
  have hdb₆ : s₆.db = guestbookOf ["ada", "alan"] := by
    rw [Traffic.db, hcommits₆, hpast₆, hcommits₅, hpast₅, hcommits₄, hpast₄]
    exact hdb₃
  -- the correction reads the page again
  obtain ⟨t, after, hcommit, hslot, hpartition, hchannel, hmutated, bytes, hread⟩ :
      ∃ t after, commitWrites .plain guestbookSchema corrects.writes (some ada)
          (guestbookOf ["ada", "alan"]) = .ok ([t], after) ∧ t.slot = guestbook ∧
        t.partition = none ∧ t.channel = "guestbook" ∧ t.mutated = true ∧
        ∃ bytes, materializeSlot .plain (.read "guestbook") after guestbook none = .ok bytes :=
    ⟨_, _, rfl, rfl, rfl, rfl, rfl, _, rfl⟩
  have hengine : corrects.substrate.engine = .plain := rfl
  rw [← hdb₆] at hcommit
  rw [← hslot, ← hpartition] at hread
  obtain ⟨s₇, hlone, hquiet₇, hlt⟩ : ∃ s₇, Traffic.Run guestbookSchema .plain guestbookLine
      (Requeries guestbookLine 2) s₆ s₇ ∧ s₇.Quiet ∧ s₆.commits < s₇.commits :=
    Traffic.Run.requery hquiet 2 hengine hslot hpartition hchannel List.mem_cons_self hcommit rfl
      hmutated rfl (hchannel.symm ▸ hread)
  have hkept := no_lost_update List.mem_cons_self blank_fresh (hrun.weaken fun _ _ _ => trivial)
    hquiet
  exact ⟨s₆, s₇, hrun, hquiet, hcommits, hkept.1 hrun, hlone, hquiet₇, hlt,
    hkept.2 2 s₇ hlone hquiet₇ hlt⟩

end Albedo.Forge
