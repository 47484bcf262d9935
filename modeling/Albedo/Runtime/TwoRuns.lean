import Albedo.Runtime.Projection

/-!
# Two registries alike but for their values

Two runs that take the same calls and store different values go through registries that
differ in their values alone: which topics are live, at which slots, who is subscribed
with which columns and which frame comes next never depend on a value.
-/
namespace Albedo.Broadcast
open Json

def Topic.shape (t : Topic) : Topic := { t with value := [] }

structure Twins (reg reg' : Registry) : Prop where
  shape : ∀ x, reg.look Topic.shape x = reg'.look Topic.shape x
  bySession : reg.bySession = reg'.bySession
  slotIds : reg.slotIds = reg'.slotIds
  frames : reg.nextFrameId = reg'.nextFrameId
  tick : reg.tick = reg'.tick

variable {reg reg' : Registry}

theorem Twins.refl (reg : Registry) : Twins reg reg :=
  ⟨fun _ => rfl, rfl, rfl, rfl, rfl⟩

theorem Twins.get (h : Twins reg reg') {x : String} {t : Topic} (ht : reg.get x = some t) :
    ∃ value, reg'.get x = some { t with value } := by
  have hx := h.shape x
  rw [Registry.look, ht, Registry.look] at hx
  obtain ⟨t', ht', hshape⟩ := Option.map_eq_some_iff.mp hx.symm
  refine ⟨t'.value, ?_⟩
  rw [ht']
  cases t
  cases t'
  simp only [Topic.shape, Topic.mk.injEq] at hshape
  simp [hshape]

theorem Twins.get_none (h : Twins reg reg') {x : String} (hx : reg.get x = none) :
    reg'.get x = none := by
  have hshape := h.shape x
  rw [Registry.look, hx, Registry.look] at hshape
  exact Option.map_eq_none_iff.mp hshape.symm

/-! ### Changing one topic -/

theorem Registry.modify_rest (reg : Registry) (topic : String) (f : Topic → Topic) :
    (reg.modify topic f).bySession = reg.bySession ∧
      (reg.modify topic f).slotIds = reg.slotIds ∧
      (reg.modify topic f).nextFrameId = reg.nextFrameId ∧
      (reg.modify topic f).tick = reg.tick := by
  unfold Registry.modify
  cases reg.get topic <;> exact ⟨rfl, rfl, rfl, rfl⟩

theorem Twins.modify (h : Twins reg reg') (topic : String) {f g : Topic → Topic}
    (hf : ∀ (t : Topic) value, (f t).shape = (g { t with value }).shape) :
    Twins (reg.modify topic f) (reg'.modify topic g) := by
  obtain ⟨hsession, hslots, hframes, htick⟩ := reg.modify_rest topic f
  obtain ⟨hsession', hslots', hframes', htick'⟩ := reg'.modify_rest topic g
  refine ⟨fun x => ?_, by rw [hsession, hsession', h.bySession], by rw [hslots, hslots', h.slotIds],
    by rw [hframes, hframes', h.frames], by rw [htick, htick', h.tick]⟩
  rw [Registry.look, Registry.look, Registry.get_modify, Registry.get_modify]
  split_ifs with hx
  · cases ht : reg.get topic with
    | none =>
        rw [h.get_none ht]
        rfl
    | some t =>
        obtain ⟨value, ht'⟩ := h.get ht
        rw [ht']
        exact congrArg some (hf t value)
  · exact h.shape x

theorem Twins.insert (h : Twins reg reg') (topic : String) (t : Topic) (value : List Char) :
    Twins { reg with topics := reg.topics.insert topic t }
      { reg' with topics := reg'.topics.insert topic { t with value } } := by
  refine ⟨fun x => ?_, h.bySession, h.slotIds, h.frames, h.tick⟩
  have hreg := Registry.look_of_insert (p := Topic.shape) reg
    (r := { reg with topics := reg.topics.insert topic t }) rfl x
  have hreg' := Registry.look_of_insert (p := Topic.shape) reg'
    (r := { reg' with topics := reg'.topics.insert topic { t with value } }) rfl x
  rw [hreg, hreg', h.shape x]
  rfl

theorem Twins.ticked (h : Twins reg reg') {n n' : ℕ} (hn : n = n') :
    Twins { reg with tick := n } { reg' with tick := n' } :=
  ⟨h.shape, h.bySession, h.slotIds, h.frames, hn⟩

/-! ### The calls -/

theorem Twins.forgetAll (h : Twins reg reg') (topics : List String) (s : SessionId) :
    Twins (topics.foldl (fun (reg : Registry) topic => reg.modify topic fun t => t.forget s) reg)
      (topics.foldl (fun (reg : Registry) topic => reg.modify topic fun t => t.forget s) reg') := by
  induction topics generalizing reg reg' with
  | nil => exact h
  | cons topic topics ih => exact ih (h.modify topic fun _ _ => rfl)

theorem Twins.cleanupSession (h : Twins reg reg') (s : SessionId) :
    Twins (reg.cleanupSession s) (reg'.cleanupSession s) := by
  unfold Registry.cleanupSession
  rw [h.bySession]
  cases reg'.bySession.lookup s with
  | none => exact h
  | some topics =>
      have herased : Twins { reg with bySession := reg'.bySession.erase s }
          { reg' with bySession := reg'.bySession.erase s } :=
        ⟨h.shape, rfl, h.slotIds, h.frames, h.tick⟩
      exact herased.forgetAll topics s

theorem Twins.unsubscribe (h : Twins reg reg') (s : SessionId) (topic : String) :
    Twins (reg.unsubscribe s topic) (reg'.unsubscribe s topic) := by
  have hforget : Twins (reg.modify topic fun t => t.forget s)
      (reg'.modify topic fun t => t.forget s) := h.modify topic fun _ _ => rfl
  unfold Registry.unsubscribe
  dsimp only
  rw [hforget.bySession]
  cases (reg'.modify topic fun t => t.forget s).bySession.lookup s with
  | none => exact hforget
  | some topics => exact ⟨hforget.shape, rfl, hforget.slotIds, hforget.frames, hforget.tick⟩

theorem Twins.dropSessions (h : Twins reg reg') (topic : String) (sessions : List SessionId) :
    Twins (sessions.foldl (fun reg session => reg.dropSession topic session) reg)
      (sessions.foldl (fun reg session => reg.dropSession topic session) reg') := by
  induction sessions generalizing reg reg' with
  | nil => exact h
  | cons s sessions ih => exact ih ((h.unsubscribe s topic).cleanupSession s)

theorem Twins.topicWithIdentity (h : Twins reg reg') (topic : String) (initial initial' : List Char)
    (identity : TopicIdentity) : Twins (reg.topicWithIdentity topic initial identity)
      (reg'.topicWithIdentity topic initial' identity) := by
  unfold Registry.topicWithIdentity
  cases ht : reg.get topic with
  | some t =>
      obtain ⟨value, ht'⟩ := h.get ht
      simp only [ht', Option.isSome_some, if_true]
      exact h
  | none =>
      have hshape : ∀ x, (reg.topicWithIdentity topic initial identity).look Topic.shape x =
          (reg'.topicWithIdentity topic initial' identity).look Topic.shape x := by
        intro x
        rw [Registry.look_topicWithIdentity, Registry.look_topicWithIdentity, h.shape topic,
          h.shape x, h.tick]
        rfl
      unfold Registry.topicWithIdentity at hshape
      simp only [ht, h.get_none ht, Option.isSome_none, Bool.false_eq_true, if_false] at hshape ⊢
      exact ⟨hshape, h.bySession, by rw [h.slotIds], h.frames, congrArg (· + 1) h.tick⟩

theorem Twins.tryTopicWithIdentity (h : Twins reg reg') (topic : String)
    (initial initial' : List Char) (identity : TopicIdentity) :
    Twins ((reg.tryTopicWithIdentity topic initial identity).toOption.getD reg)
      ((reg'.tryTopicWithIdentity topic initial' identity).toOption.getD reg') := by
  unfold Registry.tryTopicWithIdentity
  cases ht : reg.get topic with
  | some t =>
      obtain ⟨value, ht'⟩ := h.get ht
      simp only [ht', Option.isSome_some, if_true]
      exact h
  | none =>
      have hguard : reg.guardSlotId topic = reg'.guardSlotId topic := by
        rw [Registry.guardSlotId, Registry.guardSlotId, h.slotIds]
      simp only [h.get_none ht, Option.isSome_none, Bool.false_eq_true, if_false, hguard]
      cases reg'.guardSlotId topic with
      | error err => exact h
      | ok _ => exact h.topicWithIdentity topic initial initial' identity

theorem Twins.touch (h : Twins reg reg') (topic : String) :
    Twins (reg.touch topic).2 (reg'.touch topic).2 := by
  unfold Registry.touch
  cases ht : reg.get topic with
  | none =>
      rw [h.get_none ht]
      exact h
  | some t =>
      obtain ⟨value, ht'⟩ := h.get ht
      rw [ht']
      have htouched := h.modify topic (f := fun t => { t with touched := reg.tick })
        (g := fun t => { t with touched := reg'.tick }) fun _ _ => by rw [h.tick]; rfl
      exact htouched.ticked (congrArg (· + 1) h.tick)

theorem Twins.noteTopic (h : Twins reg reg') (session : SessionId) (topic : String) :
    Twins (reg.noteTopic session topic) (reg'.noteTopic session topic) :=
  ⟨h.shape, by rw [Registry.noteTopic, Registry.noteTopic, h.bySession], h.slotIds, h.frames,
    h.tick⟩

theorem Twins.subscribe (h : Twins reg reg') (session : SessionId) (topic : String)
    (sender : Sender) :
    Twins (reg.subscribe session topic sender).2 (reg'.subscribe session topic sender).2 := by
  unfold Registry.subscribe
  cases ht : reg.get topic with
  | none =>
      rw [h.get_none ht]
      exact h
  | some t =>
      obtain ⟨value, ht'⟩ := h.get ht
      rw [ht']
      have henrolled := h.modify topic
        (f := fun t => { t.enrol session sender none with touched := reg.tick })
        (g := fun t => { t.enrol session sender none with touched := reg'.tick })
        fun _ _ => by rw [h.tick]; rfl
      exact (henrolled.ticked (congrArg (· + 1) h.tick)).noteTopic session topic

theorem Twins.grant (h : Twins reg reg') (wire : Wire) (session : SessionId) (sender : Sender)
    (seed seed' : GrantedSeed) (grant : TopicGrant) :
    Twins (reg.grant wire session sender seed grant).2
      (reg'.grant wire session sender seed' grant).2 := by
  have htopic := h.topicWithIdentity grant.topic [] [] .static
  unfold Registry.grant Registry.topic
  dsimp only
  cases ht : (reg.topicWithIdentity grant.topic [] .static).get grant.topic with
  | none =>
      rw [htopic.get_none ht]
      exact htopic
  | some t =>
      obtain ⟨value, ht'⟩ := htopic.get ht
      rw [ht']
      exact Twins.noteTopic (htopic.modify grant.topic fun _ _ => rfl) session grant.topic

theorem Twins.dropIfIdle (h : Twins reg reg') (topic : String) :
    Twins (reg.dropIfIdle topic).2 (reg'.dropIfIdle topic).2 := by
  unfold Registry.dropIfIdle
  cases ht : reg.get topic with
  | none =>
      rw [h.get_none ht]
      exact h
  | some t =>
      obtain ⟨value, ht'⟩ := h.get ht
      rw [ht']
      cases hidle : t.identity.isEvictable && t.subscribers.keys.isEmpty with
      | false =>
          simp only [hidle, Bool.false_eq_true, if_false]
          exact h
      | true =>
          simp only [hidle, if_true]
          refine ⟨fun x => ?_, h.bySession, by rw [h.slotIds], h.frames, h.tick⟩
          by_cases hx : x = topic
          · subst hx
            simp [Registry.look, Registry.get]
          · simpa [Registry.look, Registry.get, AList.lookup_erase_ne hx] using h.shape x

/-! ### One fan-out -/

/-- The host looks at no value: whether a frame encodes, and how a sink takes it, depend on
which frame it is and not on what it carries. `json` is what its reader reads. -/
structure Wire.Blind (json : List Char → Option Value) (wire : Wire) : Prop where
  json_eq : wire.json = json
  encodes_eq : ∀ frame frame' : OpcodeFrame, frame.frameId = frame'.frameId →
    wire.encodes frame = wire.encodes frame'
  trySend_eq : ∀ sender (frame frame' : OpcodeFrame), frame.frameId = frame'.frameId →
    wire.trySend sender frame = wire.trySend sender frame'

theorem frameFor_frameId (wire : Wire) (t : Topic) (session : SessionId) (frame : OpcodeFrame) :
    (frameFor wire t session frame).frameId = frame.frameId := by
  unfold frameFor
  cases frame.instruction <;> cases t.projections.lookup session <;> rfl

/-- Two reports of one fan-out: the same subscribers are reached and dropped, each reached
one with its own frame. -/
structure SameFate (wire : Wire) (t t' : Topic) (frame frame' : OpcodeFrame)
    (report report' : BroadcastDelivery) : Prop where
  full : report.droppedFull = report'.droppedFull
  closed : report.droppedClosed = report'.droppedClosed
  delivered : List.Forall₂ (fun p p' => p.1 = p'.1 ∧ (t.subscribers.lookup p.1).isSome ∧
    p.2 = frameFor wire t p.1 frame ∧ p'.2 = frameFor wire t' p.1 frame')
    report.delivered report'.delivered

theorem SameFate.send {wire : Wire} {json : List Char → Option Value} (hblind : wire.Blind json)
    {t t' : Topic} {frame frame' : OpcodeFrame} (hid : frame.frameId = frame'.frameId)
    {report report' : BroadcastDelivery} (h : SameFate wire t t' frame frame' report report')
    {entry : Sigma fun _ : SessionId => Sender} (hentry : entry ∈ t.subscribers.entries) :
    SameFate wire t t' frame frame' (reportSend wire t frame report entry)
      (reportSend wire t' frame' report' entry) := by
  have hown : (frameFor wire t entry.1 frame).frameId = (frameFor wire t' entry.1 frame').frameId := by
    rw [frameFor_frameId, frameFor_frameId, hid]
  unfold reportSend
  dsimp only
  rw [hblind.encodes_eq _ _ hown, hblind.trySend_eq entry.2 _ _ hown]
  cases wire.encodes (frameFor wire t' entry.1 frame') with
  | false => exact ⟨h.full, by simp [h.closed], h.delivered⟩
  | true =>
      simp only [Bool.not_true, Bool.false_eq_true, if_false]
      cases wire.trySend entry.2 (frameFor wire t' entry.1 frame') with
      | sent =>
          refine ⟨h.full, h.closed, List.rel_append h.delivered ?_⟩
          have hlook : t.subscribers.lookup entry.1 = some entry.2 := AList.mem_lookup_iff.mpr hentry
          exact .cons ⟨rfl, by rw [hlook]; rfl, rfl, rfl⟩ .nil
      | full => exact ⟨by simp [h.full], h.closed, h.delivered⟩
      | closed => exact ⟨h.full, by simp [h.closed], h.delivered⟩

theorem fanOutReport_sameFate {wire : Wire} {json : List Char → Option Value}
    (hblind : wire.Blind json) (t : Topic) (value : List Char) {frame frame' : OpcodeFrame}
    (hid : frame.frameId = frame'.frameId) :
    SameFate wire t { t with value } frame frame' (fanOutReport wire t frame)
      (fanOutReport wire { t with value } frame') := by
  rw [fanOutReport_eq, fanOutReport_eq]
  have hfold : ∀ entries ⊆ t.subscribers.entries, ∀ report report' : BroadcastDelivery,
      SameFate wire t { t with value } frame frame' report report' →
      SameFate wire t { t with value } frame frame'
        (entries.foldl (reportSend wire t frame) report)
        (entries.foldl (reportSend wire { t with value } frame') report') := by
    intro entries
    induction entries with
    | nil => exact fun _ _ _ h => h
    | cons entry entries ih =>
        intro hsub report report' h
        obtain ⟨hentry, hsub⟩ := List.cons_subset.mp hsub
        exact ih hsub _ _ (h.send hblind hid hentry)
  exact hfold _ (List.Subset.refl _) _ _ ⟨rfl, rfl, .nil⟩

theorem Twins.settled (h : Twins reg reg') (topic : String) {sessions sessions' : List SessionId}
    (hs : sessions = sessions') :
    Twins (reg.settled topic sessions) (reg'.settled topic sessions') := by
  subst hs
  have hdropped := h.dropSessions topic sessions
  have htouched := hdropped.modify topic
    (f := fun t => { t with touched :=
      (sessions.foldl (fun reg session => reg.dropSession topic session) reg).tick })
    (g := fun t => { t with touched :=
      (sessions.foldl (fun reg session => reg.dropSession topic session) reg').tick })
    fun _ _ => by rw [hdropped.tick]; rfl
  exact htouched.ticked (congrArg (· + 1) hdropped.tick)

theorem Twins.written (h : Twins reg reg') (topic : String) (t : Topic) (value : List Char) :
    Twins (reg.written topic t) (reg'.written topic { t with value }) :=
  ⟨(h.insert topic t value).shape, h.bySession, h.slotIds, congrArg (· + 1) h.frames, h.tick⟩

theorem Twins.writeTopicDelta (h : Twins reg reg') {wire : Wire}
    {json : List Char → Option Value} (hblind : wire.Blind json) (topic : String)
    (compute compute' : List Char → TopicTransition) :
    Twins (reg.writeTopicDelta wire topic compute).2
      (reg'.writeTopicDelta wire topic compute').2 := by
  cases ht : reg.get topic with
  | none =>
      rw [Registry.writeTopicDelta, Registry.writeTopicDelta, ht, h.get_none ht]
      exact h
  | some t =>
      obtain ⟨value, ht'⟩ := h.get ht
      have hid : (reg.frameOf t (compute t.value)).frameId =
          (reg'.frameOf { t with value } (compute' value)).frameId := h.frames
      have hfate := fanOutReport_sameFate hblind (t.written (compute t.value))
        (compute' value).value hid
      have hwritten := h.written topic (t.written (compute t.value)) (compute' value).value
      rw [Registry.writeTopicDelta_eq ht, Registry.writeTopicDelta_eq ht',
        hblind.encodes_eq _ _ hid]
      split_ifs
      · exact hwritten.settled topic (congrArg₂ (· ++ ·) hfate.full hfate.closed)
      · exact hwritten

end Albedo.Broadcast
