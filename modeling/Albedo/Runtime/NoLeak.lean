import Albedo.Runtime.TwoRuns

/-!
# Projection leaks nothing

What a session is shown by a call is the value of a topic, cut to the columns it holds
there at that moment. Two runs of the same calls whose values agree on those columns, at
every such moment, show it the same.
-/
namespace Albedo.Broadcast
open Json

/-! ### What a session is shown -/

/-- What a session receives: a seed of its grants, the value a plain subscription joins at,
or a frame. -/
inductive Shown where
  | seed (instruction : Instruction)
  | value (text : List Char)
  | frame (frame : OpcodeFrame)

def Instruction.snapshot : Instruction → Option (List Char)
  | .slotSet _ value => some value
  | _ => none

def Shown.snapshot : Shown → Option (List Char)
  | .seed instruction => instruction.snapshot
  | .value text => some text
  | .frame own => own.instruction.snapshot

def Registry.shown (reg : Registry) (session : SessionId) : Op → List Shown
  | .subscribe s topic sender =>
      match (reg.subscribe s topic sender).1 with
      | .ok value => if s = session then [.value value] else []
      | .error _ => []
  | .subscribeGranted wire s sender grants =>
      if s = session then
        (reg.subscribeGranted wire s sender grants).1.instructions.map Shown.seed
      else []
  | .writeTopicDelta wire topic compute =>
      match (reg.writeTopicDelta wire topic compute).1 with
      | .ok report => (report.delivered.filter fun p => p.1 = session).map fun p => .frame p.2
      | .error _ => []
  | _ => []

/-- The registries in which the grants of one subscription are seeded, one after another. -/
def Registry.grantMoments (reg : Registry) (wire : Wire) (session : SessionId) (sender : Sender) :
    List TopicGrant → List Registry
  | [] => []
  | grant :: grants =>
      let next := (reg.grant wire session sender ⟨[], []⟩ grant).2
      next :: next.grantMoments wire session sender grants

/-- The registries in which a call shows something: after each grant, once a write has
stored its value, and otherwise when the call is done. -/
def Registry.moments (reg : Registry) : Op → List Registry
  | .subscribeGranted wire session sender grants => reg.grantMoments wire session sender grants
  | .writeTopicDelta _ topic compute =>
      match reg.get topic with
      | some t => [reg.written topic (t.written (compute t.value))]
      | none => [reg]
  | op => [reg.perform op]

/-! ### What is shown is a value cut to the columns held -/

theorem Topic.enrol_held (t : Topic) (session : SessionId) (sender : Sender)
    (columns : Option Columns) : (t.enrol session sender columns).subscribers.lookup session =
      some sender ∧ (t.enrol session sender columns).projections.lookup session = columns := by
  cases columns with
  | none => exact ⟨AList.lookup_insert _, AList.lookup_erase _ _⟩
  | some columns => exact ⟨AList.lookup_insert _, AList.lookup_insert _⟩

/-- A grant seeds the value of its topic, cut to its columns, and leaves the session
subscribed with them. -/
theorem Registry.grant_seeds (reg : Registry) (wire : Wire) (session : SessionId) (sender : Sender)
    (seed : GrantedSeed) (grant : TopicGrant) : ∃ t,
      (reg.grant wire session sender seed grant).2.get grant.topic = some t ∧
      t.subscribers.lookup session = some sender ∧
      t.projections.lookup session = grant.columns ∧
      (reg.grant wire session sender seed grant).1.instructions = seed.instructions ++
        [.slotSet t.slotId (shownValue wire grant.columns t.value)] := by
  obtain ⟨t, ht⟩ : ∃ t, (reg.topic grant.topic []).get grant.topic = some t := by
    have hlook := reg.look_topicWithIdentity (p := id) grant.topic grant.topic [] .static
    rw [if_pos rfl] at hlook
    obtain ⟨t, ht, _⟩ := Option.map_eq_some_iff.mp hlook
    exact ⟨t, ht⟩
  refine ⟨t.enrol session sender grant.columns, ?_, (t.enrol_held session sender _).1,
    (t.enrol_held session sender _).2, ?_⟩
  · unfold Registry.grant
    simp only [ht]
    refine (Registry.get_modify (reg.topic grant.topic []) grant.topic grant.topic
      (fun t => t.enrol session sender grant.columns)).trans ?_
    rw [if_pos rfl, ht]
    rfl
  · unfold Registry.grant
    simp only [ht]
    rfl

theorem Registry.grant_registry (reg : Registry) (wire : Wire) (session : SessionId)
    (sender : Sender) (seed seed' : GrantedSeed) (grant : TopicGrant) :
    (reg.grant wire session sender seed grant).2 =
      (reg.grant wire session sender seed' grant).2 := by
  unfold Registry.grant
  dsimp only
  cases (reg.topic grant.topic []).get grant.topic <;> rfl

theorem frameFor_snapshot (wire : Wire) (t : Topic) (session : SessionId) (frame : OpcodeFrame) :
    frameFor wire t session frame =
      match frame.instruction with
      | .slotSet slotId value => ⟨frame.frameId,
          .slotSet slotId (shownValue wire (t.projections.lookup session) value)⟩
      | _ => frame := by
  unfold frameFor shownValue
  cases h : frame.instruction with
  | slotSet slotId value =>
      cases t.projections.lookup session with
      | none =>
          dsimp only
          rw [← h]
      | some columns => rfl
  | _ => cases t.projections.lookup session <;> rfl

theorem frameFor_other (wire : Wire) (t : Topic) (session : SessionId) {frame : OpcodeFrame}
    (h : frame.instruction.snapshot = none) : frameFor wire t session frame = frame := by
  rw [frameFor_snapshot]
  cases hinstruction : frame.instruction with
  | slotSet slotId value =>
      rw [hinstruction] at h
      exact nomatch h
  | _ => rfl

theorem TopicTransition.instruction_eq (transition : TopicTransition) (slotId : SlotId) :
    transition.instruction slotId = .slotSet slotId transition.value ∨
      (transition.instruction slotId).snapshot = none := by
  unfold TopicTransition.instruction listInstruction
  cases transition.update with
  | none => exact Or.inl rfl
  | delta changes => dsimp only; split_ifs <;> simp [Instruction.snapshot]
  | insert before rows => dsimp only; split_ifs <;> simp [Instruction.snapshot]
  | reconcile rows => exact Or.inr rfl

/-! ### Runs side by side -/

/-- Two calls that differ in the values they carry alone, below hosts that look at none. -/
inductive SameCall (json : List Char → Option Value) : Op → Op → Prop where
  | topic (name : String) (initial initial' : List Char) :
      SameCall json (.topic name initial) (.topic name initial')
  | tryTopic (name : String) (initial initial' : List Char) :
      SameCall json (.tryTopic name initial) (.tryTopic name initial')
  | tryTopicPartition (name collection key : String) (initial initial' : List Char) :
      SameCall json (.tryTopicPartition name collection key initial)
        (.tryTopicPartition name collection key initial')
  | touch (name : String) : SameCall json (.touch name) (.touch name)
  | subscribe (session : SessionId) (topic : String) (sender : Sender) :
      SameCall json (.subscribe session topic sender) (.subscribe session topic sender)
  | subscribeGranted {wire : Wire} (hblind : wire.Blind json) (session : SessionId)
      (sender : Sender) (grants : List TopicGrant) :
      SameCall json (.subscribeGranted wire session sender grants)
        (.subscribeGranted wire session sender grants)
  | unsubscribe (session : SessionId) (topic : String) :
      SameCall json (.unsubscribe session topic) (.unsubscribe session topic)
  | cleanupSession (session : SessionId) :
      SameCall json (.cleanupSession session) (.cleanupSession session)
  | writeTopicDelta {wire : Wire} (hblind : wire.Blind json) (topic : String)
      (compute compute' : List Char → TopicTransition) :
      SameCall json (.writeTopicDelta wire topic compute) (.writeTopicDelta wire topic compute')
  | dropIfIdle (topic : String) : SameCall json (.dropIfIdle topic) (.dropIfIdle topic)

/-- Wherever the session is subscribed, the two values meet a condition on the columns it
holds there. -/
def Alike (Q : Option Columns → List Char → List Char → Prop) (session : SessionId)
    (reg reg' : Registry) : Prop :=
  ∀ topic t t', reg.get topic = some t → reg'.get topic = some t' →
    (t.subscribers.lookup session).isSome → Q (t.projections.lookup session) t.value t'.value

def Shown.Same (a b : Shown) : Prop := a.snapshot.isSome → b.snapshot.isSome → a = b

/-- A relation between what two runs do, at each of their calls. -/
def SideBySide (R : Registry → Op → Registry → Op → Prop) :
    Registry → Registry → List (Op × Op) → Prop
  | _, _, [] => True
  | reg, reg', (op, op') :: calls =>
      R reg op reg' op' ∧ SideBySide R (reg.perform op) (reg'.perform op') calls

/-- The values of the two runs meet a condition at every moment something is shown. -/
def ValuesMeet (Q : Option Columns → List Char → List Char → Prop) (session : SessionId) :
    Registry → Registry → List (Op × Op) → Prop :=
  SideBySide fun reg op reg' op' => List.Forall₂ (Alike Q session) (reg.moments op) (reg'.moments op')

def ShowSame (session : SessionId) : Registry → Registry → List (Op × Op) → Prop :=
  SideBySide fun reg op reg' op' =>
    List.Forall₂ Shown.Same (reg.shown session op) (reg'.shown session op')

/-! ### One call -/

variable {reg reg' : Registry} {json : List Char → Option Value} {session : SessionId}

theorem Twins.perform (h : Twins reg reg') {op op' : Op} (hcall : SameCall json op op') :
    Twins (reg.perform op) (reg'.perform op') := by
  cases hcall with
  | topic name initial initial' => exact h.topicWithIdentity name initial initial' .static
  | tryTopic name initial initial' => exact h.tryTopicWithIdentity name initial initial' .static
  | tryTopicPartition name collection key initial initial' =>
      exact h.tryTopicWithIdentity name initial initial' (.partition collection key)
  | touch name => exact h.touch name
  | subscribe s topic sender => exact h.subscribe s topic sender
  | @subscribeGranted wire hblind s sender grants =>
      have hfold : ∀ (grants : List TopicGrant) (acc acc' : GrantedSeed × Registry),
          Twins acc.2 acc'.2 →
          Twins (grants.foldl (fun acc grant => acc.2.grant wire s sender acc.1 grant) acc).2
            (grants.foldl (fun acc grant => acc.2.grant wire s sender acc.1 grant) acc').2 := by
        intro grants
        induction grants with
        | nil => exact fun _ _ hacc => hacc
        | cons grant grants ih =>
            exact fun acc acc' hacc => ih _ _ (hacc.grant wire s sender acc.1 acc'.1 grant)
      exact hfold grants _ _ h
  | unsubscribe s topic => exact h.unsubscribe s topic
  | cleanupSession s => exact h.cleanupSession s
  | writeTopicDelta hblind topic compute compute' =>
      exact h.writeTopicDelta hblind topic compute compute'
  | dropIfIdle topic => exact h.dropIfIdle topic

theorem Registry.subscribe_held {t : Topic} {s : SessionId} {topic : String}
    (ht : reg.get topic = some t) (sender : Sender) :
    (reg.subscribe s topic sender).1 = .ok t.value ∧ ∃ u : Topic,
      (reg.subscribe s topic sender).2.get topic = some u ∧ u.value = t.value ∧
        u.subscribers.lookup s = some sender ∧ u.projections.lookup s = none := by
  unfold Registry.subscribe
  rw [ht]
  refine ⟨rfl, { t.enrol s sender none with touched := reg.tick }, ?_, rfl,
    (t.enrol_held s sender none).1, (t.enrol_held s sender none).2⟩
  refine (Registry.get_modify reg topic topic _).trans ?_
  rw [if_pos rfl, ht]
  rfl

theorem shownValue_eq_of_blind {wire : Wire} (hblind : wire.Blind json) {columns : Option Columns}
    {v w : List Char} (hagree : Agree json columns v w) (hshallow : Shallow json columns v w) :
    shownValue wire columns v = shownValue wire columns w := by
  rw [← hblind.json_eq] at hagree hshallow
  exact shownValue_eq hagree hshallow

theorem subscribe_same (h : Twins reg reg') (s : SessionId) (topic : String) (sender : Sender)
    (hagree : Alike (Agree json) session (reg.subscribe s topic sender).2
      (reg'.subscribe s topic sender).2) :
    List.Forall₂ Shown.Same (reg.shown session (.subscribe s topic sender))
      (reg'.shown session (.subscribe s topic sender)) := by
  cases ht : reg.get topic with
  | none =>
      simp only [Registry.shown, Registry.subscribe, ht, h.get_none ht]
      exact .nil
  | some t =>
      obtain ⟨value, ht'⟩ := h.get ht
      obtain ⟨hshown, u, hu, huvalue, husub, huproj⟩ := Registry.subscribe_held (s := s) ht sender
      obtain ⟨hshown', u', hu', huvalue', _, _⟩ := Registry.subscribe_held (s := s) ht' sender
      simp only [Registry.shown, hshown, hshown']
      split_ifs with hs
      · subst hs
        have hvalues := hagree topic u u' hu hu' (by rw [husub]; rfl)
        rw [huproj, huvalue, huvalue'] at hvalues
        have hvalues : t.value = value := hvalues
        rw [hvalues]
        exact .cons (fun _ _ => rfl) .nil
      · exact .nil

theorem grants_same {wire : Wire} (hblind : wire.Blind json) (sender : Sender)
    (grants : List TopicGrant) (seed seed' : GrantedSeed) (h : Twins reg reg')
    (hagree : List.Forall₂ (Alike (Agree json) session)
      (reg.grantMoments wire session sender grants) (reg'.grantMoments wire session sender grants))
    (hshallow : List.Forall₂ (Alike (Shallow json) session)
      (reg.grantMoments wire session sender grants) (reg'.grantMoments wire session sender grants))
    (hseed : seed.instructions = seed'.instructions) :
    (grants.foldl (fun acc grant => acc.2.grant wire session sender acc.1 grant)
        (seed, reg)).1.instructions =
      (grants.foldl (fun acc grant => acc.2.grant wire session sender acc.1 grant)
        (seed', reg')).1.instructions := by
  induction grants generalizing reg reg' seed seed' with
  | nil => exact hseed
  | cons grant grants ih =>
      obtain ⟨hagree, hagrees⟩ := List.forall₂_cons.mp hagree
      obtain ⟨hshallow, hshallows⟩ := List.forall₂_cons.mp hshallow
      have hnext := h.grant wire session sender seed seed' grant
      rw [reg.grant_registry wire session sender ⟨[], []⟩ seed grant,
        reg'.grant_registry wire session sender ⟨[], []⟩ seed' grant] at hagree hagrees
      rw [reg.grant_registry wire session sender ⟨[], []⟩ seed grant,
        reg'.grant_registry wire session sender ⟨[], []⟩ seed' grant] at hshallow hshallows
      obtain ⟨t, ht, hsub, hcolumns, hseeds⟩ := reg.grant_seeds wire session sender seed grant
      obtain ⟨t', ht', _, _, hseeds'⟩ := reg'.grant_seeds wire session sender seed' grant
      obtain ⟨value, hvalue⟩ := hnext.get ht
      obtain rfl := Option.some.inj (ht'.symm.trans hvalue)
      have hsubscribed : (t.subscribers.lookup session).isSome := by rw [hsub]; rfl
      have hshown := shownValue_eq_of_blind hblind (hagree grant.topic _ _ ht ht' hsubscribed)
        (hshallow grant.topic _ _ ht ht' hsubscribed)
      rw [hcolumns] at hshown
      have hnextSeed : (reg.grant wire session sender seed grant).1.instructions =
          (reg'.grant wire session sender seed' grant).1.instructions := by
        rw [hseeds, hseeds', hseed, hshown]
      exact ih _ _ hnext hagrees hshallows hnextSeed

theorem frameFor_same {wire : Wire} {t t' : Topic} {frame frame' : OpcodeFrame}
    {transition transition' : TopicTransition} {slotId : SlotId}
    (hid : frame.frameId = frame'.frameId)
    (hframe : frame.instruction = transition.instruction slotId)
    (hframe' : frame'.instruction = transition'.instruction slotId)
    (hcolumns : t'.projections.lookup session = t.projections.lookup session)
    (hshown : shownValue wire (t.projections.lookup session) transition.value =
      shownValue wire (t.projections.lookup session) transition'.value) :
    Shown.Same (.frame (frameFor wire t session frame))
      (.frame (frameFor wire t' session frame')) := by
  intro hsome hsome'
  rcases transition.instruction_eq slotId with hset | hnone
  · rcases transition'.instruction_eq slotId with hset' | hnone'
    · rw [frameFor_snapshot, frameFor_snapshot, hframe, hframe', hset, hset', hcolumns, hid]
      dsimp only
      rw [hshown]
    · rw [← hframe'] at hnone'
      rw [frameFor_other wire t' session hnone', Shown.snapshot, hnone'] at hsome'
      exact nomatch hsome'
  · rw [← hframe] at hnone
    rw [frameFor_other wire t session hnone, Shown.snapshot, hnone] at hsome
    exact nomatch hsome

theorem delivered_same {wire : Wire} {t t' : Topic} {frame frame' : OpcodeFrame}
    {delivered delivered' : List (SessionId × OpcodeFrame)}
    (hown : (t.subscribers.lookup session).isSome →
      Shown.Same (.frame (frameFor wire t session frame))
        (.frame (frameFor wire t' session frame')))
    (h : List.Forall₂ (fun p p' => p.1 = p'.1 ∧ (t.subscribers.lookup p.1).isSome ∧
      p.2 = frameFor wire t p.1 frame ∧ p'.2 = frameFor wire t' p.1 frame') delivered delivered') :
    List.Forall₂ Shown.Same
      ((delivered.filter fun p => p.1 = session).map fun p => .frame p.2)
      ((delivered'.filter fun p => p.1 = session).map fun p => .frame p.2) := by
  induction h with
  | nil => exact .nil
  | @cons p p' delivered delivered' hp _ ih =>
      obtain ⟨hsession, hsubscribed, hframe, hframe'⟩ := hp
      by_cases hs : p.1 = session
      · rw [hs] at hsession hsubscribed hframe hframe'
        rw [List.filter_cons_of_pos (by simpa using hs),
          List.filter_cons_of_pos (by simpa using hsession.symm), List.map_cons, List.map_cons,
          hframe, hframe']
        exact .cons (hown hsubscribed) ih
      · have hs' : p'.1 ≠ session := by rwa [← hsession]
        rwa [List.filter_cons_of_neg (by simpa using hs),
          List.filter_cons_of_neg (by simpa using hs')]

theorem Registry.get_written (reg : Registry) (topic : String) (t : Topic) :
    (reg.written topic t).get topic = some t :=
  AList.lookup_insert _

theorem write_same {wire : Wire} (hblind : wire.Blind json) (h : Twins reg reg') (topic : String)
    (compute compute' : List Char → TopicTransition)
    (hagree : List.Forall₂ (Alike (Agree json) session)
      (reg.moments (.writeTopicDelta wire topic compute))
      (reg'.moments (.writeTopicDelta wire topic compute')))
    (hshallow : List.Forall₂ (Alike (Shallow json) session)
      (reg.moments (.writeTopicDelta wire topic compute))
      (reg'.moments (.writeTopicDelta wire topic compute'))) :
    List.Forall₂ Shown.Same (reg.shown session (.writeTopicDelta wire topic compute))
      (reg'.shown session (.writeTopicDelta wire topic compute')) := by
  cases ht : reg.get topic with
  | none =>
      simp only [Registry.shown, Registry.writeTopicDelta, ht, h.get_none ht]
      exact .nil
  | some t =>
      obtain ⟨value, ht'⟩ := h.get ht
      simp only [Registry.moments, ht, ht'] at hagree hshallow
      obtain ⟨hagree, -⟩ := List.forall₂_cons.mp hagree
      obtain ⟨hshallow, -⟩ := List.forall₂_cons.mp hshallow
      have hid : (reg.frameOf t (compute t.value)).frameId =
          (reg'.frameOf { t with value } (compute' value)).frameId := h.frames
      have hfate := fanOutReport_sameFate hblind (t.written (compute t.value))
        (compute' value).value hid
      simp only [Registry.shown, Registry.writeTopicDelta_eq ht, Registry.writeTopicDelta_eq ht',
        hblind.encodes_eq _ _ hid]
      split_ifs
      · have hown : (t.subscribers.lookup session).isSome → Shown.Same
            (.frame (frameFor wire (t.written (compute t.value)) session
              (reg.frameOf t (compute t.value))))
            (.frame (frameFor wire (Topic.written { t with value } (compute' value)) session
              (reg'.frameOf { t with value } (compute' value)))) := by
          intro hsubscribed
          have hmoment := Registry.get_written reg topic (t.written (compute t.value))
          have hmoment' := Registry.get_written reg' topic
            (Topic.written { t with value } (compute' value))
          exact frameFor_same hid rfl rfl rfl (shownValue_eq_of_blind hblind
            (hagree topic _ _ hmoment hmoment' hsubscribed)
            (hshallow topic _ _ hmoment hmoment' hsubscribed))
        exact delivered_same hown hfate.delivered
      · exact .nil

theorem shown_same (h : Twins reg reg') {op op' : Op} (hcall : SameCall json op op')
    (hagree : List.Forall₂ (Alike (Agree json) session) (reg.moments op) (reg'.moments op'))
    (hshallow : List.Forall₂ (Alike (Shallow json) session) (reg.moments op) (reg'.moments op')) :
    List.Forall₂ Shown.Same (reg.shown session op) (reg'.shown session op') := by
  cases hcall with
  | subscribe s topic sender => exact subscribe_same h s topic sender (List.forall₂_cons.mp hagree).1
  | @subscribeGranted wire hblind s sender grants =>
      simp only [Registry.shown]
      split_ifs with hs
      · subst hs
        have hseeds := grants_same hblind sender grants ⟨[], []⟩ ⟨[], []⟩ h hagree hshallow rfl
        rw [Registry.subscribeGranted, Registry.subscribeGranted, hseeds]
        exact List.forall₂_same.mpr fun _ _ _ _ => rfl
      · exact .nil
  | writeTopicDelta hblind topic compute compute' =>
      exact write_same hblind h topic compute compute' hagree hshallow
  | _ => exact .nil

/-! ### Runs -/

/-- Two runs whose values differ only in columns a session does not hold, and nest no deeper
than the reader goes where they are cut, show it the same snapshots. -/
theorem runs_showSame {calls : List (Op × Op)} (h : Twins reg reg')
    (hcalls : ∀ call ∈ calls, SameCall json call.1 call.2)
    (hagree : ValuesMeet (Agree json) session reg reg' calls)
    (hshallow : ValuesMeet (Shallow json) session reg reg' calls) :
    ShowSame session reg reg' calls := by
  induction calls generalizing reg reg' with
  | nil => trivial
  | cons call calls ih =>
      obtain ⟨hcall, hcalls⟩ := List.forall_mem_cons.mp hcalls
      exact ⟨shown_same h hcall hagree.1 hshallow.1, ih (h.perform hcall) hcalls hagree.2 hshallow.2⟩

/-! ### Sessions without a projection -/

/-- What a call shows a session that holds no projection of a topic is its stored value. -/
def Registry.ShowsStored (reg : Registry) (session : SessionId) (op : Op) : Prop :=
  ∀ a ∈ reg.shown session op, ∃ moment ∈ reg.moments op, ∃ topic t, moment.get topic = some t ∧
    (t.subscribers.lookup session).isSome ∧
    (t.projections.lookup session = none → ∀ v, a.snapshot = some v → v = t.value)

theorem grants_showStored (wire : Wire) (session : SessionId) (sender : Sender)
    (grants : List TopicGrant) (seed : GrantedSeed) (reg : Registry) :
    ∀ i ∈ (grants.foldl (fun acc grant => acc.2.grant wire session sender acc.1 grant)
        (seed, reg)).1.instructions, i ∈ seed.instructions ∨
      ∃ moment ∈ reg.grantMoments wire session sender grants, ∃ topic t,
        moment.get topic = some t ∧ (t.subscribers.lookup session).isSome ∧
        i = .slotSet t.slotId (shownValue wire (t.projections.lookup session) t.value) := by
  induction grants generalizing reg seed with
  | nil => exact fun i hi => Or.inl hi
  | cons grant grants ih =>
      intro i hi
      obtain ⟨t, ht, hsub, hcolumns, hseeds⟩ := reg.grant_seeds wire session sender seed grant
      have hregistry := reg.grant_registry wire session sender seed ⟨[], []⟩ grant
      rcases ih (reg.grant wire session sender seed grant).1
        (reg.grant wire session sender seed grant).2 i hi with hseed | ⟨moment, hmoment, hshown⟩
      · rw [hseeds, List.mem_append, List.mem_singleton] at hseed
        rcases hseed with hseed | rfl
        · exact Or.inl hseed
        · refine Or.inr ⟨_, List.mem_cons_self, grant.topic, t, hregistry ▸ ht, by rw [hsub]; rfl, ?_⟩
          rw [hcolumns]
      · refine Or.inr ⟨moment, List.mem_cons_of_mem _ ?_, hshown⟩
        rwa [← hregistry]

theorem Registry.showsStored (reg : Registry) (session : SessionId) (op : Op) :
    reg.ShowsStored session op := by
  intro a ha
  cases op with
  | subscribe s topic sender =>
      cases ht : reg.get topic with
      | none => simp [Registry.shown, Registry.subscribe, ht] at ha
      | some t =>
          obtain ⟨hshown, u, hu, huvalue, husub, _⟩ := Registry.subscribe_held (s := s) ht sender
          simp only [Registry.shown, hshown] at ha
          split_ifs at ha with hs
          · subst hs
            obtain rfl := List.mem_singleton.mp ha
            refine ⟨_, List.mem_singleton_self _, topic, u, hu, by rw [husub]; rfl, ?_⟩
            exact fun _ v hv => (Option.some.inj hv).symm.trans huvalue.symm
          · cases ha
  | subscribeGranted wire s sender grants =>
      simp only [Registry.shown] at ha
      split_ifs at ha with hs
      · subst hs
        obtain ⟨i, hi, rfl⟩ := List.mem_map.mp ha
        rcases grants_showStored wire s sender grants ⟨[], []⟩ reg i hi with
          hseed | ⟨moment, hmoment, topic, t, ht, hsub, rfl⟩
        · cases hseed
        · refine ⟨moment, hmoment, topic, t, ht, hsub, fun hnone v hv => ?_⟩
          rw [hnone] at hv
          exact (Option.some.inj hv).symm
      · cases ha
  | writeTopicDelta wire topic compute =>
      cases ht : reg.get topic with
      | none => simp [Registry.shown, Registry.writeTopicDelta, ht] at ha
      | some t =>
          simp only [Registry.shown, Registry.writeTopicDelta_eq ht] at ha
          split_ifs at ha
          · obtain ⟨⟨s, own⟩, hmem, rfl⟩ := List.mem_map.mp ha
            obtain ⟨hsent, hs⟩ := List.mem_filter.mp hmem
            obtain rfl : s = session := of_decide_eq_true hs
            obtain ⟨rfl, sender, hsub, _⟩ := (mem_delivered_iff wire _ _ s own).mp hsent
            refine ⟨reg.written topic (t.written (compute t.value)), ?_, topic,
              t.written (compute t.value), reg.get_written topic _, by rw [hsub]; rfl, ?_⟩
            · simp [Registry.moments, ht]
            · intro hnone v hv
              rcases (compute t.value).instruction_eq t.slotId with hset | hother
              · rw [frameFor_snapshot, hnone] at hv
                simp only [Registry.frameOf, hset] at hv
                exact (Option.some.inj hv).symm
              · rw [frameFor_other wire _ s hother] at hv
                cases hother.symm.trans hv
          · cases ha
  | _ => cases ha

def signups (phone : Value) : Value :=
  .array [.object [("id", .number (.int 1)), ("phone", phone)]]

/-- A list is published, session 7 is granted the ids of it, and it is written again. -/
def signupCalls (phone : Value) : List Op :=
  [.topic "signups" (signups phone).encode,
    .subscribeGranted .plain 7 0 [⟨"signups", some ["id"]⟩],
    .writeTopicDelta .plain "signups" fun _ => ⟨(signups phone).encode, .none⟩]

theorem blind_plain : Wire.plain.Blind plainJson :=
  ⟨rfl, fun _ _ _ => rfl, fun _ _ _ _ => rfl⟩

theorem signupCalls_same (phone phone' : Value) :
    ∀ call ∈ (signupCalls phone).zip (signupCalls phone'), SameCall plainJson call.1 call.2 := by
  intro call hcall
  simp only [signupCalls, List.zip_cons_cons, List.zip_nil_right, List.mem_cons, List.not_mem_nil,
    or_false] at hcall
  rcases hcall with rfl | rfl | rfl
  · exact .topic _ _ _
  · exact .subscribeGranted blind_plain _ _ _
  · exact .writeTopicDelta blind_plain _ _ _

/-- Every value is the list with this phone column, and session 7 holds its ids. -/
def Signed (phone : Value) (reg : Registry) : Prop :=
  ∀ topic t, reg.get topic = some t →
    t.value = (signups phone).encode ∧ t.projections.lookup 7 = some ["id"]

theorem signed_of_entries {phone : Value} {r : Registry} {name : String} {t : Topic}
    (hr : r.topics.entries = [⟨name, t⟩]) (ht : t.value = (signups phone).encode)
    (hcolumns : t.projections.lookup 7 = some ["id"]) : Signed phone r := by
  intro topic u hu
  have hmem := AList.mem_lookup_iff.mp (Option.mem_def.mpr hu)
  rw [hr] at hmem
  cases List.mem_singleton.mp hmem
  exact ⟨ht, hcolumns⟩

theorem moments_signups (phone phone' : Value)
    {Q : Option Columns → List Char → List Char → Prop}
    (hQ : Q (some ["id"]) (signups phone).encode (signups phone').encode) :
    ValuesMeet Q 7 .empty .empty ((signupCalls phone).zip (signupCalls phone')) := by
  have halike : ∀ r r', Signed phone r → Signed phone' r' → Alike Q 7 r r' := by
    intro r r' hr hr' topic t t' ht ht' _
    obtain ⟨hvalue, hcolumns⟩ := hr topic t ht
    obtain ⟨hvalue', _⟩ := hr' topic t' ht'
    rwa [hvalue, hvalue', hcolumns]
  refine ⟨.cons ?_ .nil, .cons ?_ .nil, .cons ?_ .nil, trivial⟩
  · intro topic t t' ht _ hsubscribed
    have hmem := AList.mem_lookup_iff.mp (Option.mem_def.mpr ht)
    cases List.mem_singleton.mp hmem
    exact nomatch hsubscribed
  · exact halike _ _ (signed_of_entries rfl rfl rfl) (signed_of_entries rfl rfl rfl)
  · exact halike _ _ (signed_of_entries rfl rfl rfl) (signed_of_entries rfl rfl rfl)

theorem keysSorted_signups (phone : Value) : KeysSorted (signups phone) := by
  have hfields : objectsOf (signups phone) = [[("id", .number (.int 1)), ("phone", phone)]] := rfl
  have hkeys : "id" < "phone" := by decide
  intro fields hmem
  rw [hfields] at hmem
  cases List.mem_singleton.mp hmem
  refine .cons (fun f hf => ?_) (.cons nofun .nil)
  cases List.mem_singleton.mp hf
  exact hkeys

theorem plainJson_encode {v : Value} (h : KeysSorted v) : plainJson v.encode = some v := by
  simp [plainJson, decode_encode, h, Option.filter]

theorem agree_signups (phone phone' : Value) :
    Agree plainJson (some ["id"]) (signups phone).encode (signups phone').encode := by
  refine ⟨signups phone, signups phone', plainJson_encode (keysSorted_signups phone),
    plainJson_encode (keysSorted_signups phone'), ?_⟩
  have hrow : FieldsAgree ["id"] [("id", .number (.int 1)), ("phone", phone)]
      [("id", .number (.int 1)), ("phone", phone')] := by
    intro column hcolumn
    rw [List.mem_singleton.mp hcolumn]
    rfl
  exact .rows (.cons hrow .nil)

def nested : ℕ → Value → Value
  | 0, v => v
  | n + 1, v => .array [nested n v]

theorem depth_nested (n : ℕ) (v : Value) : (nested n v).depth = n + v.depth := by
  induction n with
  | zero => simp [nested]
  | succ n ih =>
      simp only [nested, Value.depth, depthItems, ih]
      omega

theorem nested_injective (n : ℕ) {v w : Value} (h : nested n v = nested n w) : v = w := by
  induction n with
  | zero => exact h
  | succ n ih => exact ih (List.cons.inj (Value.array.inj h)).1

theorem depth_signups (phone : Value) : (signups phone).depth = 2 + phone.depth := by
  simp only [signups, Value.depth, depthItems, depthFields]
  omega

theorem shallow_signups {phone phone' : Value} (h : phone.depth + 2 ≤ recursionLimit)
    (h' : phone'.depth + 2 ≤ recursionLimit) :
    Shallow plainJson (some ["id"]) (signups phone).encode (signups phone').encode := by
  intro _ text htext a ha
  have hread : ∀ phone : Value, phone.depth + 2 ≤ recursionLimit →
      plainJson (signups phone).encode = some a → a.depth ≤ recursionLimit := by
    intro phone hphone ha
    rw [plainJson_encode (keysSorted_signups phone)] at ha
    rw [← Option.some.inj ha, depth_signups]
    omega
  rcases List.mem_pair.mp htext with rfl | rfl
  · exact hread phone h ha
  · exact hread phone' h' ha

theorem shown_deep {phone : Value} (hdeep : recursionLimit < (signups phone).depth) :
    (Registry.empty.perform (.topic "signups" (signups phone).encode)).shown 7
        (.subscribeGranted .plain 7 0 [⟨"signups", some ["id"]⟩]) =
      [.seed (.slotSet (broadcastSlotId "signups") (signups phone).encode)] := by
  have hwhole : projectValue .plain (signups phone).encode ["id"] = (signups phone).encode :=
    projectValue_of_deep (plainJson_encode (keysSorted_signups phone)) hdeep ["id"]
  have hseed : (Registry.empty.perform (.topic "signups" (signups phone).encode)).shown 7
        (.subscribeGranted .plain 7 0 [⟨"signups", some ["id"]⟩]) =
      [.seed (.slotSet (broadcastSlotId "signups")
        (projectValue .plain (signups phone).encode ["id"]))] := rfl
  rw [hseed, hwhole]

theorem not_showSame_deep {phone phone' : Value} (hne : phone ≠ phone')
    (hdeep : recursionLimit < (signups phone).depth)
    (hdeep' : recursionLimit < (signups phone').depth) :
    ¬ ShowSame 7 .empty .empty ((signupCalls phone).zip (signupCalls phone')) := by
  rintro ⟨-, hseed, -⟩
  rw [shown_deep hdeep, shown_deep hdeep'] at hseed
  have hsame := (List.forall₂_cons.mp hseed).1 rfl rfl
  have hvalue := encode_injective (Instruction.slotSet.inj (Shown.seed.inj hsame)).2
  simp only [signups, Value.array.injEq, List.cons.injEq, Value.object.injEq, Prod.mk.injEq,
    and_true, true_and] at hvalue
  exact hne hvalue

end Albedo.Broadcast
