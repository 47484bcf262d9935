import Albedo.Runtime.Operations

/-!
# What the catalogue of topics depends on

The names, wire slots and identities of the live topics change in two places only: a
name that is not live is registered, and an idle topic is dropped. A property of the
catalogue that both keep is kept by every call, where the registrations that ask no
guard meet what the first needs.
-/
namespace Albedo.Broadcast

def Topic.label (t : Topic) : String × SlotId × TopicIdentity := (t.name, t.slotId, t.identity)

/-- The same topics are live, registered as the same, and hold the same wire slots. -/
structure Registry.SameTopics (reg reg' : Registry) : Prop where
  labels : ∀ x, reg'.look Topic.label x = reg.look Topic.label x
  slotIds : reg'.slotIds = reg.slotIds

theorem Registry.SameTopics.refl (reg : Registry) : reg.SameTopics reg := ⟨fun _ => rfl, rfl⟩

theorem Registry.SameTopics.trans {a b c : Registry} (h : a.SameTopics b) (h' : b.SameTopics c) :
    a.SameTopics c :=
  ⟨fun x => (h'.labels x).trans (h.labels x), h'.slotIds.trans h.slotIds⟩

theorem Registry.SameTopics.get_eq_none {reg reg' : Registry} (h : reg.SameTopics reg') {x : String} :
    reg'.get x = none ↔ reg.get x = none := by
  have hx := h.labels x
  rw [Registry.look, Registry.look] at hx
  rw [← Option.map_eq_none_iff (f := Topic.label), hx, Option.map_eq_none_iff]

theorem Registry.SameTopics.get {reg reg' : Registry} (h : reg.SameTopics reg') {x : String}
    {t' : Topic} (ht : reg'.get x = some t') : ∃ t, reg.get x = some t ∧ t.label = t'.label := by
  have hx := h.labels x
  rw [Registry.look, ht, Registry.look] at hx
  exact Option.map_eq_some_iff.mp hx.symm

/-! ### The calls that register nothing -/

theorem Registry.sameTopics_modify (reg : Registry) (topic : String) {f : Topic → Topic}
    (hf : ∀ t, (f t).label = t.label) : reg.SameTopics (reg.modify topic f) := by
  refine ⟨fun x => reg.look_modify topic x hf, ?_⟩
  unfold Registry.modify
  cases reg.get topic <;> rfl

theorem Registry.sameTopics_forgetAll (topics : List String) (reg : Registry)
    (session : SessionId) : reg.SameTopics (topics.foldl (fun (reg : Registry) topic =>
      reg.modify topic fun t => t.forget session) reg) := by
  induction topics generalizing reg with
  | nil => exact .refl reg
  | cons topic topics ih =>
      exact .trans (reg.sameTopics_modify topic (f := fun t => t.forget session) fun _ => rfl) (ih _)

theorem Registry.sameTopics_cleanupSession (reg : Registry) (session : SessionId) :
    reg.SameTopics (reg.cleanupSession session) := by
  unfold Registry.cleanupSession
  cases reg.bySession.lookup session with
  | none => exact .refl reg
  | some topics =>
      have hfold := Registry.sameTopics_forgetAll topics
        { reg with bySession := reg.bySession.erase session } session
      exact ⟨hfold.labels, hfold.slotIds⟩

theorem Registry.sameTopics_unsubscribe (reg : Registry) (session : SessionId) (topic : String) :
    reg.SameTopics (reg.unsubscribe session topic) := by
  have hforget : reg.SameTopics (reg.modify topic fun t => t.forget session) :=
    reg.sameTopics_modify topic fun _ => rfl
  unfold Registry.unsubscribe
  dsimp only
  cases (reg.modify topic fun t => t.forget session).bySession.lookup session with
  | none => exact hforget
  | some topics => exact ⟨hforget.labels, hforget.slotIds⟩

theorem Registry.sameTopics_dropSessions (sessions : List SessionId) (reg : Registry)
    (topic : String) : reg.SameTopics
      (sessions.foldl (fun reg session => reg.dropSession topic session) reg) := by
  induction sessions generalizing reg with
  | nil => exact .refl reg
  | cons session sessions ih =>
      refine .trans ?_ (ih _)
      exact .trans (reg.sameTopics_unsubscribe session topic)
        (Registry.sameTopics_cleanupSession _ session)

theorem Registry.sameTopics_settled (reg : Registry) (topic : String)
    (sessions : List SessionId) : reg.SameTopics (reg.settled topic sessions) := by
  have hdropped := Registry.sameTopics_dropSessions sessions reg topic
  have htouched := hdropped.trans (Registry.sameTopics_modify _ topic (f := fun t =>
    { t with touched := (sessions.foldl (fun reg session =>
      reg.dropSession topic session) reg).tick }) fun _ => rfl)
  exact ⟨htouched.labels, htouched.slotIds⟩

theorem Registry.sameTopics_writeTopicDelta (reg : Registry) (wire : Wire) (topic : String)
    (compute : List Char → TopicTransition) :
    reg.SameTopics (reg.writeTopicDelta wire topic compute).2 := by
  cases ht : reg.get topic with
  | none =>
      rw [Registry.writeTopicDelta, ht]
      exact .refl reg
  | some t =>
      have hstored : reg.SameTopics (reg.written topic (t.written (compute t.value))) := by
        refine ⟨fun x => ?_, rfl⟩
        rw [Registry.look_of_insert reg (t := t.written (compute t.value)) (by rfl)]
        split_ifs with hx
        · rw [hx, Registry.look, ht]
          rfl
        · rfl
      rw [Registry.writeTopicDelta_eq ht]
      split_ifs
      · exact hstored.trans (Registry.sameTopics_settled _ topic _)
      · exact hstored

theorem Registry.sameTopics_noteTopic (reg : Registry) (session : SessionId) (topic : String) :
    reg.SameTopics (reg.noteTopic session topic) :=
  ⟨fun _ => rfl, rfl⟩

theorem Registry.sameTopics_subscribe (reg : Registry) (session : SessionId) (topic : String)
    (sender : Sender) : reg.SameTopics (reg.subscribe session topic sender).2 := by
  unfold Registry.subscribe
  cases reg.get topic with
  | none => exact .refl reg
  | some t =>
      have hmodify := reg.sameTopics_modify topic (f := fun u =>
        { u.enrol session sender none with touched := reg.tick }) fun _ => rfl
      exact ⟨hmodify.labels, hmodify.slotIds⟩

theorem Registry.sameTopics_touch (reg : Registry) (name : String) :
    reg.SameTopics (reg.touch name).2 := by
  unfold Registry.touch
  cases reg.get name with
  | none => exact .refl reg
  | some t =>
      have hmodify := reg.sameTopics_modify name (f := fun u =>
        { u with touched := reg.tick }) fun _ => rfl
      exact ⟨hmodify.labels, hmodify.slotIds⟩

theorem Registry.sameTopics_grant (reg : Registry) (wire : Wire) (session : SessionId)
    (sender : Sender) (seed : GrantedSeed) (grant : TopicGrant) :
    (reg.topic grant.topic []).SameTopics (reg.grant wire session sender seed grant).2 := by
  unfold Registry.grant
  dsimp only
  cases (reg.topic grant.topic []).get grant.topic with
  | none => exact .refl _
  | some t =>
      exact .trans (Registry.sameTopics_modify _ grant.topic
          (f := fun t => t.enrol session sender grant.columns) fun _ => rfl)
        (Registry.sameTopics_noteTopic _ session grant.topic)

/-! ### The calls that register -/

/-- A property of the catalogue, kept by dropping an idle topic and by registering a name
that is not live where `K` holds of it. -/
structure Kept (P : Registry → Prop) (K : Registry → String → TopicIdentity → Prop) : Prop where
  same : ∀ {reg reg' : Registry}, reg.SameTopics reg' → P reg → P reg'
  register : ∀ {reg : Registry} {name : String} {initial : List Char} {identity : TopicIdentity},
    P reg → reg.get name = none → K reg name identity →
      P (reg.topicWithIdentity name initial identity)
  drop : ∀ {reg : Registry} {name : String}, P reg → P (reg.dropIfIdle name).2

variable {P : Registry → Prop} {K : Registry → String → TopicIdentity → Prop}

theorem Registry.topicWithIdentity_of_get {reg : Registry} {name : String}
    (h : reg.get name ≠ none) (initial : List Char) (identity : TopicIdentity) :
    reg.topicWithIdentity name initial identity = reg := by
  obtain ⟨t, ht⟩ := Option.ne_none_iff_exists'.mp h
  rw [Registry.topicWithIdentity, ht]
  rfl

theorem Kept.topicWithIdentity (hk : Kept P K) {reg : Registry} (h : P reg) {name : String}
    {identity : TopicIdentity} (hname : reg.get name = none → K reg name identity)
    (initial : List Char) : P (reg.topicWithIdentity name initial identity) := by
  by_cases hget : reg.get name = none
  · exact hk.register h hget (hname hget)
  · rwa [Registry.topicWithIdentity_of_get hget]

def Registry.Guarded (K : Registry → String → TopicIdentity → Prop) (reg : Registry)
    (name : String) (identity : TopicIdentity) : Prop :=
  reg.get name = none → reg.guardSlotId name = .ok () → K reg name identity

def Registry.GrantsMeet (K : Registry → String → TopicIdentity → Prop) (wire : Wire)
    (session : SessionId) (sender : Sender) : Registry → GrantedSeed → List TopicGrant → Prop
  | _, _, [] => True
  | reg, seed, grant :: rest =>
      (reg.get grant.topic = none → K reg grant.topic .static) ∧
        Registry.GrantsMeet K wire session sender (reg.grant wire session sender seed grant).2
          (reg.grant wire session sender seed grant).1 rest

def Op.Meets (K : Registry → String → TopicIdentity → Prop) (reg : Registry) : Op → Prop
  | .topic name _ => reg.get name = none → K reg name .static
  | .tryTopic name _ => reg.Guarded K name .static
  | .tryTopicPartition name collection key _ => reg.Guarded K name (.partition collection key)
  | .tryTopicExternal _ name source route url _ => reg.Guarded K name (.external source route url)
  | .subscribeGranted wire session sender grants =>
      reg.GrantsMeet K wire session sender ⟨[], []⟩ grants
  | _ => True

section Decide

variable [∀ reg name identity, Decidable (K reg name identity)]

instance (reg : Registry) (name : String) (identity : TopicIdentity) :
    Decidable (reg.Guarded K name identity) :=
  inferInstanceAs (Decidable (_ → _ → _))

instance decidableGrantsMeet (wire : Wire) (session : SessionId) (sender : Sender) :
    ∀ reg seed grants, Decidable (Registry.GrantsMeet K wire session sender reg seed grants)
  | _, _, [] => isTrue trivial
  | reg, seed, grant :: rest =>
      have := decidableGrantsMeet wire session sender (reg.grant wire session sender seed grant).2
        (reg.grant wire session sender seed grant).1 rest
      inferInstanceAs (Decidable (_ ∧ _))

instance (reg : Registry) : ∀ op : Op, Decidable (op.Meets K reg)
  | .topic _ _ => inferInstanceAs (Decidable (_ → _))
  | .tryTopic name _ => inferInstanceAs (Decidable (reg.Guarded K name .static))
  | .tryTopicPartition name collection key _ =>
      inferInstanceAs (Decidable (reg.Guarded K name (.partition collection key)))
  | .tryTopicExternal _ name source route url _ =>
      inferInstanceAs (Decidable (reg.Guarded K name (.external source route url)))
  | .subscribeGranted wire session sender grants =>
      inferInstanceAs (Decidable (reg.GrantsMeet K wire session sender ⟨[], []⟩ grants))
  | .touch _ | .subscribe _ _ _ | .unsubscribe _ _ | .cleanupSession _ | .writeTopicDelta _ _ _
  | .dropIfIdle _ | .enforceByteBudget _ => isTrue trivial

end Decide

theorem Kept.tryTopicWithIdentity (hk : Kept P K) {reg : Registry} (h : P reg) {name : String}
    {identity : TopicIdentity} (hname : reg.Guarded K name identity) {initial : List Char}
    {reg' : Registry} (hres : reg.tryTopicWithIdentity name initial identity = .ok reg') :
    P reg' := by
  have hguard : reg.get name = none → reg.guardSlotId name = .ok () := by
    intro hget
    unfold Registry.tryTopicWithIdentity at hres
    simp only [hget, Option.isSome_none, Bool.false_eq_true, if_false] at hres
    cases hg : reg.guardSlotId name with
    | error err => simp [hg] at hres
    | ok u => rfl
  rw [(Registry.tryTopicWithIdentity_ok hres).1]
  exact hk.topicWithIdentity h (fun hget => hname hget (hguard hget)) initial

theorem Kept.subscribeGranted (hk : Kept P K) (wire : Wire) (session : SessionId)
    (sender : Sender) (grants : List TopicGrant) {reg : Registry} {seed : GrantedSeed} (h : P reg)
    (hmeet : reg.GrantsMeet K wire session sender seed grants) :
    P (grants.foldl (fun acc grant => acc.2.grant wire session sender acc.1 grant)
      (seed, reg)).2 := by
  induction grants generalizing reg seed with
  | nil => exact h
  | cons grant grants ih =>
      exact ih (hk.same (reg.sameTopics_grant wire session sender seed grant)
        (hk.topicWithIdentity h hmeet.1 [])) hmeet.2

theorem Kept.perform (hk : Kept P K) {reg : Registry} (h : P reg) {op : Op}
    (hmeet : op.Meets K reg) : P (reg.perform op) := by
  have hguarded : ∀ {name initial identity}, reg.Guarded K name identity →
      P ((reg.tryTopicWithIdentity name initial identity).toOption.getD reg) := by
    intro name initial identity hname
    cases hres : reg.tryTopicWithIdentity name initial identity with
    | error err => exact h
    | ok reg' => exact hk.tryTopicWithIdentity h hname hres
  cases op with
  | topic name initial => exact hk.topicWithIdentity h hmeet initial
  | tryTopic name initial => exact hguarded hmeet
  | tryTopicPartition name collection key initial => exact hguarded hmeet
  | tryTopicExternal wire name source route url value =>
      rw [Registry.perform, Registry.tryTopicExternal]
      cases hget : reg.get name with
      | some t =>
          dsimp only
          split_ifs
          · exact h
          · exact hk.same (reg.sameTopics_writeTopicDelta wire name _) h
      | none =>
          dsimp only
          cases hres : reg.tryTopicWithIdentity name value (.external source route url) with
          | error err => exact h
          | ok reg' => exact hk.tryTopicWithIdentity h hmeet hres
  | touch name => exact hk.same (reg.sameTopics_touch name) h
  | subscribe session topic sender => exact hk.same (reg.sameTopics_subscribe session topic sender) h
  | subscribeGranted wire session sender grants =>
      exact hk.subscribeGranted wire session sender grants h hmeet
  | unsubscribe session topic => exact hk.same (reg.sameTopics_unsubscribe session topic) h
  | cleanupSession session => exact hk.same (reg.sameTopics_cleanupSession session) h
  | writeTopicDelta wire topic compute =>
      exact hk.same (reg.sameTopics_writeTopicDelta wire topic compute) h
  | dropIfIdle topic => exact hk.drop h
  | enforceByteBudget budget =>
      exact Registry.enforceByteBudget_induction h (fun _ _ h => hk.drop h) budget

/-! ### The slot of a name -/

/-- Every topic goes by the name it is registered under, at the wire slot of that name. -/
def Registry.Named (reg : Registry) : Prop :=
  ∀ x t, reg.get x = some t → t.name = x ∧ t.slotId = broadcastSlotId x

theorem Registry.get_dropIfIdle {reg : Registry} {name x : String} {t : Topic}
    (h : (reg.dropIfIdle name).2.get x = some t) : reg.get x = some t := by
  have hlook := reg.look_dropIfIdle (p := id) name x
  rw [Registry.look, Option.map_id, id, h, Registry.look, Option.map_id, id] at hlook
  split_ifs at hlook
  exact hlook.symm

theorem Registry.get_topicWithIdentity {reg : Registry} {name x : String} {initial : List Char}
    {identity : TopicIdentity} {t : Topic}
    (h : (reg.topicWithIdentity name initial identity).get x = some t) :
    reg.get x = some t ∨ (x = name ∧ reg.get name = none ∧
      t.label = (name, broadcastSlotId name, identity)) := by
  have hlook := reg.look_topicWithIdentity (p := id) name x initial identity
  simp only [Registry.look, Option.map_id, id] at hlook
  rw [h] at hlook
  by_cases hx : x = name
  · subst hx
    rw [if_pos rfl] at hlook
    obtain rfl := Option.some.inj hlook
    cases hget : reg.get x with
    | none => exact Or.inr ⟨rfl, rfl, rfl⟩
    | some u => exact Or.inl rfl
  · rw [if_neg hx] at hlook
    exact Or.inl hlook.symm

theorem named_kept : Kept Registry.Named fun _ _ _ => True where
  same := by
    intro reg reg' hsame h x t' ht'
    obtain ⟨t, ht, hlabel⟩ := hsame.get ht'
    obtain ⟨hname, hslot⟩ := h x t ht
    simp only [Topic.label, Prod.mk.injEq] at hlabel
    exact ⟨hlabel.1 ▸ hname, hlabel.2.1 ▸ hslot⟩
  register := by
    intro reg name initial identity h _ _ x t ht
    rcases Registry.get_topicWithIdentity ht with ht | ⟨rfl, _, hlabel⟩
    · exact h x t ht
    · simp only [Topic.label, Prod.mk.injEq] at hlabel
      exact ⟨hlabel.1, hlabel.2.1⟩
  drop := by
    intro reg name h x t ht
    exact h x t (Registry.get_dropIfIdle ht)

end Albedo.Broadcast
