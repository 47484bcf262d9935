import Mathlib.Data.Set.Basic
import Albedo.Runtime.Operations

/-!
# Subscription bookkeeping

Who is subscribed to what is one relation between sessions and topics. The registry
keeps it twice, in each topic's sinks and in each session's set of topics. Every call
is described by what it does to the relation, and both maps follow it.
-/
namespace Albedo.Broadcast

abbrev Subscriptions := Set (SessionId × String)

def Registry.Subscribed (reg : Registry) (session : SessionId) (topic : String) : Prop :=
  ∃ t, reg.get topic = some t ∧ session ∈ t.subscribers

def Registry.Indexed (reg : Registry) (session : SessionId) (topic : String) : Prop :=
  ∃ topics, reg.bySession.lookup session = some topics ∧ topic ∈ topics

/-- Both maps of the registry say the relation, and a projection has its subscriber. -/
structure Registry.Tracks (reg : Registry) (subs : Subscriptions) : Prop where
  sinks : ∀ session topic, reg.Subscribed session topic ↔ (session, topic) ∈ subs
  index : ∀ session topic, reg.Indexed session topic ↔ (session, topic) ∈ subs
  projections : ∀ topic t, reg.get topic = some t →
    ∀ session ∈ t.projections, session ∈ t.subscribers

def Subscriptions.leave (subs : Subscriptions) (session : SessionId) (topic : String) :
    Subscriptions :=
  {pair ∈ subs | ¬ (pair.1 = session ∧ pair.2 = topic)}

def Subscriptions.drop (subs : Subscriptions) (session : SessionId) : Subscriptions :=
  {pair ∈ subs | pair.1 ≠ session}

def Subscriptions.join (subs : Subscriptions) (session : SessionId) (topic : String) :
    Subscriptions :=
  {pair | (pair.1 = session ∧ pair.2 = topic) ∨ pair ∈ subs}

structure Registry.Consistent (reg : Registry) : Prop where
  indexed : ∀ session topic, reg.Subscribed session topic ↔ reg.Indexed session topic
  projected : ∀ topic t, reg.get topic = some t →
    ∀ session ∈ t.projections, session ∈ t.subscribers

theorem Registry.consistent_iff {reg : Registry} :
    reg.Consistent ↔ ∃ subs, reg.Tracks subs := by
  constructor
  · intro h
    exact ⟨{pair | reg.Subscribed pair.1 pair.2}, fun _ _ => Iff.rfl,
      fun session topic => (h.indexed session topic).symm, h.projected⟩
  · rintro ⟨subs, h⟩
    exact ⟨fun session topic => (h.sinks session topic).trans (h.index session topic).symm,
      h.projections⟩

/-! ### The sinks of a topic -/

def Topic.sinks (t : Topic) : (AList fun _ : SessionId => Sender) × AList fun _ : SessionId => Columns :=
  (t.subscribers, t.projections)

theorem Registry.Tracks.of_look {reg reg' : Registry} {subs : Subscriptions} (h : reg.Tracks subs)
    (hsinks : ∀ topic, reg'.look Topic.sinks topic = reg.look Topic.sinks topic)
    (hindex : reg'.bySession = reg.bySession) : reg'.Tracks subs := by
  have hget : ∀ topic t', reg'.get topic = some t' → ∃ t, reg.get topic = some t ∧
      t.subscribers = t'.subscribers ∧ t.projections = t'.projections := by
    intro topic t' ht'
    have hlook := hsinks topic
    rw [Registry.look, ht', Registry.look] at hlook
    obtain ⟨t, ht, heq⟩ := Option.map_eq_some_iff.mp hlook.symm
    exact ⟨t, ht, (Prod.mk.inj heq).1, (Prod.mk.inj heq).2⟩
  have hback : ∀ topic t, reg.get topic = some t → ∃ t', reg'.get topic = some t' ∧
      t'.subscribers = t.subscribers := by
    intro topic t ht
    have hlook := hsinks topic
    rw [Registry.look, Registry.look, ht] at hlook
    obtain ⟨t', ht', heq⟩ := Option.map_eq_some_iff.mp hlook
    exact ⟨t', ht', (Prod.mk.inj heq).1⟩
  refine ⟨fun session topic => ?_, fun session topic => ?_, ?_⟩
  · rw [← h.sinks]
    constructor
    · rintro ⟨t', ht', hmem⟩
      obtain ⟨t, ht, hsub, _⟩ := hget topic t' ht'
      exact ⟨t, ht, hsub ▸ hmem⟩
    · rintro ⟨t, ht, hmem⟩
      obtain ⟨t', ht', hsub⟩ := hback topic t ht
      exact ⟨t', ht', hsub ▸ hmem⟩
  · rw [← h.index, Registry.Indexed, Registry.Indexed, hindex]
  · intro topic t' ht' session hmem
    obtain ⟨t, ht, hsub, hproj⟩ := hget topic t' ht'
    rw [← hsub]
    exact h.projections topic t ht session (hproj ▸ hmem)

theorem Registry.Tracks.of_modify {reg reg' : Registry} {subs subs' : Subscriptions}
    (h : reg.Tracks subs) {topic : String} {f : Topic → Topic}
    (hget : ∀ x, reg'.get x = (reg.modify topic f).get x)
    (hother : ∀ session x, x ≠ topic → ((session, x) ∈ subs' ↔ (session, x) ∈ subs))
    (hown : ∀ t, reg.get topic = some t → ∀ session,
      (session ∈ (f t).subscribers ↔ (session, topic) ∈ subs') ∧
        (session ∈ (f t).projections → session ∈ (f t).subscribers))
    (hnone : reg.get topic = none → ∀ session, (session, topic) ∉ subs')
    (hindex : ∀ session x, reg'.Indexed session x ↔ (session, x) ∈ subs') :
    reg'.Tracks subs' := by
  have hgetx : ∀ x, reg'.get x = if x = topic then (reg.get topic).map f else reg.get x :=
    fun x => (hget x).trans (reg.get_modify topic x f)
  refine ⟨fun session x => ?_, hindex, ?_⟩
  · by_cases hx : x = topic
    · subst hx
      have hx := hgetx x
      rw [if_pos rfl] at hx
      cases ht : reg.get x with
      | none =>
          rw [ht] at hx
          refine iff_of_false ?_ (hnone ht session)
          rintro ⟨t, htx, _⟩
          rw [hx] at htx
          exact nomatch htx
      | some t =>
          rw [ht] at hx
          constructor
          · rintro ⟨t', ht', hmem⟩
            obtain rfl := Option.some.inj (hx.symm.trans ht')
            exact ((hown t ht session).1).mp hmem
          · intro hmem
            exact ⟨f t, hx, ((hown t ht session).1).mpr hmem⟩
    · rw [hother session x hx, ← h.sinks session x]
      have hsame := hgetx x
      rw [if_neg hx] at hsame
      rw [Registry.Subscribed, Registry.Subscribed, hsame]
  · intro x t' ht' session hmem
    by_cases hx : x = topic
    · subst hx
      have hx := hgetx x
      rw [if_pos rfl, ht'] at hx
      obtain ⟨t, ht, rfl⟩ := Option.map_eq_some_iff.mp hx.symm
      exact (hown t ht session).2 hmem
    · have hsame := hgetx x
      rw [if_neg hx, ht'] at hsame
      exact h.projections x t' hsame.symm session hmem

/-! ### Leaving -/

theorem Registry.bySession_modify (reg : Registry) (topic : String) (f : Topic → Topic) :
    (reg.modify topic f).bySession = reg.bySession := by
  unfold Registry.modify
  cases reg.get topic <;> rfl

theorem Registry.get_unsubscribe (reg : Registry) (session : SessionId) (topic x : String) :
    (reg.unsubscribe session topic).get x =
      (reg.modify topic fun t => t.forget session).get x := by
  unfold Registry.unsubscribe
  dsimp only
  rw [Registry.bySession_modify]
  cases reg.bySession.lookup session <;> rfl

theorem Registry.indexed_unsubscribe (reg : Registry) (session s : SessionId) (topic x : String) :
    (reg.unsubscribe session topic).Indexed s x ↔
      reg.Indexed s x ∧ ¬ (s = session ∧ x = topic) := by
  unfold Registry.unsubscribe Registry.Indexed
  dsimp only
  rw [Registry.bySession_modify]
  cases hlook : reg.bySession.lookup session with
  | none =>
      rw [Registry.bySession_modify]
      constructor
      · rintro ⟨topics, ht, hmem⟩
        refine ⟨⟨topics, ht, hmem⟩, ?_⟩
        rintro ⟨rfl, -⟩
        rw [hlook] at ht
        exact nomatch ht
      · exact And.left
  | some topics =>
      by_cases hs : s = session
      · subst hs
        simp [AList.lookup_insert, hlook]
      · simp [AList.lookup_insert_ne hs, hs]

theorem Topic.mem_forget {t : Topic} {session s : SessionId} :
    s ∈ (t.forget session).subscribers ↔ s ∈ t.subscribers ∧ s ≠ session := by
  simp [Topic.forget, and_comm]

theorem Topic.mem_forget_projections {t : Topic} {session s : SessionId} :
    s ∈ (t.forget session).projections ↔ s ∈ t.projections ∧ s ≠ session := by
  simp [Topic.forget, and_comm]

theorem Registry.Tracks.unsubscribe {reg : Registry} {subs : Subscriptions} (h : reg.Tracks subs)
    (session : SessionId) (topic : String) :
    (reg.unsubscribe session topic).Tracks (subs.leave session topic) := by
  refine h.of_modify (fun x => reg.get_unsubscribe session topic x) ?_ ?_ ?_ ?_
  · intro s x hx
    simp [Subscriptions.leave, hx]
  · intro t ht s
    have hsub : s ∈ t.subscribers ↔ (s, topic) ∈ subs := by
      rw [← h.sinks]
      exact ⟨fun hmem => ⟨t, ht, hmem⟩, fun ⟨t', ht', hmem⟩ =>
        Option.some.inj (ht'.symm.trans ht) ▸ hmem⟩
    refine ⟨?_, ?_⟩
    · rw [Topic.mem_forget, hsub]
      simp [Subscriptions.leave]
    · rw [Topic.mem_forget, Topic.mem_forget_projections]
      exact fun hmem => ⟨h.projections topic t ht s hmem.1, hmem.2⟩
  · intro hnone s hmem
    obtain ⟨t, ht, _⟩ := (h.sinks s topic).mpr hmem.1
    rw [hnone] at ht
    exact nomatch ht
  · intro s x
    rw [Registry.indexed_unsubscribe, h.index]
    rfl

theorem Registry.get_forgetAll (topics : List String) (reg : Registry) (session : SessionId)
    (x : String) :
    (topics.foldl (fun reg topic => reg.modify topic fun t => t.forget session) reg).get x =
      if x ∈ topics then (reg.get x).map fun t => t.forget session else reg.get x := by
  induction topics generalizing reg with
  | nil => rfl
  | cons topic topics ih =>
      rw [List.foldl_cons, ih, Registry.get_modify]
      by_cases hx : x = topic
      · subst hx
        have hidem : ∀ t : Topic, (t.forget session).forget session = t.forget session := by
          intro t
          have hsub : session ∉ t.subscribers.erase session := by simp
          have hproj : session ∉ t.projections.erase session := by simp
          rw [Topic.forget, Topic.forget]
          congr 1
          · exact AList.ext (List.kerase_of_notMem_keys hsub)
          · exact AList.ext (List.kerase_of_notMem_keys hproj)
        cases reg.get x <;> simp [hidem]
      · simp [hx]

theorem Registry.bySession_forgetAll (topics : List String) (reg : Registry)
    (session : SessionId) :
    (topics.foldl (fun reg topic => reg.modify topic fun t => t.forget session) reg).bySession =
      reg.bySession := by
  induction topics generalizing reg with
  | nil => rfl
  | cons topic topics ih => rw [List.foldl_cons, ih, Registry.bySession_modify]

theorem Registry.Tracks.mem_subscribers {reg : Registry} {subs : Subscriptions}
    (h : reg.Tracks subs) {topic : String} {t : Topic} (ht : reg.get topic = some t)
    (session : SessionId) : session ∈ t.subscribers ↔ (session, topic) ∈ subs := by
  rw [← h.sinks]
  exact ⟨fun hmem => ⟨t, ht, hmem⟩, fun ⟨t', ht', hmem⟩ =>
    Option.some.inj (ht'.symm.trans ht) ▸ hmem⟩

theorem Registry.Tracks.mem_topics {reg : Registry} {subs : Subscriptions} (h : reg.Tracks subs)
    {session : SessionId} {topics : List String}
    (ht : reg.bySession.lookup session = some topics) (topic : String) :
    topic ∈ topics ↔ (session, topic) ∈ subs := by
  rw [← h.index]
  exact ⟨fun hmem => ⟨topics, ht, hmem⟩, fun ⟨topics', ht', hmem⟩ =>
    Option.some.inj (ht'.symm.trans ht) ▸ hmem⟩

theorem Registry.Tracks.drop_eq {reg : Registry} {subs : Subscriptions} (h : reg.Tracks subs)
    {session : SessionId} (hlook : reg.bySession.lookup session = none) :
    subs.drop session = subs := by
  ext ⟨s, x⟩
  refine ⟨And.left, fun hmem => ⟨hmem, ?_⟩⟩
  rintro rfl
  obtain ⟨topics, ht, _⟩ := (h.index s x).mpr hmem
  rw [hlook] at ht
  exact nomatch ht

theorem Registry.Tracks.cleanupSession {reg : Registry} {subs : Subscriptions}
    (h : reg.Tracks subs) (session : SessionId) :
    (reg.cleanupSession session).Tracks (subs.drop session) := by
  unfold Registry.cleanupSession
  cases hlook : reg.bySession.lookup session with
  | none => rwa [h.drop_eq hlook]
  | some topics =>
      have hget : ∀ x, (topics.foldl (fun (reg : Registry) topic =>
          reg.modify topic fun t => t.forget session) { reg with bySession := reg.bySession.erase session }).get x =
            if x ∈ topics then (reg.get x).map fun t => t.forget session else reg.get x :=
        fun x => Registry.get_forgetAll topics _ session x
      -- a session outside its own set is in no sink, so forgetting it there changes nothing
      have hkept : ∀ x t, reg.get x = some t → x ∉ topics → session ∉ t.subscribers :=
        fun x t ht hx hmem => hx ((h.mem_topics hlook x).mpr ((h.mem_subscribers ht session).mp hmem))
      refine ⟨fun s x => ?_, fun s x => ?_, ?_⟩
      · rw [Registry.Subscribed, hget]
        have hdrop : (s, x) ∈ subs.drop session ↔ reg.Subscribed s x ∧ s ≠ session := by
          rw [h.sinks]
          rfl
        rw [hdrop]
        by_cases hx : x ∈ topics
        · rw [if_pos hx]
          constructor
          · rintro ⟨t', ht', hmem⟩
            obtain ⟨t, ht, rfl⟩ := Option.map_eq_some_iff.mp ht'
            rw [Topic.mem_forget] at hmem
            exact ⟨⟨t, ht, hmem.1⟩, hmem.2⟩
          · rintro ⟨⟨t, ht, hmem⟩, hs⟩
            exact ⟨_, by rw [ht]; rfl, Topic.mem_forget.mpr ⟨hmem, hs⟩⟩
        · rw [if_neg hx]
          constructor
          · rintro ⟨t, ht, hmem⟩
            refine ⟨⟨t, ht, hmem⟩, ?_⟩
            rintro rfl
            exact hkept x t ht hx hmem
          · exact And.left
      · rw [Registry.Indexed, Registry.bySession_forgetAll]
        by_cases hs : s = session
        · subst hs
          simp [Subscriptions.drop]
        · rw [AList.lookup_erase_ne hs]
          refine (h.index s x).trans ?_
          simp [Subscriptions.drop, hs]
      · intro x t' ht' s hmem
        rw [hget] at ht'
        by_cases hx : x ∈ topics
        · rw [if_pos hx] at ht'
          obtain ⟨t, ht, rfl⟩ := Option.map_eq_some_iff.mp ht'
          rw [Topic.mem_forget_projections] at hmem
          exact Topic.mem_forget.mpr ⟨h.projections x t ht s hmem.1, hmem.2⟩
        · rw [if_neg hx] at ht'
          exact h.projections x t' ht' s hmem

theorem Registry.Tracks.dropSession {reg : Registry} {subs : Subscriptions} (h : reg.Tracks subs)
    (topic : String) (session : SessionId) :
    (reg.dropSession topic session).Tracks (subs.drop session) := by
  have hdrop : (subs.leave session topic).drop session = subs.drop session := by
    ext ⟨s, x⟩
    simp only [Subscriptions.drop, Subscriptions.leave, Set.mem_ofPred_eq]
    exact ⟨fun hmem => ⟨hmem.1.1, hmem.2⟩, fun hmem => ⟨⟨hmem.1, fun hs => hmem.2 hs.1⟩, hmem.2⟩⟩
  rw [Registry.dropSession_eq, ← hdrop]
  exact (h.unsubscribe session topic).cleanupSession session

def Subscriptions.dropAll (subs : Subscriptions) (sessions : List SessionId) : Subscriptions :=
  {pair ∈ subs | pair.1 ∉ sessions}

theorem Registry.Tracks.dropSessions {reg : Registry} {subs : Subscriptions}
    (h : reg.Tracks subs) (topic : String) (sessions : List SessionId) :
    (sessions.foldl (fun reg session => reg.dropSession topic session) reg).Tracks
      (subs.dropAll sessions) := by
  induction sessions generalizing reg subs with
  | nil => simpa [Subscriptions.dropAll] using h
  | cons session sessions ih =>
      have hall : subs.dropAll (session :: sessions) = (subs.drop session).dropAll sessions := by
        ext ⟨s, x⟩
        simp [Subscriptions.dropAll, Subscriptions.drop, and_assoc]
      rw [hall, List.foldl_cons]
      exact ih (h.dropSession topic session)

/-! ### Joining -/

theorem Registry.Tracks.topicWithIdentity {reg : Registry} {subs : Subscriptions}
    (h : reg.Tracks subs) (topic : String) (initial : List Char) (identity : TopicIdentity) :
    (reg.topicWithIdentity topic initial identity).Tracks subs := by
  cases hget : reg.get topic with
  | some t =>
      unfold Registry.topicWithIdentity
      rw [hget]
      exact h
  | none =>
      -- a fresh topic starts without sinks, and nobody was in the one that was not there
      let fresh : Topic := ⟨topic, broadcastSlotId topic, initial, ∅, ∅, 0, identity, reg.tick⟩
      have hnew : ∀ x, (reg.topicWithIdentity topic initial identity).get x =
          if x = topic then some fresh else reg.get x := by
        intro x
        have hlook := reg.look_topicWithIdentity (p := id) topic x initial identity
        simp only [Registry.look, hget, Option.map_none, Option.getD_none, Option.map_id, id] at hlook
        exact hlook
      have hindex : (reg.topicWithIdentity topic initial identity).bySession = reg.bySession := by
        unfold Registry.topicWithIdentity
        rw [hget]
        rfl
      have habsent : ∀ s, (s, topic) ∉ subs := by
        intro s hmem
        obtain ⟨t, ht, _⟩ := (h.sinks s topic).mpr hmem
        rw [hget] at ht
        cases ht
      refine ⟨fun s x => ?_, fun s x => ?_, ?_⟩
      · by_cases hx : x = topic
        · subst hx
          refine iff_of_false ?_ (habsent s)
          rintro ⟨t, ht, hmem⟩
          rw [hnew, if_pos rfl] at ht
          obtain rfl := Option.some.inj ht
          exact absurd hmem (AList.notMem_empty s)
        · rw [Registry.Subscribed, hnew, if_neg hx]
          exact h.sinks s x
      · rw [Registry.Indexed, hindex]
        exact h.index s x
      · intro x t ht s hmem
        rw [hnew] at ht
        split_ifs at ht
        · obtain rfl := Option.some.inj ht
          exact absurd hmem (AList.notMem_empty s)
        · exact h.projections x t ht s hmem

theorem Registry.indexed_noteTopic (reg : Registry) (session s : SessionId) (topic x : String) :
    (reg.noteTopic session topic).Indexed s x ↔
      (s = session ∧ x = topic) ∨ reg.Indexed s x := by
  unfold Registry.noteTopic Registry.Indexed
  dsimp only
  by_cases hs : s = session
  · subst hs
    rw [AList.lookup_insert]
    cases reg.bySession.lookup s with
    | none => simp
    | some topics =>
        by_cases hmem : topic ∈ topics
        · simp only [Option.getD_some, hmem, if_true, Option.some.injEq, exists_eq_left', true_and]
          exact ⟨Or.inr, fun h => h.elim (fun hx => hx ▸ hmem) id⟩
        · simp [hmem, or_comm]
  · simp [AList.lookup_insert_ne hs, hs]

theorem Topic.mem_enrol {t : Topic} {session s : SessionId} {sender : Sender}
    {columns : Option Columns} :
    s ∈ (t.enrol session sender columns).subscribers ↔ s = session ∨ s ∈ t.subscribers := by
  simp [Topic.enrol]

theorem Topic.mem_enrol_projections {t : Topic} {session s : SessionId} {sender : Sender}
    {columns : Option Columns} (h : s ∈ (t.enrol session sender columns).projections) :
    s = session ∨ s ∈ t.projections := by
  cases columns with
  | none => exact Or.inr (by simpa [Topic.enrol] using And.right (by simpa [Topic.enrol] using h))
  | some columns => simpa [Topic.enrol] using h

theorem Registry.Tracks.enrol {reg reg' : Registry} {subs : Subscriptions} (h : reg.Tracks subs)
    {session : SessionId} {topic : String} (sender : Sender) (columns : Option Columns) {t : Topic}
    (ht : reg.get topic = some t) {f : Topic → Topic}
    (hf : ∀ t, (f t).sinks = (t.enrol session sender columns).sinks)
    (hreg : ∀ x, reg'.get x = (reg.modify topic f).get x)
    (hindex : reg'.bySession = reg.bySession) :
    (reg'.noteTopic session topic).Tracks (subs.join session topic) := by
  have hsub : ∀ t, (f t).subscribers = (t.enrol session sender columns).subscribers :=
    fun t => (Prod.mk.inj (hf t)).1
  have hproj : ∀ t, (f t).projections = (t.enrol session sender columns).projections :=
    fun t => (Prod.mk.inj (hf t)).2
  refine h.of_modify (f := f) hreg ?_ ?_ ?_ ?_
  · intro s x hx
    simp [Subscriptions.join, hx]
  · intro u hu s
    refine ⟨?_, ?_⟩
    · rw [hsub, Topic.mem_enrol, h.mem_subscribers hu]
      simp [Subscriptions.join]
    · rw [hsub, hproj, Topic.mem_enrol]
      exact fun hmem => (Topic.mem_enrol_projections hmem).imp_right (h.projections topic u hu s)
  · intro hnone
    rw [hnone] at ht
    exact nomatch ht
  · intro s x
    rw [Registry.indexed_noteTopic, Registry.Indexed, hindex]
    exact or_congr_right (h.index s x)

theorem Registry.Tracks.subscribe {reg : Registry} {subs : Subscriptions} (h : reg.Tracks subs)
    (session : SessionId) (topic : String) (sender : Sender) :
    ∃ subs, (reg.subscribe session topic sender).2.Tracks subs := by
  unfold Registry.subscribe
  cases ht : reg.get topic with
  | none => exact ⟨subs, h⟩
  | some t =>
      refine ⟨subs.join session topic, h.enrol sender none ht
        (f := fun t => { t.enrol session sender none with touched := reg.tick })
        (fun _ => rfl) (fun _ => rfl) ?_⟩
      exact reg.bySession_modify topic _

theorem Registry.get_topic (reg : Registry) (topic : String) (initial : List Char) :
    ∃ t, (reg.topic topic initial).get topic = some t := by
  have hlook := reg.look_topicWithIdentity (p := id) topic topic initial .static
  rw [if_pos rfl, Registry.look, Option.map_id] at hlook
  exact ⟨_, hlook⟩

theorem Registry.Tracks.grant {reg : Registry} {subs : Subscriptions} (h : reg.Tracks subs)
    (wire : Wire) (session : SessionId) (sender : Sender) (seed : GrantedSeed)
    (grant : TopicGrant) : ∃ subs, (reg.grant wire session sender seed grant).2.Tracks subs := by
  have htopic := h.topicWithIdentity grant.topic [] .static
  obtain ⟨t, ht⟩ := reg.get_topic grant.topic []
  unfold Registry.grant
  simp only [ht]
  refine ⟨subs.join session grant.topic, Registry.Tracks.enrol htopic sender
    grant.columns ht (fun _ => rfl) (fun _ => rfl) ?_⟩
  exact (reg.topic grant.topic []).bySession_modify grant.topic _

theorem Registry.Tracks.subscribeGranted {reg : Registry} {subs : Subscriptions}
    (h : reg.Tracks subs) (wire : Wire) (session : SessionId) (sender : Sender)
    (grants : List TopicGrant) :
    ∃ subs, (reg.subscribeGranted wire session sender grants).2.Tracks subs := by
  unfold Registry.subscribeGranted
  generalize (⟨[], []⟩ : GrantedSeed) = seed
  induction grants generalizing reg subs seed with
  | nil => exact ⟨subs, h⟩
  | cons grant grants ih =>
      obtain ⟨subs', h'⟩ := h.grant wire session sender seed grant
      exact ih h' _

/-! ### Reclaiming -/

theorem Registry.Tracks.dropIfIdle {reg : Registry} {subs : Subscriptions} (h : reg.Tracks subs)
    (topic : String) : (reg.dropIfIdle topic).2.Tracks subs := by
  have hlook := fun x => reg.look_dropIfIdle (p := id) topic x
  simp only [Registry.look, Option.map_id, id] at hlook
  unfold Registry.dropIfIdle at hlook ⊢
  cases ht : reg.get topic with
  | none => exact h
  | some t =>
      by_cases hidle : (t.identity.isEvictable && t.subscribers.keys.isEmpty) = true
      · simp only [ht, hidle, if_true, and_true] at hlook ⊢
        have hnobody : ∀ s, (s, topic) ∉ subs := by
          intro s hmem
          rw [← h.mem_subscribers ht, AList.mem_keys,
            List.isEmpty_iff.mp (Bool.and_eq_true_iff.mp hidle).2] at hmem
          cases hmem
        refine ⟨fun s x => ?_, h.index, ?_⟩
        · rw [Registry.Subscribed, hlook]
          by_cases hx : x = topic
          · subst hx
            rw [if_pos rfl]
            exact iff_of_false (by simp) (hnobody s)
          · rw [if_neg hx]
            exact h.sinks s x
        · intro x u hu
          rw [hlook] at hu
          split_ifs at hu
          exact h.projections x u hu
      · simpa only [ht, hidle, Bool.false_eq_true, if_false] using h

/-! ### Writing -/

def BroadcastDelivery.dropped (report : BroadcastDelivery) : List SessionId :=
  report.droppedFull ++ report.droppedClosed

theorem reportSend_count (wire : Wire) (t : Topic) (frame : OpcodeFrame)
    (report : BroadcastDelivery) (entry : Sigma fun _ : SessionId => Sender) :
    (reportSend wire t frame report entry).delivered.length +
        (reportSend wire t frame report entry).dropped.length =
      report.delivered.length + report.dropped.length + 1 := by
  unfold reportSend BroadcastDelivery.dropped
  dsimp only
  split_ifs
  · simp only [List.length_append, List.length_singleton]
    omega
  · split <;> simp only [List.length_append, List.length_singleton] <;> omega

theorem fanOutReport_count (wire : Wire) (t : Topic) (frame : OpcodeFrame) :
    (fanOutReport wire t frame).delivered.length + (fanOutReport wire t frame).dropped.length =
      t.subscribers.keys.length := by
  have hfold : ∀ (entries : List (Sigma fun _ : SessionId => Sender)) (report : BroadcastDelivery),
      (entries.foldl (reportSend wire t frame) report).delivered.length +
          (entries.foldl (reportSend wire t frame) report).dropped.length =
        report.delivered.length + report.dropped.length + entries.length := by
    intro entries
    induction entries with
    | nil => exact fun _ => rfl
    | cons entry entries ih =>
        intro report
        rw [List.foldl_cons, ih, reportSend_count, List.length_cons]
        omega
  have hall := hfold t.subscribers.entries
    { frame, delivered := [], droppedFull := [], droppedClosed := [] }
  rw [AList.keys, List.keys, List.length_map, fanOutReport_eq]
  simpa [BroadcastDelivery.dropped] using hall

/-- A write to a known topic: it fails to encode and drops nobody, or it drops exactly the
sessions its report names. -/
theorem Registry.Tracks.writeTopicDelta {reg : Registry} {subs : Subscriptions}
    (h : reg.Tracks subs) {topic : String} (wire : Wire)
    (compute : List Char → TopicTransition) {result : Except BroadcastError BroadcastDelivery}
    {reg' : Registry} (hwrite : reg.writeTopicDelta wire topic compute = (result, reg')) :
    match result with
    | .error _ => reg'.Tracks subs
    | .ok report => reg'.Tracks (subs.dropAll report.dropped) ∧
        report.delivered.length + report.dropped.length = reg.subscriberCount topic := by
  cases ht : reg.get topic with
  | none =>
      rw [Registry.writeTopicDelta, ht] at hwrite
      obtain ⟨rfl, rfl⟩ := Prod.mk.inj hwrite
      exact h
  | some t =>
      have hstored : (reg.written topic (t.written (compute t.value))).Tracks subs := by
        refine h.of_look (fun x => ?_) rfl
        rw [Registry.look_of_insert reg (t := t.written (compute t.value)) (by rfl)]
        split_ifs with hx
        · rw [hx, Registry.look, ht]
          rfl
        · rfl
      rw [Registry.writeTopicDelta_eq ht] at hwrite
      split_ifs at hwrite with hencodes
      · obtain ⟨rfl, rfl⟩ := Prod.mk.inj hwrite
        refine ⟨?_, ?_⟩
        · refine Registry.Tracks.of_look (hstored.dropSessions topic _) (fun x => ?_) ?_
          · exact Registry.look_modify _ topic x fun _ => rfl
          · exact Registry.bySession_modify _ topic _
        · rw [fanOutReport_count, Registry.subscriberCount, ht]
          rfl
      · obtain ⟨rfl, rfl⟩ := Prod.mk.inj hwrite
        exact hstored

theorem Registry.Tracks.write {reg : Registry} {subs : Subscriptions} (h : reg.Tracks subs)
    (wire : Wire) (topic : String) (compute : List Char → TopicTransition) :
    ∃ subs, (reg.writeTopicDelta wire topic compute).2.Tracks subs := by
  cases hwrite : reg.writeTopicDelta wire topic compute with
  | mk result reg' =>
      have hresult := h.writeTopicDelta wire compute hwrite
      cases result with
      | error err => exact ⟨_, hresult⟩
      | ok report => exact ⟨_, hresult.1⟩

/-! ### Every call -/

theorem Registry.Tracks.tryTopicWithIdentity {reg : Registry} {subs : Subscriptions}
    (h : reg.Tracks subs) (topic : String) (initial : List Char) (identity : TopicIdentity) :
    ((reg.tryTopicWithIdentity topic initial identity).toOption.getD reg).Tracks subs := by
  cases hres : reg.tryTopicWithIdentity topic initial identity with
  | error err => exact h
  | ok reg' =>
      rw [(Registry.tryTopicWithIdentity_ok hres).1]
      exact h.topicWithIdentity topic initial identity

theorem Registry.Tracks.tryTopicExternal {reg : Registry} {subs : Subscriptions}
    (h : reg.Tracks subs) (wire : Wire) (name source route url : String) (value : List Char) :
    ∃ subs, (((reg.tryTopicExternal wire name source route url value).toOption.map
      Prod.snd).getD reg).Tracks subs := by
  unfold Registry.tryTopicExternal
  cases reg.get name with
  | some t =>
      dsimp only
      split_ifs
      · exact ⟨subs, h⟩
      · exact h.write wire name _
  | none =>
      have htry := h.tryTopicWithIdentity name value (.external source route url)
      dsimp only
      revert htry
      cases reg.tryTopicWithIdentity name value (.external source route url) with
      | error err => exact fun htry => ⟨subs, htry⟩
      | ok reg' => exact fun htry => ⟨subs, htry⟩

theorem Registry.Tracks.perform {reg : Registry} {subs : Subscriptions} (h : reg.Tracks subs)
    (op : Op) : ∃ subs, (reg.perform op).Tracks subs := by
  cases op with
  | topic name initial => exact ⟨subs, h.topicWithIdentity name initial .static⟩
  | tryTopic name initial => exact ⟨subs, h.tryTopicWithIdentity name initial .static⟩
  | tryTopicPartition name collection key initial =>
      exact ⟨subs, h.tryTopicWithIdentity name initial (.partition collection key)⟩
  | tryTopicExternal wire name source route url value =>
      exact h.tryTopicExternal wire name source route url value
  | touch name =>
      refine ⟨subs, ?_⟩
      rw [Registry.perform, Registry.touch]
      cases reg.get name with
      | none => exact h
      | some t =>
          refine h.of_look (fun x => ?_) (reg.bySession_modify name _)
          exact reg.look_modify name x fun _ => rfl
  | subscribe session topic sender => exact h.subscribe session topic sender
  | subscribeGranted wire session sender grants =>
      exact h.subscribeGranted wire session sender grants
  | unsubscribe session topic => exact ⟨_, h.unsubscribe session topic⟩
  | cleanupSession session => exact ⟨_, h.cleanupSession session⟩
  | writeTopicDelta wire topic compute => exact h.write wire topic compute
  | dropIfIdle topic => exact ⟨subs, h.dropIfIdle topic⟩
  | enforceByteBudget budget =>
      exact ⟨subs, Registry.enforceByteBudget_induction (P := fun reg => reg.Tracks subs) h
        (fun _ topic h => h.dropIfIdle topic) budget⟩

theorem Registry.tracks_empty : Registry.empty.Tracks ∅ := by
  refine ⟨fun s x => ?_, fun s x => ?_, ?_⟩
  · exact iff_of_false (fun ⟨_, ht, _⟩ => nomatch ht) (Set.notMem_empty _)
  · exact iff_of_false (fun ⟨_, ht, _⟩ => nomatch ht) (Set.notMem_empty _)
  · intro x t ht
    exact nomatch ht

/-- Whatever calls a registry has taken, its maps agree, and a write then drops the
sessions that refused it from every topic and counts every subscriber once. -/
theorem subscriptions_agree (ops : List Op) (wire : Wire) (topic : String)
    (compute : List Char → TopicTransition) :
    (Registry.empty.run ops).Consistent ∧
      ∀ report reg', (Registry.empty.run ops).writeTopicDelta wire topic compute =
          (.ok report, reg') →
        (∀ session ∈ report.droppedFull ++ report.droppedClosed, ∀ x,
          ¬ reg'.Subscribed session x ∧ ¬ reg'.Indexed session x) ∧
        report.delivered.length + report.droppedFull.length + report.droppedClosed.length =
          (Registry.empty.run ops).subscriberCount topic := by
  obtain ⟨subs, htracks⟩ : ∃ subs, (Registry.empty.run ops).Tracks subs :=
    Registry.run_induction (P := fun reg => ∃ subs, reg.Tracks subs) ⟨∅, Registry.tracks_empty⟩
      (fun _ op ⟨_, h⟩ => h.perform op) ops
  refine ⟨Registry.consistent_iff.mpr ⟨subs, htracks⟩, ?_⟩
  intro report reg' hwrite
  obtain ⟨hafter, hcount⟩ := htracks.writeTopicDelta wire compute hwrite
  constructor
  · intro session hsession x
    have hgone : (session, x) ∉ subs.dropAll report.dropped := fun hmem => hmem.2 hsession
    exact ⟨fun h => hgone ((hafter.sinks session x).mp h),
      fun h => hgone ((hafter.index session x).mp h)⟩
  · rw [← hcount, BroadcastDelivery.dropped, List.length_append]
    omega

end Albedo.Broadcast
