import Mathlib.Data.List.Sort
import Albedo.Runtime.Registration

/-!
# One wire slot a topic

The wire names a topic by a 32-bit hash. Boot checks the names it registers for
collisions, and the guard refuses a name whose slot another holds. As long as every
registration is one the guard would let through, each live topic holds its own slot.
-/
namespace Albedo.Broadcast

/-! ### The check at boot -/

/-- Note one name in the slots seen so far, or the pair that collides. -/
def checkTopic (acc : (AList fun _ : SlotId => String) × List String) (topic : String) :
    (AList fun _ : SlotId => String) × List String :=
  let slot := broadcastSlotId topic
  match acc.1.lookup slot with
  | some existing =>
      if existing ≠ topic then
        (acc.1, acc.2 ++ [s!"topics '{existing}' and '{topic}' both hash to wire slot {slot}; " ++
          "rename one — they would share a slot and cross-deliver"])
      else (acc.1.insert slot topic, acc.2)
  | none => (acc.1.insert slot topic, acc.2)

def checkTopicSlotIds (topics : List String) : Except (List String) Unit :=
  let problems := ((topics.insertionSort (· ≤ ·)).foldl checkTopic (∅, [])).2
  if problems = [] then .ok () else .error problems

theorem checkTopic_problems {acc : (AList fun _ : SlotId => String) × List String}
    {topic : String} (h : (checkTopic acc topic).2 = []) :
    acc.2 = [] ∧ checkTopic acc topic = (acc.1.insert (broadcastSlotId topic) topic, []) ∧
      ∀ existing, acc.1.lookup (broadcastSlotId topic) = some existing → existing = topic := by
  unfold checkTopic at h ⊢
  cases hlook : acc.1.lookup (broadcastSlotId topic) with
  | none =>
      simp only [hlook] at h ⊢
      exact ⟨h, by rw [h], nofun⟩
  | some existing =>
      by_cases hne : existing = topic
      · simp only [hlook, hne, ne_eq, not_true, if_false] at h ⊢
        exact ⟨h, by rw [h], fun _ ht => (Option.some.inj ht).symm⟩
      · simp [hlook, hne] at h

theorem checkTopics_problems {topics : List String}
    {acc : (AList fun _ : SlotId => String) × List String}
    (h : (topics.foldl checkTopic acc).2 = []) : acc.2 = [] := by
  induction topics generalizing acc with
  | nil => exact h
  | cons topic topics ih => exact (checkTopic_problems (ih h)).1

theorem checkTopics_distinct {topics : List String}
    {acc : (AList fun _ : SlotId => String) × List String}
    (h : (topics.foldl checkTopic acc).2 = []) :
    (∀ a ∈ topics, ∀ seen, acc.1.lookup (broadcastSlotId a) = some seen → seen = a) ∧
      ∀ a ∈ topics, ∀ b ∈ topics, broadcastSlotId a = broadcastSlotId b → a = b := by
  induction topics generalizing acc with
  | nil => simp
  | cons topic topics ih =>
      rw [List.foldl_cons] at h
      obtain ⟨hacc, hnext, hseen⟩ := checkTopic_problems (checkTopics_problems h)
      obtain ⟨hlater, hpairs⟩ := ih h
      rw [hnext] at hlater
      -- a later name at this slot would have found this one there
      have hsame : ∀ a ∈ topics, broadcastSlotId a = broadcastSlotId topic → a = topic := by
        intro a ha hslot
        exact (hlater a ha topic (by rw [hslot, AList.lookup_insert])).symm
      constructor
      · intro a ha seen hlook
        rcases List.mem_cons.mp ha with rfl | ha
        · exact hseen seen hlook
        · by_cases hslot : broadcastSlotId a = broadcastSlotId topic
          · rw [hslot] at hlook
            rw [hseen seen hlook, hsame a ha hslot]
          · exact hlater a ha seen (by rw [AList.lookup_insert_ne hslot, hlook])
      · intro a ha b hb hslot
        rcases List.mem_cons.mp ha with rfl | ha'
        · rcases List.mem_cons.mp hb with rfl | hb'
          · rfl
          · exact (hsame b hb' hslot.symm).symm
        · rcases List.mem_cons.mp hb with rfl | hb'
          · exact hsame a ha' hslot
          · exact hpairs a ha' b hb' hslot

theorem checkTopicSlotIds_ok {topics : List String} (h : checkTopicSlotIds topics = .ok ()) :
    ∀ a ∈ topics, ∀ b ∈ topics, broadcastSlotId a = broadcastSlotId b → a = b := by
  unfold checkTopicSlotIds at h
  dsimp only at h
  split_ifs at h with hproblems
  intro a ha b hb
  exact (checkTopics_distinct hproblems).2 a ((List.mem_insertionSort _).mpr ha) b
    ((List.mem_insertionSort _).mpr hb)

/-! ### The slots of the live topics -/

def Registry.SlotsDistinct (reg : Registry) : Prop :=
  ∀ a b s t, reg.get a = some s → reg.get b = some t → s.slotId = t.slotId → a = b

/-- Every live topic holds its slot in the reverse index, and only live topics hold one. -/
structure Registry.SlotsHeld (reg : Registry) : Prop where
  named : reg.Named
  held : ∀ x t, reg.get x = some t → reg.slotIds.lookup (broadcastSlotId x) = some x
  live : ∀ slot x, reg.slotIds.lookup slot = some x →
    slot = broadcastSlotId x ∧ ∃ t, reg.get x = some t

theorem Registry.SlotsHeld.distinct {reg : Registry} (h : reg.SlotsHeld) : reg.SlotsDistinct := by
  intro a b s t hs ht hslot
  have ha := h.held a s hs
  have hb := h.held b t ht
  rw [← (h.named a s hs).2, hslot, (h.named b t ht).2, hb] at ha
  exact (Option.some.inj ha).symm

theorem Registry.guardSlotId_ok_iff {reg : Registry} {name : String} :
    reg.guardSlotId name = .ok () ↔
      ∀ holder, reg.slotIds.lookup (broadcastSlotId name) = some holder → holder = name := by
  unfold Registry.guardSlotId
  dsimp only
  cases reg.slotIds.lookup (broadcastSlotId name) with
  | none => simp
  | some holder => by_cases h : holder = name <;> simp [h]

theorem Registry.slotIds_topicWithIdentity {reg : Registry} {name : String}
    (h : reg.get name = none) (initial : List Char) (identity : TopicIdentity) (slot : SlotId) :
    (reg.topicWithIdentity name initial identity).slotIds.lookup slot =
      if slot = broadcastSlotId name then
        some ((reg.slotIds.lookup (broadcastSlotId name)).getD name)
      else reg.slotIds.lookup slot := by
  unfold Registry.topicWithIdentity
  simp only [h, Option.isSome_none, Bool.false_eq_true, if_false]
  cases hlook : reg.slotIds.lookup (broadcastSlotId name) with
  | none =>
      by_cases hslot : slot = broadcastSlotId name
      · subst hslot
        simp
      · simp [hslot, AList.lookup_insert_ne hslot]
  | some holder =>
      by_cases hslot : slot = broadcastSlotId name
      · subst hslot
        simp [hlook]
      · simp [hslot]

theorem Registry.get_topicWithIdentity_self (reg : Registry) (name : String)
    (initial : List Char) (identity : TopicIdentity) :
    ∃ t, (reg.topicWithIdentity name initial identity).get name = some t := by
  have hlook := reg.look_topicWithIdentity (p := id) name name initial identity
  rw [if_pos rfl, Registry.look, Option.map_id] at hlook
  exact ⟨_, hlook⟩

theorem Registry.get_topicWithIdentity_of_get {reg : Registry} {name x : String} {t : Topic}
    (h : reg.get x = some t) (initial : List Char) (identity : TopicIdentity) :
    (reg.topicWithIdentity name initial identity).get x = some t := by
  have hlook := reg.look_topicWithIdentity (p := id) name x initial identity
  simp only [Registry.look, Option.map_id, id] at hlook
  rw [hlook]
  split_ifs with hx
  · rw [← hx, h]
    rfl
  · exact h

theorem Registry.SlotsHeld.register {reg : Registry} (h : reg.SlotsHeld) {name : String}
    (hget : reg.get name = none) (hguard : reg.guardSlotId name = .ok ()) (initial : List Char)
    (identity : TopicIdentity) : (reg.topicWithIdentity name initial identity).SlotsHeld := by
  have hfree : (reg.slotIds.lookup (broadcastSlotId name)).getD name = name := by
    cases hlook : reg.slotIds.lookup (broadcastSlotId name) with
    | none => rfl
    | some holder => exact Registry.guardSlotId_ok_iff.mp hguard holder hlook
  refine ⟨named_kept.register h.named hget trivial, ?_, ?_⟩
  · intro x t ht
    rw [Registry.slotIds_topicWithIdentity hget, hfree]
    rcases Registry.get_topicWithIdentity ht with ht | ⟨rfl, _, _⟩
    · split_ifs with hslot
      · rw [← Registry.guardSlotId_ok_iff.mp hguard x (hslot ▸ h.held x t ht)]
      · exact h.held x t ht
    · rw [if_pos rfl]
  · intro slot x hlook
    rw [Registry.slotIds_topicWithIdentity hget, hfree] at hlook
    split_ifs at hlook with hslot
    · obtain rfl := Option.some.inj hlook
      exact ⟨hslot, reg.get_topicWithIdentity_self name initial identity⟩
    · obtain ⟨hx, t, ht⟩ := h.live slot x hlook
      exact ⟨hx, t, Registry.get_topicWithIdentity_of_get ht initial identity⟩

theorem Registry.slotIds_dropIfIdle (reg : Registry) (name : String) (slot : SlotId) :
    (reg.dropIfIdle name).2.slotIds.lookup slot =
      if (reg.dropIfIdle name).1 = true ∧ slot = broadcastSlotId name ∧
          reg.slotIds.lookup slot = some name then none
      else reg.slotIds.lookup slot := by
  unfold Registry.dropIfIdle
  cases reg.get name with
  | none => simp
  | some t =>
      by_cases hidle : (t.identity.isEvictable && t.subscribers.keys.isEmpty) = true
      · simp only [hidle, if_true, true_and]
        by_cases hslot : slot = broadcastSlotId name
        · subst hslot
          by_cases hheld : reg.slotIds.lookup (broadcastSlotId name) = some name
          · simp [hheld]
          · simp [hheld]
        · by_cases hheld : reg.slotIds.lookup (broadcastSlotId name) = some name
          · simp [hheld, hslot, AList.lookup_erase_ne hslot]
          · simp [hheld, hslot]
      · simp [hidle]

theorem Registry.SlotsHeld.dropIfIdle {reg : Registry} (h : reg.SlotsHeld) (name : String) :
    (reg.dropIfIdle name).2.SlotsHeld := by
  have hget := fun x => reg.look_dropIfIdle (p := id) name x
  simp only [Registry.look, Option.map_id, id] at hget
  refine ⟨named_kept.drop h.named, ?_, ?_⟩
  · intro x t ht
    have hlive := Registry.get_dropIfIdle ht
    rw [Registry.slotIds_dropIfIdle, h.held x t hlive, if_neg]
    rintro ⟨hdropped, _, hx⟩
    rw [hget, if_pos ⟨Option.some.inj hx, hdropped⟩] at ht
    cases ht
  · intro slot x hlook
    rw [Registry.slotIds_dropIfIdle] at hlook
    split_ifs at hlook with hdropped
    obtain ⟨hslot, t, ht⟩ := h.live slot x hlook
    refine ⟨hslot, t, ?_⟩
    rw [hget, if_neg, ht]
    rintro ⟨rfl, hgone⟩
    exact hdropped ⟨hgone, hslot, hlook⟩

theorem slotsHeld_kept :
    Kept Registry.SlotsHeld fun reg name _ => reg.guardSlotId name = .ok () where
  same := by
    intro reg reg' hsame h
    refine ⟨named_kept.same hsame h.named, ?_, ?_⟩
    · intro x t' ht'
      obtain ⟨t, ht, _⟩ := hsame.get ht'
      rw [hsame.slotIds]
      exact h.held x t ht
    · intro slot x hlook
      rw [hsame.slotIds] at hlook
      obtain ⟨hslot, t, ht⟩ := h.live slot x hlook
      refine ⟨hslot, Option.ne_none_iff_exists'.mp fun hnone => ?_⟩
      rw [hsame.get_eq_none, ht] at hnone
      exact nomatch hnone
  register := fun h hget hguard => h.register hget hguard _ _
  drop := fun h => h.dropIfIdle _

/-! ### Boot -/

def Registry.boot (topics : List (String × List Char)) : Registry :=
  topics.foldl (fun reg topic => reg.topic topic.1 topic.2) .empty

theorem Kept.boot {P : Registry → Prop} {K : Registry → String → TopicIdentity → Prop}
    (hk : Kept P K) {topics : List (String × List Char)}
    (htopics : ∀ topic ∈ topics, ∀ reg, K reg topic.1 .static) (h : P .empty) :
    P (.boot topics) := by
  unfold Registry.boot
  generalize Registry.empty = reg at h ⊢
  induction topics generalizing reg with
  | nil => exact h
  | cons topic topics ih =>
      obtain ⟨htopic, hrest⟩ := List.forall_mem_cons.mp htopics
      exact ih hrest _ (hk.topicWithIdentity h (fun _ => htopic reg) topic.2)

theorem Registry.slotsHeld_empty : Registry.empty.SlotsHeld :=
  ⟨fun _ _ ht => (nomatch ht), fun _ _ ht => (nomatch ht), fun _ _ hlook => (nomatch hlook)⟩

theorem Registry.SlotsHeld.registerAll {names : List String}
    (hnames : ∀ a ∈ names, ∀ b ∈ names, broadcastSlotId a = broadcastSlotId b → a = b)
    {topics : List (String × List Char)} (htopics : ∀ topic ∈ topics, topic.1 ∈ names)
    {reg : Registry} (h : reg.SlotsHeld) (hlive : ∀ x t, reg.get x = some t → x ∈ names) :
    (topics.foldl (fun reg topic => reg.topic topic.1 topic.2) reg).SlotsHeld := by
  induction topics generalizing reg with
  | nil => exact h
  | cons topic topics ih =>
      obtain ⟨hmem, hrest⟩ := List.forall_mem_cons.mp htopics
      have hguard : reg.guardSlotId topic.1 = .ok () := by
        rw [Registry.guardSlotId_ok_iff]
        intro holder hholder
        obtain ⟨hslot, t, ht⟩ := h.live _ holder hholder
        exact hnames holder (hlive holder t ht) topic.1 hmem hslot.symm
      refine ih hrest (slotsHeld_kept.topicWithIdentity h (fun _ => hguard) topic.2) ?_
      intro x t ht
      rcases Registry.get_topicWithIdentity ht with ht | ⟨rfl, _, _⟩
      · exact hlive x t ht
      · exact hmem

theorem Registry.slotsHeld_boot {topics : List (String × List Char)}
    (h : checkTopicSlotIds (topics.map Prod.fst) = .ok ()) : (Registry.boot topics).SlotsHeld :=
  Registry.SlotsHeld.registerAll (checkTopicSlotIds_ok h)
    (fun _ ht => List.mem_map_of_mem ht) Registry.slotsHeld_empty fun _ _ ht => nomatch ht

end Albedo.Broadcast
