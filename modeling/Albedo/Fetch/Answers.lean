import Albedo.Fetch.Eviction
import Albedo.Library.Separator
import Mathlib.Logic.Relation

/-!
# What a fetch returns

A call that the upstream answers returns what the upstream had when it answered, and nothing is
returned for a resource that was not had under it. A conditional request in flight counts on the
entry that it was made from.
-/
namespace Albedo.Fetch

/-! ### Resources -/

/-- What a request is for: all that its key is made of. -/
structure Resource where
  method : List Char
  url : List Char
  scope : CacheScope

def Resource.key (r : Resource) : ResourceKey :=
  ⟨r.method ++ nul :: (r.url ++ nul :: r.scope.tag)⟩

/-- The separator is in none of its parts but the last. -/
structure Resource.Plain (r : Resource) : Prop where
  method : nul ∉ r.method
  url : nul ∉ r.url

def ApertureRequest.resource (r : ApertureRequest) : Resource :=
  ⟨r.method.map Char.toUpper, r.url, r.scope⟩

theorem tag_injective : Function.Injective CacheScope.tag := by
  have hdigits : ∀ n : ℕ, ':' ∉ (toString n).toList := by
    intro n hmem
    rw [Nat.toString_eq_ofList_toDigits, String.toList_ofList] at hmem
    exact absurd (Nat.isDigit_of_mem_toDigits (by decide) (by decide) hmem) (by decide)
  intro scope scope' h
  cases scope with
  | pub =>
      cases scope' with
      | pub => rfl
      | app => exact absurd h (by decide)
      | principal id => cases h
  | app =>
      cases scope' with
      | pub => exact absurd h (by decide)
      | app => rfl
      | principal id => cases h
  | principal id =>
      cases scope' with
      | pub => cases h
      | app => cases h
      | principal id' =>
          simp only [CacheScope.tag, List.append_assoc] at h
          have hsplit := congrArg (Separator.splitOnce ':') (List.append_cancel_left h)
          rw [Separator.splitOnce_append (hdigits _), Separator.splitOnce_append (hdigits _)] at hsplit
          rw [(Prod.mk.inj (Option.some.inj hsplit)).2]

theorem Resource.eq_of_key {r r' : Resource} (hr : r.Plain) (hr' : r'.Plain) (h : r.key = r'.key) :
    r = r' := by
  have hsplit := congrArg (Separator.splitOnce nul) (ResourceKey.mk.inj h)
  rw [Separator.splitOnce_append hr.method, Separator.splitOnce_append hr'.method] at hsplit
  obtain ⟨hmethod, hrest⟩ := Prod.mk.inj (Option.some.inj hsplit)
  have hsplit' := congrArg (Separator.splitOnce nul) hrest
  rw [Separator.splitOnce_append hr.url, Separator.splitOnce_append hr'.url] at hsplit'
  obtain ⟨hurl, htag⟩ := Prod.mk.inj (Option.some.inj hsplit')
  obtain ⟨method, url, scope⟩ := r
  obtain ⟨method', url', scope'⟩ := r'
  dsimp only at hmethod hurl htag
  rw [hmethod, hurl, tag_injective htag]

theorem plain_resource {r : ApertureRequest} (hcacheable : r.isCacheable = true)
    (hurl : nul ∉ r.url) : r.resource.Plain := by
  refine ⟨?_, hurl⟩
  change nul ∉ r.method.map Char.toUpper
  simp only [ApertureRequest.isCacheable, Bool.or_eq_true, decide_eq_true_eq] at hcacheable
  rcases hcacheable with hmethod | hmethod
  · rw [hmethod]
    decide
  · rw [hmethod]
    decide

/-! ### The upstream -/

def named (name : String) (header : String × List Char) : Bool :=
  header.1.toList.map Char.toLower = name.toList

def WireRequest.Carries (wire : WireRequest) (name : String) (value : List Char) : Prop :=
  ∃ header ∈ wire.headers, named name header = true ∧ header.2 = value

def WireRequest.isConditional (wire : WireRequest) : Bool :=
  wire.headers.any fun header =>
    named "if-none-match" header || named "if-modified-since" header

abbrev Upstream := Resource → ℕ → WireResponse

structure Upstream.Validates (upstream : Upstream) : Prop where
  etag : ∀ r t t' etag, (upstream r t).etag = some etag → (upstream r t').etag = some etag →
    (upstream r t').body = (upstream r t).body
  lastModified : ∀ r t t' date, (upstream r t).lastModified = some date →
    (upstream r t').lastModified = some date → (upstream r t').body = (upstream r t).body

/-- An answer is what the upstream has now, or says that a validator that was sent is its own. -/
def Upstream.Answers (upstream : Upstream) (r : Resource) (now : ℕ) (wire : WireRequest)
    (response : WireResponse) : Prop :=
  if response.status = 304 then
    (∃ etag, wire.Carries "if-none-match" etag ∧ (upstream r now).etag = some etag) ∨
      ∃ date, wire.Carries "if-modified-since" date ∧ (upstream r now).lastModified = some date
  else response = upstream r now

def Upstream.Had (upstream : Upstream) (r : Resource) (now : ℕ) (response : CachedResponse) : Prop :=
  ∃ t ≤ now, response = (upstream r t).cached

theorem isConditional_of_carries {wire : WireRequest} {name : String} {value : List Char}
    (h : wire.Carries name value) (hname : name = "if-none-match" ∨ name = "if-modified-since") :
    wire.isConditional = true := by
  obtain ⟨header, hmem, hnamed, -⟩ := h
  refine List.any_eq_true.mpr ⟨header, hmem, ?_⟩
  rcases hname with rfl | rfl
  · rw [hnamed, Bool.true_or]
  · rw [hnamed, Bool.or_true]

theorem carries_wire {r : ApertureRequest} {validators : Validators} {name : String}
    {value : List Char} (hown : (r.wire ⟨none, none⟩).isConditional = false)
    (hname : name = "if-none-match" ∨ name = "if-modified-since")
    (h : (r.wire validators).Carries name value) :
    (name = "if-none-match" ∧ validators.etag = some value) ∨
      (name = "if-modified-since" ∧ validators.lastModified = some value) := by
  obtain ⟨header, hmem, hnamed, rfl⟩ := h
  rcases List.mem_append.mp hmem with hmine | hadded
  · have hcarries : (r.wire ⟨none, none⟩).Carries name header.2 :=
      ⟨header, List.mem_append_left _ hmine, hnamed, rfl⟩
    rw [isConditional_of_carries hcarries hname] at hown
    cases hown
  · obtain ⟨etag, lastModified⟩ := validators
    split_ifs at hadded
    · cases etag with
      | some etag =>
          cases List.mem_singleton.mp hadded
          rcases hname with rfl | rfl
          · exact .inl ⟨rfl, rfl⟩
          · have hother : "if-none-match".toList.map Char.toLower ≠ "if-modified-since".toList := by
              decide
            exact absurd (of_decide_eq_true hnamed) hother
      | none =>
          cases lastModified with
          | some date =>
              cases List.mem_singleton.mp hadded
              rcases hname with rfl | rfl
              · have hother : "if-modified-since".toList.map Char.toLower ≠ "if-none-match".toList := by
                  decide
                exact absurd (of_decide_eq_true hnamed) hother
              · exact .inr ⟨rfl, rfl⟩
          | none => cases hadded
    · cases hadded

/-! ### Calls and what they are owed -/

def Phase.counts : Phase → Bool
  | .performing _ (.charge wire) | .performing _ (.sent wire) => wire.isConditional
  | .performing _ .confirmed | .performing _ (.refresh _) | .performing _ .reread => true
  | _ => false

def Phase.stores : Phase → Bool
  | .performing _ (.measure _) | .performing _ (.collect _ _) | .performing _ (.evict _ _ _) => true
  | _ => false

def Client.Evicts (σ : Client) (i touched : ℕ) (key : ResourceKey) : Prop :=
  ∃ c leads response total footprint rest, σ.callers i = some c ∧
    c.phase = .performing leads (.evict response total ((touched, key, footprint) :: rest)) ∧
    σ.cache.budget < total

/-- No address has a separator in it, no request has conditional headers of its own, no leader is
dropped, and what is evicted has not been used since the list was made, nor does a call count on
it. -/
def Client.Meets (σ : Client) : Event → Prop
  | .call _ request => request.isCacheable = true →
      nul ∉ request.url ∧ (request.wire ⟨none, none⟩).isConditional = false
  | .run i => ∀ touched key entry, σ.Evicts i touched key → σ.cache.find key = some entry →
      entry.touched = touched ∧
        ∀ j d, σ.callers j = some d → d.phase.counts = true → d.request.key ≠ key
  | .drop i => ∀ c, σ.callers i = some c → c.phase.leads = false
  | _ => True

def Client.Heard (upstream : Upstream) (σ : Client) : Event → Prop
  | .answer i (.ok response) => ∀ c leads wire, σ.callers i = some c →
      c.phase = .performing leads (.sent wire) →
      upstream.Answers c.request.resource σ.now wire response
  | _ => True

structure World where
  client : Client
  /-- The body the upstream had when it answered a call. -/
  owed : ℕ → Option Bytes

namespace World

def owe (upstream : Upstream) (W : World) : Event → ℕ → Option Bytes
  | .answer i (.ok _) =>
      match W.client.callers i with
      | some c => Function.update W.owed i (some (upstream c.request.resource W.client.now).body)
      | none => W.owed
  | _ => W.owed

def next (check : ApertureRequest → Option ApertureError) (upstream : Upstream) (W : World)
    (event : Event) : Option World :=
  (W.client.next check event).map fun client => ⟨client, W.owe upstream event⟩

/-- The runs against an upstream whose steps all have a property. -/
inductive Run (check : ApertureRequest → Option ApertureError) (upstream : Upstream) (budget : ℕ)
    (P : Client → Event → Prop) : World → Prop
  | start : Run check upstream budget P ⟨Client.start budget, fun _ => none⟩
  | next {W W' : World} (hrun : Run check upstream budget P W) (event : Event)
      (hheard : W.client.Heard upstream event) (hevent : P W.client event)
      (hnext : W.next check upstream event = some W') : Run check upstream budget P W'

end World

/-! ### What each phase can count on -/

section Sound

variable (upstream : Upstream) (σ : Client) (r : ApertureRequest) (owed : Option Bytes)

def StageSound : Stage → Prop
  | .validators | .fallBack _ => owed = none
  | .charge wire | .sent wire => owed = none ∧ (wire.isConditional = true →
      ∃ entry, σ.cache.find r.key = some entry ∧ wire = r.wire entry.response.validators)
  | .confirmed | .reread =>
      ∃ entry, σ.cache.find r.key = some entry ∧ owed = some entry.response.body
  | .refresh read => ∃ entry, σ.cache.find r.key = some entry ∧ read.response = entry.response ∧
      read.footprint = entry.footprint ∧ owed = some entry.response.body
  | .compare response | .store response | .measure response | .collect response _
  | .evict response _ _ => owed = some response.body ∧ upstream.Had r.resource σ.now response

def OutcomeSound (outcome : Outcome) : Prop :=
  (∀ body, owed = some body → ∃ answer, outcome = .ok answer ∧ answer.response.body = body) ∧
    ∀ answer, outcome = .ok answer → upstream.Had r.resource σ.now answer.response

def PhaseSound : Phase → Prop
  | .called => owed = none
  | .joining _ => r.isCacheable = true ∧ owed = none
  | .following leader _ => r.isCacheable = true ∧ owed = none ∧
      ∃ d, σ.callers leader = some d ∧ d.request.key = r.key
  | .performing _ stage => r.isCacheable = true ∧ StageSound upstream σ r owed stage
  | .publishing outcome | .removing outcome =>
      r.isCacheable = true ∧ OutcomeSound upstream σ r owed outcome
  | .uncached _ _ => r.isCacheable = false
  | .returned outcome => r.isCacheable = true → OutcomeSound upstream σ r owed outcome
  | .dropped => r.isCacheable = true → owed = none

end Sound

/-- The invariant: every call is at a place it can count on, and what is kept or told was had. -/
structure Sound (upstream : Upstream) (W : World) : Prop where
  tidy : W.client.Tidy
  roomy : W.client.Roomy
  plain : ∀ i c, W.client.callers i = some c → c.request.isCacheable = true →
    nul ∉ c.request.url ∧ (c.request.wire ⟨none, none⟩).isConditional = false
  phases : ∀ i c, W.client.callers i = some c →
    PhaseSound upstream W.client c.request (W.owed i) c.phase
  kept : ∀ r : Resource, r.Plain → ∀ entry, W.client.cache.find r.key = some entry →
    upstream.Had r W.client.now entry.response
  published : ∀ leader outcome, W.client.published leader = some outcome →
    ∃ d, W.client.callers leader = some d ∧ d.request.isCacheable = true ∧
      ∀ answer, outcome = .ok answer →
        upstream.Had d.request.resource W.client.now answer.response
  fresh : ∀ i, W.client.callers i = none → W.owed i = none

section Steps

variable {check : ApertureRequest → Option ApertureError} {upstream : Upstream} {σ τ : Client}
  {r : ApertureRequest} {owed : Option Bytes} {phase : Phase} {i : ℕ} {c : Caller}

theorem Upstream.Had.later {r : Resource} {now later : ℕ} {response : CachedResponse}
    (h : upstream.Had r now response) (hnow : now ≤ later) : upstream.Had r later response := by
  obtain ⟨t, ht, heq⟩ := h
  exact ⟨t, ht.trans hnow, heq⟩

def SameEntry (before after : ResponseCache) (key : ResourceKey) : Prop :=
  ∀ entry, before.find key = some entry → ∃ kept, after.find key = some kept ∧
    kept.response = entry.response ∧ kept.footprint = entry.footprint

theorem SameEntry.refl (cache : ResponseCache) (key : ResourceKey) : SameEntry cache cache key :=
  fun entry h => ⟨entry, h, rfl, rfl⟩

theorem sameEntry_get (cache : ResponseCache) (key other : ResourceKey) (now : ℕ) (ttl : Option ℕ) :
    SameEntry cache (cache.get key now ttl).2 other := by
  intro entry hentry
  cases hkey : cache.find key with
  | none =>
      rw [ResponseCache.get_of_none hkey]
      exact ⟨entry, hentry, rfl, rfl⟩
  | some kept =>
      rw [ResponseCache.get_of_some hkey]
      dsimp only
      rw [ResponseCache.find_put]
      split_ifs with hother
      · rw [hother, hkey] at hentry
        obtain rfl := Option.some.inj hentry
        exact ⟨_, rfl, rfl, rfl⟩
      · exact ⟨entry, hentry, rfl, rfl⟩

theorem sameEntry_put {cache : ResponseCache} {key other : ResourceKey} (entry : Entry)
    (h : other ≠ key) : SameEntry cache (cache.put key entry) other := by
  intro kept hkept
  refine ⟨kept, ?_, rfl, rfl⟩
  rw [ResponseCache.find_put, if_neg h]
  exact hkept

theorem sameEntry_remove {cache : ResponseCache} {key other : ResourceKey} (h : other ≠ key) :
    SameEntry cache (cache.remove key) other := by
  intro kept hkept
  refine ⟨kept, ?_, rfl, rfl⟩
  rw [ResponseCache.find_remove, if_neg h]
  exact hkept

theorem OutcomeSound.later {outcome : Outcome} (h : OutcomeSound upstream σ r owed outcome)
    (hnow : σ.now ≤ τ.now) : OutcomeSound upstream τ r owed outcome :=
  ⟨h.1, fun answer hanswer => (h.2 answer hanswer).later hnow⟩

theorem PhaseSound.frame (h : PhaseSound upstream σ r owed phase) (hnow : σ.now ≤ τ.now)
    (hcallers : ∀ j d, σ.callers j = some d →
      ∃ d', τ.callers j = some d' ∧ d'.request = d.request)
    (hsame : phase.counts = true → SameEntry σ.cache τ.cache r.key) :
    PhaseSound upstream τ r owed phase := by
  cases phase with
  | following leader attempt =>
      obtain ⟨hcacheable, howed, d, hd, hkey⟩ := h
      obtain ⟨d', hd', hrequest⟩ := hcallers leader d hd
      exact ⟨hcacheable, howed, d', hd', hrequest ▸ hkey⟩
  | performing leads stage =>
      refine ⟨h.1, ?_⟩
      have hstage := h.2
      cases stage with
      | charge wire | sent wire =>
          refine ⟨hstage.1, fun hconditional => ?_⟩
          obtain ⟨entry, hentry, hwire⟩ := hstage.2 hconditional
          obtain ⟨kept, hkept, hresponse, -⟩ := hsame hconditional entry hentry
          exact ⟨kept, hkept, hresponse ▸ hwire⟩
      | confirmed | reread =>
          obtain ⟨entry, hentry, howed⟩ := hstage
          obtain ⟨kept, hkept, hresponse, -⟩ := hsame rfl entry hentry
          exact ⟨kept, hkept, hresponse ▸ howed⟩
      | refresh read =>
          obtain ⟨entry, hentry, hread, hfootprint, howed⟩ := hstage
          obtain ⟨kept, hkept, hresponse, hsize⟩ := hsame rfl entry hentry
          exact ⟨kept, hkept, hread.trans hresponse.symm, hfootprint.trans hsize.symm,
            hresponse ▸ howed⟩
      | validators | fallBack error => exact hstage
      | compare response | store response | measure response | collect response total
      | evict response total candidates => exact ⟨hstage.1, hstage.2.later hnow⟩
  | publishing outcome | removing outcome => exact ⟨h.1, h.2.later hnow⟩
  | returned outcome => exact fun hcacheable => (h hcacheable).later hnow
  | called | joining attempt | uncached wire sent | dropped => exact h

/-! ### One step -/

theorem Sound.only {W : World} (h : Sound upstream W) {leads : Bool} {stage : Stage} {j : ℕ}
    {d : Caller} (hc : W.client.callers i = some c) (hphase : c.phase = .performing leads stage)
    (hj : j ≠ i) (hd : W.client.callers j = some d) (hcounts : d.phase.counts = true) :
    d.request.key ≠ c.request.key := by
  intro hkey
  have hmine : c.phase.leads = true := by
    cases leads with
    | true =>
        rw [hphase]
        rfl
    | false => exact absurd hphase (h.tidy.led i c stage hc)
  have htheirs : d.phase.leads = true := by
    cases hother : d.phase with
    | performing leads' stage' =>
        cases leads' with
        | true => rfl
        | false => exact absurd hother (h.tidy.led j d stage' hd)
    | _ =>
        rw [hother] at hcounts
        cases hcounts
  have hentry := h.tidy.lead i c hc hmine
  rw [← hkey, h.tidy.lead j d hd htheirs] at hentry
  exact hj (Option.some.inj hentry)

theorem Sound.resource_plain {W : World} (h : Sound upstream W) (hc : W.client.callers i = some c)
    (hcacheable : c.request.isCacheable = true) : c.request.resource.Plain :=
  plain_resource hcacheable (h.plain i c hc hcacheable).1

theorem Sound.had {W : World} (h : Sound upstream W) (hc : W.client.callers i = some c)
    (hcacheable : c.request.isCacheable = true) {entry : Entry}
    (hentry : W.client.cache.find c.request.key = some entry) :
    upstream.Had c.request.resource W.client.now entry.response :=
  h.kept c.request.resource (h.resource_plain hc hcacheable) entry hentry

theorem Sound.step {W : World} (h : Sound upstream W) (hc : W.client.callers i = some c)
    {owed' : ℕ → Option Bytes} (hcallers : τ.callers = W.client.callers)
    (hnow : τ.now = W.client.now) (htidy : (τ.set i c phase).Tidy) (hroomy : (τ.set i c phase).Roomy)
    (howed : ∀ j, j ≠ i → owed' j = W.owed j)
    (hphase : PhaseSound upstream τ c.request (owed' i) phase)
    (hsame : ∀ j d, j ≠ i → W.client.callers j = some d → d.phase.counts = true →
      SameEntry W.client.cache τ.cache d.request.key)
    (hkept : ∀ key entry, τ.cache.find key = some entry →
      (∃ kept, W.client.cache.find key = some kept ∧ entry.response = kept.response) ∨
        key = c.request.key ∧ c.request.isCacheable = true ∧
          upstream.Had c.request.resource W.client.now entry.response)
    (hpublished : ∀ leader outcome, τ.published leader = some outcome →
      W.client.published leader = some outcome ∨
        leader = i ∧ c.request.isCacheable = true ∧ ∀ answer, outcome = .ok answer →
          upstream.Had c.request.resource W.client.now answer.response) :
    Sound upstream ⟨τ.set i c phase, owed'⟩ := by
  have hmine : (τ.set i c phase).callers i = some { c with phase } := by
    rw [Client.callers_set, if_pos rfl]
  have hothers : ∀ j d, j ≠ i → (τ.set i c phase).callers j = some d →
      W.client.callers j = some d := by
    intro j d hj hd
    rw [Client.callers_set, if_neg hj, hcallers] at hd
    exact hd
  have hrequests : ∀ j d, W.client.callers j = some d →
      ∃ d', (τ.set i c phase).callers j = some d' ∧ d'.request = d.request := by
    intro j d hd
    by_cases hj : j = i
    · subst hj
      rw [hc] at hd
      obtain rfl := Option.some.inj hd
      exact ⟨_, hmine, rfl⟩
    · refine ⟨d, ?_, rfl⟩
      rw [Client.callers_set, if_neg hj, hcallers]
      exact hd
  refine ⟨htidy, hroomy, ?_, ?_, ?_, ?_, ?_⟩
  · intro j d hd
    by_cases hj : j = i
    · subst hj
      rw [hmine] at hd
      obtain rfl := Option.some.inj hd
      exact h.plain j c hc
    · exact h.plain j d (hothers j d hj hd)
  · intro j d hd
    by_cases hj : j = i
    · subst hj
      rw [hmine] at hd
      obtain rfl := Option.some.inj hd
      refine hphase.frame (Nat.le_refl _) ?_ fun _ => .refl _ _
      intro leader d hd
      rw [hcallers] at hd
      exact hrequests leader d hd
    · have hd' := hothers j d hj hd
      change PhaseSound upstream _ d.request (owed' j) d.phase
      rw [howed j hj]
      exact (h.phases j d hd').frame hnow.ge hrequests (hsame j d hj hd')
  · intro r hr entry hentry
    change upstream.Had r τ.now entry.response
    rw [hnow]
    rcases hkept r.key entry hentry with ⟨kept, hold, hresponse⟩ | ⟨hkey, hcacheable, hhad⟩
    · rw [hresponse]
      exact h.kept r hr kept hold
    · rw [Resource.eq_of_key hr (h.resource_plain hc hcacheable) hkey]
      exact hhad
  · intro leader outcome hleader
    change ∃ d, _ ∧ _ ∧ ∀ answer, outcome = .ok answer → upstream.Had _ τ.now _
    rw [hnow]
    rcases hpublished leader outcome hleader with hold | ⟨rfl, hcacheable, hhad⟩
    · obtain ⟨d, hd, hcacheable, hhad⟩ := h.published leader outcome hold
      obtain ⟨d', hd', hrequest⟩ := hrequests leader d hd
      exact ⟨d', hd', by rw [hrequest]; exact hcacheable, by rw [hrequest]; exact hhad⟩
    · exact ⟨_, hmine, hcacheable, hhad⟩
  · intro j hj
    have hji : j ≠ i := by
      rintro rfl
      rw [hmine] at hj
      cases hj
    change (τ.set i c phase).callers j = none at hj
    rw [Client.callers_set, if_neg hji, hcallers] at hj
    change owed' j = none
    rw [howed j hji]
    exact h.fresh j hj

theorem Sound.aside {W : World} (h : Sound upstream W) (hc : W.client.callers i = some c)
    (hcallers : τ.callers = W.client.callers) (hnow : τ.now = W.client.now)
    (hpublished : τ.published = W.client.published)
    (hcache : τ.cache = W.client.cache ∨
      ∃ key now ttl, τ.cache = (W.client.cache.get key now ttl).2)
    (htidy : (τ.set i c phase).Tidy) (hroomy : (τ.set i c phase).Roomy)
    (hphase : PhaseSound upstream τ c.request (W.owed i) phase) :
    Sound upstream ⟨τ.set i c phase, W.owed⟩ := by
  refine h.step hc hcallers hnow htidy hroomy (fun _ _ => rfl) hphase ?_ ?_ ?_
  · intro j d _ _ _
    rcases hcache with hcache | ⟨key, now, ttl, hcache⟩
    · rw [hcache]
      exact .refl _ _
    · rw [hcache]
      exact sameEntry_get _ _ _ _ _
  · intro other entry hentry
    left
    rcases hcache with hcache | ⟨key, now, ttl, hcache⟩
    · rw [hcache] at hentry
      exact ⟨entry, hentry, rfl⟩
    · have hresponse : ((W.client.cache.get key now ttl).2.find other).map Entry.response =
          (W.client.cache.find other).map Entry.response := ResponseCache.response_get now ttl other
      rw [← hcache, hentry] at hresponse
      obtain ⟨kept, hkept, heq⟩ := Option.map_eq_some_iff.mp hresponse.symm
      exact ⟨kept, hkept, heq.symm⟩
  · intro leader outcome hleader
    rw [hpublished] at hleader
    exact .inl hleader

theorem phaseSound_finish {leads : Bool} {outcome : Outcome} (hcacheable : r.isCacheable = true)
    (h : OutcomeSound upstream σ r owed outcome) :
    PhaseSound upstream σ r owed (Client.finish leads outcome) := by
  cases leads with
  | true => exact ⟨hcacheable, h⟩
  | false => exact fun _ => h

theorem outcomeSound_error (howed : owed = none) (error : ApertureError) :
    OutcomeSound upstream σ r owed (.error error) := by
  constructor
  · intro body hbody
    rw [howed] at hbody
    cases hbody
  · rintro answer ⟨⟩

theorem outcomeSound_ok {response : CachedResponse} {disposition : Disposition}
    (howed : ∀ body, owed = some body → response.body = body)
    (hhad : upstream.Had r.resource σ.now response) :
    OutcomeSound upstream σ r owed (.ok ⟨response, disposition⟩) := by
  constructor
  · intro body hbody
    exact ⟨_, rfl, howed body hbody⟩
  · rintro answer ⟨⟩
    exact hhad

theorem Sound.confirmed {W : World} (h : Sound upstream W) (hvalidates : upstream.Validates)
    (hc : W.client.callers i = some c) {wire : WireRequest} {response : WireResponse}
    (hcacheable : c.request.isCacheable = true)
    (hstage : wire.isConditional = true → ∃ entry, W.client.cache.find c.request.key = some entry ∧
      wire = c.request.wire entry.response.validators)
    (hstatus : response.status = 304)
    (hanswers : upstream.Answers c.request.resource W.client.now wire response) :
    ∃ entry, W.client.cache.find c.request.key = some entry ∧
      (upstream c.request.resource W.client.now).body = entry.response.body := by
  have hown := (h.plain i c hc hcacheable).2
  rw [Upstream.Answers, if_pos hstatus] at hanswers
  rcases hanswers with ⟨etag, hcarries, hetag⟩ | ⟨date, hcarries, hdate⟩
  · obtain ⟨entry, hentry, rfl⟩ := hstage (isConditional_of_carries hcarries (.inl rfl))
    obtain ⟨t, -, hresponse⟩ := h.had hc hcacheable hentry
    refine ⟨entry, hentry, ?_⟩
    rcases carries_wire hown (.inl rfl) hcarries with ⟨-, hvalidator⟩ | ⟨hname, -⟩
    · rw [hresponse] at hvalidator ⊢
      exact hvalidates.etag _ t _ etag hvalidator hetag
    · exact absurd hname (by decide)
  · obtain ⟨entry, hentry, rfl⟩ := hstage (isConditional_of_carries hcarries (.inr rfl))
    obtain ⟨t, -, hresponse⟩ := h.had hc hcacheable hentry
    refine ⟨entry, hentry, ?_⟩
    rcases carries_wire hown (.inr rfl) hcarries with ⟨hname, -⟩ | ⟨-, hvalidator⟩
    · exact absurd hname (by decide)
    · rw [hresponse] at hvalidator ⊢
      exact hvalidates.lastModified _ t _ date hvalidator hdate

theorem Sound.moved {W : World} (h : Sound upstream W) (hvalidates : upstream.Validates)
    {event : Event} (hc : W.client.callers i = some c) (hheard : W.client.Heard upstream event)
    (hmeets : W.client.Meets event)
    (hmoved : Client.Moved check W.client i c.request event c.phase phase τ)
    (htidy : (τ.set i c phase).Tidy) : Sound upstream ⟨τ.set i c phase, W.owe upstream event⟩ := by
  have hsound := h.phases i c hc
  have hroomy : (τ.set i c phase).Roomy := by
    refine h.roomy.moved hc ?_ hmoved
    intro leads read hphase
    rw [hphase] at hsound
    obtain ⟨-, entry, hentry, -, hfootprint, -⟩ := hsound
    exact ⟨entry, hentry, hfootprint⟩
  have honly : ∀ leads stage, c.phase = .performing leads stage → ∀ j d, j ≠ i →
      W.client.callers j = some d → d.phase.counts = true → d.request.key ≠ c.request.key :=
    fun _ _ hphase _ _ hj hd => h.only hc hphase hj hd
  obtain ⟨request, before⟩ := c
  dsimp only at hmoved hsound honly
  cases hmoved with
  | refused herror =>
      exact h.aside hc rfl rfl rfl (.inl rfl) htidy hroomy fun _ => outcomeSound_error hsound _
  | bypasses huncacheable => exact h.aside hc rfl rfl rfl (.inl rfl) htidy hroomy huncacheable
  | misses hcacheable =>
      exact h.aside hc rfl rfl rfl (.inr ⟨_, _, _, rfl⟩) htidy hroomy ⟨hcacheable, hsound⟩
  | hits hcacheable hentry =>
      refine h.aside hc rfl rfl rfl (.inr ⟨_, _, _, rfl⟩) htidy hroomy fun _ => ?_
      refine outcomeSound_ok ?_ (h.had hc hcacheable hentry)
      intro body hbody
      rw [hsound] at hbody
      cases hbody
  | follows hleader =>
      obtain ⟨d, hd, hkey, -⟩ := h.tidy.held _ _ hleader
      exact h.aside hc rfl rfl rfl (.inl rfl) htidy hroomy ⟨hsound.1, hsound.2, d, hd, hkey⟩
  | leads hnobody => exact h.aside hc rfl rfl rfl (.inl rfl) htidy hroomy hsound
  | told houtcome =>
      obtain ⟨hcacheable, howed, d, hd, hkey⟩ := hsound
      obtain ⟨d', hd', hcacheable', hhad⟩ := h.published _ _ houtcome
      rw [hd] at hd'
      obtain rfl := Option.some.inj hd'
      have hresource : d.request.resource = request.resource :=
        Resource.eq_of_key (h.resource_plain hd hcacheable') (h.resource_plain hc hcacheable) hkey
      refine h.aside hc rfl rfl rfl (.inl rfl) htidy hroomy fun _ => ⟨?_, ?_⟩
      · intro body hbody
        rw [howed] at hbody
        cases hbody
      · rw [← hresource]
        exact hhad
  | rejoins => exact h.aside hc rfl rfl rfl (.inl rfl) htidy hroomy ⟨hsound.1, hsound.2.1⟩
  | performs => exact h.aside hc rfl rfl rfl (.inl rfl) htidy hroomy ⟨hsound.1, hsound.2.1⟩
  | validates =>
      refine h.aside hc rfl rfl rfl (.inl rfl) htidy hroomy ⟨hsound.1, hsound.2, ?_⟩
      intro hconditional
      cases hentry : W.client.cache.find request.key with
      | none =>
          rw [ResponseCache.validators, hentry] at hconditional
          have hown := (h.plain i _ hc hsound.1).2
          rw [Option.map_none, Option.getD_none, hown] at hconditional
          cases hconditional
      | some entry =>
          refine ⟨entry, rfl, ?_⟩
          rw [ResponseCache.validators, hentry]
          rfl
  | sends => exact h.aside hc rfl rfl rfl (.inl rfl) htidy hroomy hsound
  | throttled => exact h.aside hc rfl rfl rfl (.inl rfl) htidy hroomy ⟨hsound.1, hsound.2.1⟩
  | fails => exact h.aside hc rfl rfl rfl (.inl rfl) htidy hroomy ⟨hsound.1, hsound.2.1⟩
  | answers hstatus =>
      have hhad := hheard _ _ _ hc rfl
      rw [Upstream.Answers, if_neg hstatus] at hhad
      have howe : ∀ response, W.owe upstream (.answer i (.ok response)) =
          Function.update W.owed i (some (upstream request.resource W.client.now).body) := by
        intro response
        simp only [World.owe, hc]
      refine h.step hc rfl rfl htidy hroomy ?_ ⟨hsound.1, ?_, ?_⟩ (fun _ _ _ _ _ => .refl _ _)
        (fun _ entry hentry => .inl ⟨entry, hentry, rfl⟩) fun _ _ hleader => .inl hleader
      · intro j hj
        rw [howe]
        exact Function.update_of_ne hj ..
      · rw [howe, Function.update_self, hhad]
        rfl
      · exact ⟨W.client.now, Nat.le_refl _, by rw [hhad]⟩
  | confirms hstatus =>
      obtain ⟨entry, hentry, hbody⟩ := h.confirmed hvalidates hc hsound.1 hsound.2.2 hstatus
        (hheard _ _ _ hc rfl)
      have howe : ∀ response, W.owe upstream (.answer i (.ok response)) =
          Function.update W.owed i (some (upstream request.resource W.client.now).body) := by
        intro response
        simp only [World.owe, hc]
      refine h.step hc rfl rfl htidy hroomy ?_ ⟨hsound.1, entry, hentry, ?_⟩
        (fun _ _ _ _ _ => .refl _ _) (fun _ entry hentry => .inl ⟨entry, hentry, rfl⟩)
        fun _ _ hleader => .inl hleader
      · intro j hj
        rw [howe]
        exact Function.update_of_ne hj ..
      · rw [howe, Function.update_self]
        exact congrArg some hbody
  | vanished hstage hnone =>
      -- A call that was told that nothing has changed counts on its entry.
      obtain ⟨-, hsound⟩ := hsound
      rcases hstage with rfl | rfl
      · obtain ⟨entry, hentry, -⟩ := hsound
        rw [hnone] at hentry
        cases hentry
      · obtain ⟨entry, hentry, -⟩ := hsound
        rw [hnone] at hentry
        cases hentry
  | reads hentry =>
      obtain ⟨hcacheable, entry, hkept, howed⟩ := hsound
      rw [hentry] at hkept
      obtain rfl := Option.some.inj hkept
      exact h.aside hc rfl rfl rfl (.inl rfl) htidy hroomy ⟨hcacheable, _, hentry, rfl, rfl, howed⟩
  | refreshes =>
      obtain ⟨hcacheable, entry, hentry, hread, hfootprint, howed⟩ := hsound
      refine h.step hc rfl rfl htidy hroomy (fun _ _ => rfl) ⟨hcacheable, ?_⟩ ?_ ?_
        fun _ _ hleader => .inl hleader
      · refine ⟨_, (ResponseCache.find_put _ _).trans (if_pos rfl), ?_⟩
        change W.owed i = some _
        rw [howed, ← hread]
      · intro j d hj hd hcounts
        exact sameEntry_put _ (honly _ _ rfl j d hj hd hcounts)
      · intro key kept hkept
        left
        have hput := (ResponseCache.find_put key _).symm.trans hkept
        split_ifs at hput with hkey
        · cases hput
          exact ⟨entry, hkey ▸ hentry, hread⟩
        · exact ⟨kept, hput, rfl⟩
  | rereads hentry =>
      obtain ⟨hcacheable, entry, hkept, howed⟩ := hsound
      rw [hentry] at hkept
      obtain rfl := Option.some.inj hkept
      refine h.aside hc rfl rfl rfl (.inr ⟨_, _, _, rfl⟩) htidy hroomy
        (phaseSound_finish hcacheable (outcomeSound_ok ?_ (h.had hc hcacheable hentry)))
      intro body hbody
      rw [howed] at hbody
      exact Option.some.inj hbody
  | compares => exact h.aside hc rfl rfl rfl (.inr ⟨_, _, _, rfl⟩) htidy hroomy hsound
  | stores =>
      obtain ⟨hcacheable, howed, hhad⟩ := hsound
      refine h.step hc rfl rfl htidy hroomy (fun _ _ => rfl) ⟨hcacheable, howed, hhad⟩ ?_ ?_
        fun _ _ hleader => .inl hleader
      · intro j d hj hd hcounts
        exact sameEntry_put _ (honly _ _ rfl j d hj hd hcounts)
      · intro key kept hkept
        have hput := (ResponseCache.find_put key _).symm.trans hkept
        split_ifs at hput with hkey
        · cases hput
          exact .inr ⟨hkey, hcacheable, hhad⟩
        · exact .inl ⟨kept, hput, rfl⟩
  | fits | ends =>
      obtain ⟨hcacheable, howed, hhad⟩ := hsound
      refine h.aside hc rfl rfl rfl (.inl rfl) htidy hroomy
        (phaseSound_finish hcacheable (outcomeSound_ok ?_ hhad))
      intro body hbody
      rw [howed] at hbody
      exact Option.some.inj hbody
  | measures | collects | skips => exact h.aside hc rfl rfl rfl (.inl rfl) htidy hroomy hsound
  | evicts htotal hentry =>
      obtain ⟨-, huncounted⟩ := hmeets _ _ _ ⟨_, _, _, _, _, _, hc, rfl, htotal⟩ hentry
      refine h.step hc rfl rfl htidy hroomy (fun _ _ => rfl) hsound ?_ ?_
        fun _ _ hleader => .inl hleader
      · intro j d _ hd hcounts
        exact sameEntry_remove (huncounted j d hd hcounts)
      · intro key kept hkept
        left
        have hremove := (ResponseCache.find_remove key).symm.trans hkept
        split_ifs at hremove
        exact ⟨kept, hremove, rfl⟩
  | gives =>
      exact h.aside hc rfl rfl rfl (.inl rfl) htidy hroomy
        (phaseSound_finish hsound.1 (outcomeSound_error hsound.2 _))
  | falls hentry =>
      obtain ⟨hcacheable, howed⟩ := hsound
      refine h.aside hc rfl rfl rfl (.inr ⟨_, _, _, rfl⟩) htidy hroomy
        (phaseSound_finish hcacheable (outcomeSound_ok ?_ (h.had hc hcacheable hentry)))
      intro body hbody
      rw [howed] at hbody
      cases hbody
  | publishes =>
      refine h.step hc rfl rfl htidy hroomy (fun _ _ => rfl) hsound (fun _ _ _ _ _ => .refl _ _)
        (fun _ entry hentry => .inl ⟨entry, hentry, rfl⟩) ?_
      intro leader outcome hleader
      by_cases hi : leader = i
      · right
        rw [hi] at hleader
        have hmine := (Function.update_self i _ W.client.published).symm.trans hleader
        cases hmine
        exact ⟨hi, hsound.1, hsound.2.2⟩
      · exact .inl ((Function.update_of_ne hi ..).symm.trans hleader)
  | removes => exact h.aside hc rfl rfl rfl (.inl rfl) htidy hroomy fun _ => hsound.2
  | posts => exact h.aside hc rfl rfl rfl (.inl rfl) htidy hroomy hsound
  | refuses =>
      refine h.aside hc rfl rfl rfl (.inl rfl) htidy hroomy fun hcacheable => ?_
      rw [hsound] at hcacheable
      cases hcacheable
  | @posted wire answer =>
      refine h.step hc rfl rfl htidy hroomy ?_ ?_ (fun _ _ _ _ _ => .refl _ _)
        (fun _ entry hentry => .inl ⟨entry, hentry, rfl⟩) fun _ _ hleader => .inl hleader
      · intro j hj
        cases answer with
        | error error => rfl
        | ok response =>
            simp only [World.owe, hc]
            exact Function.update_of_ne hj ..
      · intro hcacheable
        rw [hsound] at hcacheable
        cases hcacheable
  | drops hfrom =>
      refine h.aside hc rfl rfl rfl (.inl rfl) htidy hroomy fun hcacheable => ?_
      rcases hfrom with ⟨leader, attempt, rfl⟩ | ⟨leads, wire, rfl⟩ | ⟨wire, rfl⟩
      · exact hsound.2.1
      · exact hsound.2.1
      · rw [hsound] at hcacheable
        cases hcacheable

/-! ### Runs -/

theorem Client.Roomy.call {request : ApertureRequest} (h : σ.Roomy) (hi : σ.callers i = none) :
    (σ.set i ⟨request, .called⟩ .called).Roomy := by
  refine ⟨h.ticked, ?_, ?_⟩
  · intro j d leads response total candidates hd hphase
    rw [Client.callers_set] at hd
    split_ifs at hd with hj
    · obtain rfl := Option.some.inj hd
      cases hphase
    · exact h.lists j d leads response total candidates hd hphase
  · refine h.room.imp_right ?_
    rintro ⟨j, d, hd, hcovers⟩
    refine ⟨j, d, ?_, hcovers⟩
    rw [Client.callers_set, if_neg]
    · exact hd
    · rintro rfl
      rw [hi] at hd
      cases hd

theorem Sound.call {W : World} {request : ApertureRequest} (h : Sound upstream W)
    (hi : W.client.callers i = none) (hmeets : W.client.Meets (.call i request)) :
    Sound upstream ⟨W.client.set i ⟨request, .called⟩ .called, W.owed⟩ := by
  have hrequests : ∀ j d, W.client.callers j = some d →
      (W.client.set i ⟨request, .called⟩ .called).callers j = some d := by
    intro j d hd
    rw [Client.callers_set, if_neg]
    · exact hd
    · rintro rfl
      rw [hi] at hd
      cases hd
  refine ⟨h.tidy.call hi request, h.roomy.call hi, ?_, ?_, h.kept, ?_, ?_⟩
  · intro j d hd
    change (W.client.set i _ _).callers j = some d at hd
    rw [Client.callers_set] at hd
    split_ifs at hd with hj
    · obtain rfl := Option.some.inj hd
      exact hmeets
    · exact h.plain j d hd
  · intro j d hd
    change (W.client.set i _ _).callers j = some d at hd
    rw [Client.callers_set] at hd
    split_ifs at hd with hj
    · obtain rfl := Option.some.inj hd
      rw [hj]
      exact h.fresh i hi
    · exact (h.phases j d hd).frame (Nat.le_refl _)
        (fun leader d hd => ⟨d, hrequests leader d hd, rfl⟩) fun _ => .refl _ _
  · intro leader outcome hleader
    obtain ⟨d, hd, hcacheable, hhad⟩ := h.published leader outcome hleader
    exact ⟨d, hrequests leader d hd, hcacheable, hhad⟩
  · intro j hj
    apply h.fresh j
    cases hd : W.client.callers j with
    | none => rfl
    | some d =>
        change (W.client.set i _ _).callers j = none at hj
        rw [hrequests j d hd] at hj
        cases hj

theorem Sound.pass {W : World} (h : Sound upstream W) (ms : ℕ) :
    Sound upstream ⟨{ W.client with now := W.client.now + ms }, W.owed⟩ := by
  have hnow : W.client.now ≤ W.client.now + ms := Nat.le_add_right _ _
  refine ⟨⟨h.tidy.lead, h.tidy.held, h.tidy.follow, h.tidy.told, h.tidy.led⟩,
    ⟨h.roomy.ticked, h.roomy.lists, h.roomy.room⟩, h.plain, ?_, ?_, ?_, h.fresh⟩
  · intro i c hc
    exact (h.phases i c hc).frame hnow (fun _ d hd => ⟨d, hd, rfl⟩) fun _ => .refl _ _
  · intro r hr entry hentry
    exact (h.kept r hr entry hentry).later hnow
  · intro leader outcome hleader
    obtain ⟨d, hd, hcacheable, hhad⟩ := h.published leader outcome hleader
    exact ⟨d, hd, hcacheable, fun answer hanswer => (hhad answer hanswer).later hnow⟩

theorem Sound.next {W W' : World} (h : Sound upstream W) (hvalidates : upstream.Validates)
    {event : Event} (hheard : W.client.Heard upstream event) (hmeets : W.client.Meets event)
    (hnext : W.next check upstream event = some W') : Sound upstream W' := by
  obtain ⟨client, hclient, rfl⟩ := Option.map_eq_some_iff.mp hnext
  have hkeeps : W.client.KeepsLeader event := by
    cases event with
    | drop i => exact hmeets
    | _ => exact trivial
  have htidy := h.tidy.next hkeeps hclient
  cases Client.stepped hclient with
  | call i request hi => exact h.call hi hmeets
  | pass ms => exact h.pass ms
  | step event i c phase τ hevent hc hstep =>
      exact h.moved hvalidates hc hheard hmeets (Client.moved hevent hstep) htidy

theorem sound_of_run {budget : ℕ} {W : World} (hvalidates : upstream.Validates)
    (h : World.Run check upstream budget Client.Meets W) : Sound upstream W := by
  induction h with
  | start =>
      have hstart : Client.Run check budget Client.KeepsLeader (Client.start budget) := .start
      refine ⟨hstart.tidy, Client.roomy_start budget, ?_, ?_, ?_, ?_, fun _ _ => rfl⟩
      · rintro i c ⟨⟩
      · rintro i c ⟨⟩
      · rintro r hr entry ⟨⟩
      · rintro leader outcome ⟨⟩
  | next hrun event hheard hmeets hnext ih => exact ih.next hvalidates hheard hmeets hnext

/-! ### An answered call comes to its end -/

def Client.Ends (check : ApertureRequest → Option ApertureError) (i : ℕ) (σ : Client) : Prop :=
  ∃ τ c outcome, Relation.ReflTransGen (fun σ τ => σ.next check (.run i) = some τ) σ τ ∧
    τ.callers i = some c ∧ c.phase = .returned outcome

theorem Client.ends_of_step (hc : σ.callers i = some c)
    (hstep : σ.runPhase check i c.request c.phase = some (phase, τ))
    (h : (τ.set i c phase).Ends check i) : σ.Ends check i := by
  obtain ⟨υ, d, outcome, hpath, hd, hphase⟩ := h
  have hnext : σ.next check (.run i) = some (τ.set i c phase) := by
    simp only [Client.next, Client.next.step, hc, Client.stepCaller, hstep, Option.map_some]
    rfl
  exact ⟨υ, d, outcome, hpath.head hnext, hd, hphase⟩

theorem Client.callers_set_self : (σ.set i c phase).callers i = some { c with phase } := by
  rw [Client.callers_set, if_pos rfl]

theorem Client.ends_of_finish {leads : Bool} {outcome : Outcome} (hc : σ.callers i = some c)
    (hphase : c.phase = Client.finish leads outcome) : σ.Ends check i := by
  cases leads with
  | false => exact ⟨σ, c, outcome, .refl, hc, hphase⟩
  | true =>
      -- It tells those that follow it, gives its place up and returns.
      refine Client.ends_of_step hc (by rw [hphase]; rfl) ?_
      refine Client.ends_of_step Client.callers_set_self rfl ?_
      exact ⟨_, _, outcome, .refl, Client.callers_set_self, rfl⟩

theorem Client.ends_of_evict {leads : Bool} {response : CachedResponse} {total : ℕ}
    {candidates : List (ℕ × ResourceKey × ℕ)} (hc : σ.callers i = some c)
    (hphase : c.phase = .performing leads (.evict response total candidates)) : σ.Ends check i := by
  induction candidates generalizing σ total c with
  | nil =>
      refine Client.ends_of_step hc (by rw [hphase]; rfl) ?_
      exact Client.ends_of_finish Client.callers_set_self rfl
  | cons candidate rest ih =>
      obtain ⟨touched, key, footprint⟩ := candidate
      by_cases htotal : total ≤ σ.cache.budget
      · refine Client.ends_of_step hc (by rw [hphase]; exact if_pos htotal) ?_
        exact Client.ends_of_finish Client.callers_set_self rfl
      · by_cases hentry : (σ.cache.find key).isSome
        · refine Client.ends_of_step hc
            (by rw [hphase]; exact (if_neg htotal).trans (if_pos hentry)) ?_
          exact ih Client.callers_set_self rfl
        · refine Client.ends_of_step hc
            (by rw [hphase]; exact (if_neg htotal).trans (if_neg hentry)) ?_
          exact ih Client.callers_set_self rfl

theorem Client.ends_of_measure {leads : Bool} {response : CachedResponse}
    (hc : σ.callers i = some c) (hphase : c.phase = .performing leads (.measure response)) :
    σ.Ends check i := by
  by_cases hfits : σ.cache.residentBytes ≤ σ.cache.budget
  · refine Client.ends_of_step hc (by rw [hphase]; exact if_pos hfits) ?_
    exact Client.ends_of_finish Client.callers_set_self rfl
  · refine Client.ends_of_step hc (by rw [hphase]; exact if_neg hfits) ?_
    refine Client.ends_of_step Client.callers_set_self rfl ?_
    exact Client.ends_of_evict Client.callers_set_self rfl

theorem Client.ends_of_store {leads : Bool} {response : CachedResponse}
    (hc : σ.callers i = some c) (hphase : c.phase = .performing leads (.store response)) :
    σ.Ends check i := by
  refine Client.ends_of_step hc (by rw [hphase]; rfl) ?_
  exact Client.ends_of_measure Client.callers_set_self rfl

theorem Client.ends_of_reread {leads : Bool} (hc : σ.callers i = some c)
    (hphase : c.phase = .performing leads .reread) : σ.Ends check i := by
  cases hentry : σ.cache.find c.request.key with
  | none =>
      have hstep : σ.runPhase check i c.request c.phase =
          some (Client.finish leads (.error .danglingRevalidation), σ) := by
        rw [hphase]
        simp only [Client.runPhase, Client.runStage, ResponseCache.get_of_none hentry]
      exact Client.ends_of_step hc hstep (Client.ends_of_finish Client.callers_set_self rfl)
  | some entry =>
      have hstep : σ.runPhase check i c.request c.phase =
          some (Client.finish leads (.ok ⟨entry.response, .notModified⟩),
            { σ with cache := σ.cache.put c.request.key entry }) := by
        rw [hphase]
        simp only [Client.runPhase, Client.runStage, ResponseCache.get_of_some hentry]
      exact Client.ends_of_step hc hstep (Client.ends_of_finish Client.callers_set_self rfl)

theorem Client.ends_of_refresh {leads : Bool} {entry : Entry} (hc : σ.callers i = some c)
    (hphase : c.phase = .performing leads (.refresh entry)) : σ.Ends check i := by
  refine Client.ends_of_step hc (by rw [hphase]; rfl) ?_
  exact Client.ends_of_reread Client.callers_set_self rfl

theorem Client.ends_of_confirmed {leads : Bool} (hc : σ.callers i = some c)
    (hphase : c.phase = .performing leads .confirmed) : σ.Ends check i := by
  cases hentry : σ.cache.find c.request.key with
  | none =>
      have hstep : σ.runPhase check i c.request c.phase =
          some (Client.finish leads (.error .danglingRevalidation), σ) := by
        rw [hphase]
        simp only [Client.runPhase, Client.runStage, hentry]
      exact Client.ends_of_step hc hstep (Client.ends_of_finish Client.callers_set_self rfl)
  | some entry =>
      have hstep : σ.runPhase check i c.request c.phase =
          some (.performing leads (.refresh entry), σ) := by
        rw [hphase]
        simp only [Client.runPhase, Client.runStage, hentry]
      exact Client.ends_of_step hc hstep (Client.ends_of_refresh Client.callers_set_self rfl)

theorem Sound.ends {W : World} (h : Sound upstream W) {body : Bytes}
    (hc : W.client.callers i = some c) (hcacheable : c.request.isCacheable = true)
    (howed : W.owed i = some body) : W.client.Ends check i := by
  have hsound := h.phases i c hc
  rw [howed] at hsound
  cases hphase : c.phase with
  | performing leads stage =>
      rw [hphase] at hsound
      obtain ⟨-, hstage⟩ := hsound
      cases stage with
      | validators | fallBack error => cases hstage
      | charge wire | sent wire => cases hstage.1
      | confirmed => exact Client.ends_of_confirmed hc hphase
      | refresh entry => exact Client.ends_of_refresh hc hphase
      | reread => exact Client.ends_of_reread hc hphase
      | compare response =>
          refine Client.ends_of_step hc (by rw [hphase]; rfl) ?_
          exact Client.ends_of_store Client.callers_set_self rfl
      | store response => exact Client.ends_of_store hc hphase
      | measure response => exact Client.ends_of_measure hc hphase
      | collect response total =>
          refine Client.ends_of_step hc (by rw [hphase]; rfl) ?_
          exact Client.ends_of_evict Client.callers_set_self rfl
      | evict response total candidates => exact Client.ends_of_evict hc hphase
  | publishing outcome =>
      have hfinish : c.phase = Client.finish true outcome := hphase
      exact Client.ends_of_finish hc hfinish
  | removing outcome =>
      refine Client.ends_of_step hc (by rw [hphase]; rfl) ?_
      exact ⟨_, _, outcome, .refl, Client.callers_set_self, rfl⟩
  | returned outcome => exact ⟨_, c, outcome, .refl, hc, hphase⟩
  | called =>
      rw [hphase] at hsound
      cases hsound
  | joining attempt =>
      rw [hphase] at hsound
      cases hsound.2
  | following leader attempt =>
      rw [hphase] at hsound
      cases hsound.2.1
  | uncached wire sent =>
      rw [hphase] at hsound
      rw [hsound] at hcacheable
      cases hcacheable
  | dropped =>
      rw [hphase] at hsound
      cases hsound hcacheable

/-! ### Real answers -/

/-- An answered call comes to its end and has what the upstream had then, whatever is returned was
had under its resource, once nobody stores there is room, and what is evicted was used longest
ago. -/
structure Real (check : ApertureRequest → Option ApertureError) (upstream : Upstream) (W : World) :
    Prop where
  ends : ∀ i c body, W.client.callers i = some c → c.request.isCacheable = true →
    W.owed i = some body → W.client.Ends check i
  answered : ∀ i c outcome body, W.client.callers i = some c → c.request.isCacheable = true →
    c.phase = .returned outcome → W.owed i = some body →
      ∃ answer, outcome = .ok answer ∧ answer.response.body = body
  apart : ∀ i c answer, W.client.callers i = some c → c.request.isCacheable = true →
    c.phase = .returned (.ok answer) →
      upstream.Had c.request.resource W.client.now answer.response
  room : (∀ i c, W.client.callers i = some c → c.phase.stores = false) →
    W.client.cache.residentBytes ≤ W.client.cache.budget
  oldest : ∀ i, W.client.Meets (.run i) → ∀ touched key entry other kept,
    W.client.Evicts i touched key → W.client.cache.find key = some entry →
      W.client.cache.find other = some kept → entry.touched ≤ kept.touched

theorem Sound.real {W : World} (h : Sound upstream W) : Real check upstream W := by
  refine ⟨fun i c body => h.ends, ?_, ?_, ?_, ?_⟩
  · intro i c outcome body hc hcacheable hphase howed
    have hsound := h.phases i c hc
    rw [hphase] at hsound
    exact (hsound hcacheable).1 body howed
  · intro i c answer hc hcacheable hphase
    have hsound := h.phases i c hc
    rw [hphase] at hsound
    exact (hsound hcacheable).2 answer rfl
  · intro hnobody
    rcases h.roomy.room with hfits | ⟨i, c, hc, hcovers⟩
    · exact hfits
    · have hstores := hnobody i c hc
      cases hphase : c.phase with
      | performing leads stage =>
          rw [hphase] at hstores hcovers
          cases stage with
          | measure response | collect response total | evict response total candidates =>
              cases hstores
          | _ => exact hcovers.elim
      | _ =>
          rw [hphase] at hcovers
          exact hcovers.elim
  · intro i hmeets touched key entry other kept hevicts hentry hkept
    obtain ⟨htouched, -⟩ := hmeets touched key entry hevicts hentry
    obtain ⟨c, leads, response, total, footprint, rest, hc, hphase, -⟩ := hevicts
    rw [htouched]
    exact (h.roomy.lists i c leads response total _ hc hphase).head_le hkept

end Steps

/-- What a fetch returns is real, where no address has a separator in it, no request makes itself
conditional, no leader is dropped and no call counts on what is evicted. -/
theorem answers_are_real (check : ApertureRequest → Option ApertureError) (budget : ℕ)
    {upstream : Upstream} (hvalidates : upstream.Validates) :
    ∀ W, World.Run check upstream budget Client.Meets W → Real check upstream W :=
  fun _ h => (sound_of_run hvalidates h).real

/-! ### Two calls for one page, and one for another -/

def still : Upstream := fun _ _ => ⟨200, [1], [], some ['v'], none, none⟩

theorem validates_still : still.Validates :=
  ⟨fun _ _ _ _ _ _ => rfl, fun _ _ _ _ _ _ => rfl⟩

def asks (url : List Char) : ApertureRequest := ⟨"get".toList, url, .app, some 0, [], none⟩

def here : ApertureRequest := asks "https://a/".toList

def there : ApertureRequest := asks "https://b/".toList

def unchanged : WireResponse := ⟨304, [], [], none, none, none⟩

def Phase.calm : Phase → Bool
  | .performing _ (.evict _ _ _) => false
  | _ => true

section Paths

variable {upstream : Upstream} {budget : ℕ} {P : Client → Event → Prop} {W W' : World}

theorem meets_of_calm {σ : Client} {i : ℕ} (h : (σ.callers i).all fun c => c.phase.calm) :
    σ.Meets (.run i) := by
  rintro touched key entry ⟨c, leads, response, total, footprint, rest, hc, hphase, -⟩ _
  rw [hc, Option.all_some, hphase] at h
  cases h

theorem World.Run.runs (h : World.Run Client.openPolicy upstream budget P W) (i : ℕ)
    (hevent : P W.client (.run i))
    (hnext : W.next Client.openPolicy upstream (.run i) = some W') :
    World.Run Client.openPolicy upstream budget P W' :=
  h.next (.run i) trivial hevent hnext

theorem World.Run.collects {c : Caller} {response : CachedResponse} {total : ℕ}
    {candidates : List (ℕ × ResourceKey × ℕ)}
    (h : World.Run Client.openPolicy upstream budget P W) (i : ℕ) (hevent : P W.client (.run i))
    (hc : W.client.callers i = some c)
    (hphase : c.phase = .performing true (.collect response total))
    (hcandidates : W.client.cache.candidates = candidates) :
    World.Run Client.openPolicy upstream budget P
      ⟨W.client.set i c (.performing true (.evict response total candidates)), W.owed⟩ := by
  refine h.runs i hevent ?_
  rw [← hcandidates]
  simp only [World.next, Client.next, Client.next.step, hc, Client.stepCaller, hphase]
  rfl

end Paths

theorem answers_are_real_here :
    ∃ W : World, W.owed 1 = some [1] ∧ Real Client.openPolicy still W := by
  have hstart : World.Run Client.openPolicy still 100 Client.Meets
      ⟨Client.start 100, fun _ => none⟩ := .start
  have hsent := hstart.next (.call 0 here) trivial (fun _ => ⟨by decide, by decide⟩) rfl
  have hsent := hsent.runs 0 (meets_of_calm rfl) rfl
  have hsent := hsent.runs 0 (meets_of_calm rfl) rfl
  have hsent := hsent.runs 0 (meets_of_calm rfl) rfl
  have hsent := hsent.runs 0 (meets_of_calm rfl) rfl
  have hkept := hsent.next (.answer 0 (.ok (still here.resource 0)))
    (fun c leads wire hc hphase => by cases hc; cases hphase; rfl) trivial rfl
  have hkept := hkept.runs 0 (meets_of_calm rfl) rfl
  have hkept := hkept.runs 0 (meets_of_calm rfl) rfl
  have hkept := hkept.runs 0 (meets_of_calm rfl) rfl
  have hkept := hkept.runs 0 (meets_of_calm rfl) rfl
  have hkept := hkept.runs 0 (meets_of_calm rfl) rfl
  have hstale := hkept.next (.pass 1) trivial trivial rfl
  have hstale := hstale.next (.call 1 here) trivial (fun _ => ⟨by decide, by decide⟩) rfl
  have hstale := hstale.runs 1 (meets_of_calm rfl) rfl
  have hstale := hstale.runs 1 (meets_of_calm rfl) rfl
  have hstale := hstale.runs 1 (meets_of_calm rfl) rfl
  have hstale := hstale.runs 1 (meets_of_calm rfl) rfl
  have hconfirmed := hstale.next (.answer 1 (.ok unchanged))
    (fun c leads wire hc hphase => by
      cases hc
      cases hphase
      exact .inl ⟨['v'], ⟨("if-none-match", ['v']), List.mem_cons_self, by decide, rfl⟩, rfl⟩)
    trivial rfl
  exact ⟨_, rfl, answers_are_real Client.openPolicy 100 validates_still _ hconfirmed⟩

def forged : ApertureRequest :=
  ⟨"get".toList, "https://a/".toList ++ nul :: "user:8:b".toList, .pub, none, [], none⟩

def theirs : ApertureRequest :=
  ⟨"get".toList, "https://a/".toList, .principal ('b' :: nul :: "public".toList), none, [], none⟩

def own : Upstream := fun r _ =>
  ⟨200, if r.scope = .pub then [1] else [2], [], none, none, none⟩

/-- An entry that a conditional request was made from is evicted while it is in flight, and a
separator in an address makes two keys one. -/
theorem answer_not_real :
    (∃ W, World.Run Client.openPolicy still 30 (fun _ _ => True) W ∧
      ¬ Real Client.openPolicy still W) ∧
    ∃ W, World.Run Client.openPolicy own 1000 (fun _ _ => True) W ∧
      ¬ Real Client.openPolicy own W := by
  constructor
  · have hstart : World.Run Client.openPolicy still 30 (fun _ _ => True)
        ⟨Client.start 30, fun _ => none⟩ := .start
    have hsent := hstart.next (.call 0 here) trivial trivial rfl
    have hsent := hsent.runs 0 trivial rfl
    have hsent := hsent.runs 0 trivial rfl
    have hsent := hsent.runs 0 trivial rfl
    have hsent := hsent.runs 0 trivial rfl
    have hkept := hsent.next (.answer 0 (.ok (still here.resource 0)))
      (fun c leads wire hc hphase => by cases hc; cases hphase; rfl) trivial rfl
    have hkept := hkept.runs 0 trivial rfl
    have hkept := hkept.runs 0 trivial rfl
    have hkept := hkept.runs 0 trivial rfl
    have hkept := hkept.runs 0 trivial rfl
    have hkept := hkept.runs 0 trivial rfl
    have hstale := hkept.next (.pass 1) trivial trivial rfl
    have hstale := hstale.next (.call 1 here) trivial trivial rfl
    have hstale := hstale.runs 1 trivial rfl
    have hstale := hstale.runs 1 trivial rfl
    have hstale := hstale.runs 1 trivial rfl
    have hstale := hstale.runs 1 trivial rfl
    -- While its conditional request is on the wire another page takes the room.
    have hother := hstale.next (.call 2 there) trivial trivial rfl
    have hother := hother.runs 2 trivial rfl
    have hother := hother.runs 2 trivial rfl
    have hother := hother.runs 2 trivial rfl
    have hother := hother.runs 2 trivial rfl
    have hother := hother.next (.answer 2 (.ok (still there.resource 1)))
      (fun c leads wire hc hphase => by cases hc; cases hphase; rfl) trivial rfl
    have hother := hother.runs 2 trivial rfl
    have hother := hother.runs 2 trivial rfl
    have hother := hother.runs 2 trivial rfl
    have hevicted := hother.collects 2 trivial rfl rfl (List.mergeSort_of_pairwise (by decide))
    have hevicted := hevicted.runs 2 trivial rfl
    have hconfirmed := hevicted.next (.answer 1 (.ok unchanged))
      (fun c leads wire hc hphase => by
        cases hc
        cases hphase
        exact .inl ⟨['v'], ⟨("if-none-match", ['v']), List.mem_cons_self, by decide, rfl⟩, rfl⟩)
      trivial rfl
    have hfailed := hconfirmed.runs 1 trivial rfl
    have hfailed := hfailed.runs 1 trivial rfl
    have hfailed := hfailed.runs 1 trivial rfl
    refine ⟨_, hfailed, fun hreal => ?_⟩
    obtain ⟨answer, hanswer, -⟩ := hreal.answered 1 _ _ _ rfl (by decide) rfl rfl
    cases hanswer
  · have hstart : World.Run Client.openPolicy own 1000 (fun _ _ => True)
        ⟨Client.start 1000, fun _ => none⟩ := .start
    have hsent := hstart.next (.call 0 theirs) trivial trivial rfl
    have hsent := hsent.runs 0 trivial rfl
    have hsent := hsent.runs 0 trivial rfl
    have hsent := hsent.runs 0 trivial rfl
    have hsent := hsent.runs 0 trivial rfl
    have hkept := hsent.next (.answer 0 (.ok (own theirs.resource 0)))
      (fun c leads wire hc hphase => by cases hc; cases hphase; rfl) trivial rfl
    have hkept := hkept.runs 0 trivial rfl
    have hkept := hkept.runs 0 trivial rfl
    have hkept := hkept.runs 0 trivial rfl
    have hkept := hkept.runs 0 trivial rfl
    have hkept := hkept.runs 0 trivial rfl
    have hhit := hkept.next (.call 1 forged) trivial trivial rfl
    have hhit := hhit.runs 1 trivial rfl
    refine ⟨_, hhit, fun hreal => ?_⟩
    obtain ⟨t, -, hhad⟩ := hreal.apart 1 _ _ rfl (by decide) rfl
    have hbody := congrArg CachedResponse.body hhad
    cases hbody

end Albedo.Fetch
