import Albedo.Fetch.SingleFlight

/-!
# Room in the cache

Whoever stores a response makes room for it, and while it does others store, use and evict. Once
nobody is at it any more, what is kept is within the budget, and what was evicted was used longest
ago.
-/
namespace Albedo.Fetch
open KeyedList

/-! ### Sizes and ticks -/

namespace ResponseCache

variable {cache after : ResponseCache} {key : ResourceKey} {now : ℕ}

theorem residentBytes_put {entry kept : Entry} (h : cache.find key = some kept)
    (hfootprint : entry.footprint = kept.footprint) :
    (cache.put key entry).residentBytes = cache.residentBytes :=
  sum_map_put Entry.footprint h hfootprint

theorem residentBytes_remove {kept : Entry} (h : cache.find key = some kept) :
    (cache.remove key).residentBytes + kept.footprint = cache.residentBytes :=
  sum_map_remove Entry.footprint cache.nodup h

theorem residentBytes_eq_zero (h : ∀ key, cache.find key = none) : cache.residentBytes = 0 := by
  have hnil : cache.entries = [] := by
    cases hentries : cache.entries with
    | nil => rfl
    | cons e rest =>
        have hnone := h e.1
        unfold find at hnone
        rw [hentries, List.lookup_cons, beq_self_eq_true] at hnone
        cases hnone
  unfold residentBytes
  rw [hnil]
  rfl

theorem mem_candidates {touched footprint : ℕ} :
    (touched, key, footprint) ∈ cache.candidates ↔
      ∃ entry, cache.find key = some entry ∧ entry.touched = touched ∧
        entry.footprint = footprint := by
  unfold candidates
  rw [List.mem_mergeSort, List.mem_map]
  constructor
  · rintro ⟨⟨other, entry⟩, hmem, heq⟩
    obtain ⟨rfl, rfl, rfl⟩ := heq
    exact ⟨entry, lookup_of_mem cache.nodup hmem, rfl, rfl⟩
  · rintro ⟨entry, hentry, rfl, rfl⟩
    exact ⟨(key, entry), mem_of_lookup hentry, rfl⟩

theorem sorted_candidates : cache.candidates.Pairwise fun a b => a.1 ≤ b.1 := by
  have htrans : ∀ a b c : ℕ × ResourceKey × ℕ, decide (a.1 ≤ b.1) = true →
      decide (b.1 ≤ c.1) = true → decide (a.1 ≤ c.1) = true := by
    intro a b c hab hbc
    exact decide_eq_true ((of_decide_eq_true hab).trans (of_decide_eq_true hbc))
  have htotal : ∀ a b : ℕ × ResourceKey × ℕ, (decide (a.1 ≤ b.1) || decide (b.1 ≤ a.1)) = true := by
    intro a b
    simpa using Nat.le_total a.1 b.1
  have hsorted := List.pairwise_mergeSort htrans htotal
    (cache.entries.map fun e => (e.2.touched, e.1, e.2.footprint))
  exact hsorted.imp of_decide_eq_true

theorem nodup_candidates : (cache.candidates.map fun x => x.2.1).Nodup := by
  have hperm := (List.mergeSort_perm (cache.entries.map fun e => (e.2.touched, e.1, e.2.footprint))
    fun a b => decide (a.1 ≤ b.1)).map fun x => x.2.1
  refine hperm.nodup_iff.mpr ?_
  rw [List.map_map]
  exact cache.nodup

def Ticked (cache : ResponseCache) : Prop :=
  ∀ key entry, cache.find key = some entry → entry.touched < cache.tick

/-- What is kept after a step was kept before, or has been used since. -/
structure Uses (cache after : ResponseCache) : Prop where
  tick : cache.tick ≤ after.tick
  budget : after.budget = cache.budget
  ticked : cache.Ticked → after.Ticked
  entries : ∀ key entry, after.find key = some entry →
    (∃ kept, cache.find key = some kept ∧ kept.touched = entry.touched) ∨
      cache.tick ≤ entry.touched

structure Shrinks (cache after : ResponseCache) : Prop where
  residentBytes : after.residentBytes ≤ cache.residentBytes
  entries : ∀ key entry, after.find key = some entry →
    ∃ kept, cache.find key = some kept ∧ kept.footprint = entry.footprint

theorem Uses.refl (cache : ResponseCache) : cache.Uses cache :=
  ⟨Nat.le_refl _, rfl, fun h => h, fun _ entry h => .inl ⟨entry, h, rfl⟩⟩

theorem Shrinks.refl (cache : ResponseCache) : cache.Shrinks cache :=
  ⟨Nat.le_refl _, fun _ entry h => ⟨entry, h, rfl⟩⟩

theorem uses_put (key : ResourceKey) (entry : Entry) : cache.Uses (cache.put key entry) := by
  refine ⟨Nat.le_succ _, rfl, ?_, ?_⟩
  · intro hticked other kept hkept
    rw [find_put] at hkept
    split_ifs at hkept
    · obtain rfl := Option.some.inj hkept
      exact Nat.lt_succ_self _
    · exact Nat.lt_succ_of_lt (hticked other kept hkept)
  · intro other kept hkept
    rw [find_put] at hkept
    split_ifs at hkept
    · obtain rfl := Option.some.inj hkept
      exact .inr (Nat.le_refl _)
    · exact .inl ⟨kept, hkept, rfl⟩

theorem uses_remove (key : ResourceKey) : cache.Uses (cache.remove key) := by
  have hkept : ∀ other entry, (cache.remove key).find other = some entry →
      cache.find other = some entry := by
    intro other entry h
    rw [find_remove] at h
    split_ifs at h
    exact h
  refine ⟨Nat.le_refl _, rfl, ?_, ?_⟩
  · intro hticked other entry h
    exact hticked other entry (hkept other entry h)
  · intro other entry h
    exact .inl ⟨entry, hkept other entry h, rfl⟩

theorem shrinks_put {entry kept : Entry} (h : cache.find key = some kept)
    (hfootprint : entry.footprint = kept.footprint) : cache.Shrinks (cache.put key entry) := by
  refine ⟨(residentBytes_put h hfootprint).le, ?_⟩
  intro other found hfound
  rw [find_put] at hfound
  split_ifs at hfound with hother
  · obtain rfl := Option.some.inj hfound
    exact ⟨kept, hother ▸ h, hfootprint.symm⟩
  · exact ⟨found, hfound, rfl⟩

theorem shrinks_remove {kept : Entry} (h : cache.find key = some kept) :
    cache.Shrinks (cache.remove key) := by
  refine ⟨?_, ?_⟩
  · rw [← residentBytes_remove h]
    exact Nat.le_add_right _ _
  · intro other entry hentry
    rw [find_remove] at hentry
    split_ifs at hentry
    exact ⟨entry, hentry, rfl⟩

theorem uses_get (key : ResourceKey) (now : ℕ) (ttl : Option ℕ) :
    cache.Uses (cache.get key now ttl).2 := by
  cases hentry : cache.find key with
  | none =>
      rw [get_of_none hentry]
      exact .refl cache
  | some entry =>
      rw [get_of_some hentry]
      exact uses_put key entry

theorem shrinks_get (key : ResourceKey) (now : ℕ) (ttl : Option ℕ) :
    cache.Shrinks (cache.get key now ttl).2 := by
  cases hentry : cache.find key with
  | none =>
      rw [get_of_none hentry]
      exact .refl cache
  | some entry =>
      rw [get_of_some hentry]
      exact shrinks_put hentry rfl

/-- What is to be evicted, of entries that were used before now: in order, each once, and
everything kept is on the list or was used after all that is. -/
structure Lists (cache : ResponseCache) (candidates : List (ℕ × ResourceKey × ℕ)) : Prop where
  sorted : candidates.Pairwise fun a b => a.1 ≤ b.1
  nodup : (candidates.map fun x => x.2.1).Nodup
  past : ∀ x ∈ candidates, x.1 < cache.tick
  oldest : ∀ key entry, cache.find key = some entry →
    (∃ footprint, (entry.touched, key, footprint) ∈ candidates) ∨
      ∀ x ∈ candidates, x.1 ≤ entry.touched

theorem lists_candidates (h : cache.Ticked) : cache.Lists cache.candidates := by
  refine ⟨sorted_candidates, nodup_candidates, ?_, ?_⟩
  · rintro ⟨touched, key, footprint⟩ hx
    obtain ⟨entry, hentry, rfl, -⟩ := mem_candidates.mp hx
    exact h key entry hentry
  · intro key entry hentry
    exact .inl ⟨entry.footprint, mem_candidates.mpr ⟨entry, hentry, rfl, rfl⟩⟩

theorem Lists.uses {candidates : List (ℕ × ResourceKey × ℕ)} (h : cache.Lists candidates)
    (huses : cache.Uses after) : after.Lists candidates := by
  refine ⟨h.sorted, h.nodup, fun x hx => (h.past x hx).trans_le huses.tick, ?_⟩
  intro key entry hentry
  rcases huses.entries key entry hentry with ⟨kept, hkept, htouched⟩ | hnew
  · rw [← htouched]
    exact h.oldest key kept hkept
  · exact .inr fun x hx => (h.past x hx).le.trans hnew

theorem Lists.tail {touched footprint : ℕ} {rest : List (ℕ × ResourceKey × ℕ)}
    (h : cache.Lists ((touched, key, footprint) :: rest)) (hgone : cache.find key = none) :
    cache.Lists rest := by
  refine ⟨h.sorted.tail, h.nodup.tail, fun x hx => h.past x (List.mem_cons_of_mem _ hx), ?_⟩
  intro other entry hentry
  rcases h.oldest other entry hentry with ⟨footprint', hmem⟩ | hnew
  · rcases List.mem_cons.mp hmem with heq | hrest
    · cases heq
      rw [hgone] at hentry
      cases hentry
    · exact .inl ⟨footprint', hrest⟩
  · exact .inr fun x hx => hnew x (List.mem_cons_of_mem _ hx)

theorem Lists.head_le {touched footprint : ℕ} {rest : List (ℕ × ResourceKey × ℕ)}
    (h : cache.Lists ((touched, key, footprint) :: rest)) {other : ResourceKey} {entry : Entry}
    (hentry : cache.find other = some entry) : touched ≤ entry.touched := by
  rcases h.oldest other entry hentry with ⟨footprint', hmem⟩ | hnew
  · rcases List.mem_cons.mp hmem with heq | hrest
    · cases heq
      exact Nat.le_refl _
    · exact List.rel_of_pairwise_cons h.sorted hrest
  · exact hnew _ List.mem_cons_self

end ResponseCache

/-! ### What one step can do -/

namespace Client

variable {check : ApertureRequest → Option ApertureError} {σ σ' : Client} {i : ℕ} {c : Caller}
  {phase : Phase}

/-- From which phase a call goes to which other, and what else changes with it. -/
inductive Moved (check : ApertureRequest → Option ApertureError) (σ : Client) (i : ℕ)
    (r : ApertureRequest) : Event → Phase → Phase → Client → Prop
  | refused {error} (h : check r = some error) :
      Moved check σ i r (.run i) .called (.returned (.error error)) σ
  | bypasses (h : r.isCacheable = false) :
      Moved check σ i r (.run i) .called (.uncached (r.wire ⟨none, none⟩) false) σ
  | misses (h : r.isCacheable = true) :
      Moved check σ i r (.run i) .called (.joining 0)
        { σ with cache := (σ.cache.get r.key σ.now r.ttl).2 }
  | hits {entry} (h : r.isCacheable = true) (hentry : σ.cache.find r.key = some entry) :
      Moved check σ i r (.run i) .called (.returned (.ok ⟨entry.response, .freshHit⟩))
        { σ with cache := (σ.cache.get r.key σ.now r.ttl).2 }
  | follows {attempt leader} (h : σ.inflight r.key = some leader) :
      Moved check σ i r (.run i) (.joining attempt) (.following leader attempt) σ
  | leads {attempt} (h : σ.inflight r.key = none) :
      Moved check σ i r (.run i) (.joining attempt) (.performing true .validators)
        { σ with inflight := Function.update σ.inflight r.key (some i) }
  | told {leader attempt outcome} (h : σ.published leader = some outcome) :
      Moved check σ i r (.run i) (.following leader attempt) (.returned outcome) σ
  | rejoins {leader attempt} :
      Moved check σ i r (.run i) (.following leader attempt) (.joining (attempt + 1)) σ
  | performs {leader attempt} (h : σ.published leader = none) (hgone : σ.alive leader = false) :
      Moved check σ i r (.run i) (.following leader attempt) (.performing false .validators) σ
  | validates {leads} :
      Moved check σ i r (.run i) (.performing leads .validators)
        (.performing leads
          (.charge (r.wire ((σ.cache.validators r.key).getD ⟨none, none⟩)))) σ
  | sends {leads wire} :
      Moved check σ i r (.run i) (.performing leads (.charge wire)) (.performing leads (.sent wire))
        { σ with sends := r.key :: σ.sends }
  | throttled {leads wire host retryAfter} :
      Moved check σ i r (.refuse i host retryAfter) (.performing leads (.charge wire))
        (.performing leads (.fallBack (.throttled host retryAfter))) σ
  | fails {leads wire error} :
      Moved check σ i r (.answer i (.error error)) (.performing leads (.sent wire))
        (.performing leads (.fallBack error)) σ
  | answers {leads wire response} (h : response.status ≠ 304) :
      Moved check σ i r (.answer i (.ok response)) (.performing leads (.sent wire))
        (.performing leads (.compare response.cached))
        { σ with answers := (r.key, response) :: σ.answers }
  | confirms {leads wire response} (h : response.status = 304) :
      Moved check σ i r (.answer i (.ok response)) (.performing leads (.sent wire))
        (.performing leads .confirmed) { σ with answers := (r.key, response) :: σ.answers }
  | vanished {leads stage} (hstage : stage = .confirmed ∨ stage = .reread)
      (h : σ.cache.find r.key = none) :
      Moved check σ i r (.run i) (.performing leads stage)
        (finish leads (.error .danglingRevalidation)) σ
  | reads {leads entry} (h : σ.cache.find r.key = some entry) :
      Moved check σ i r (.run i) (.performing leads .confirmed) (.performing leads (.refresh entry)) σ
  | refreshes {leads entry} :
      Moved check σ i r (.run i) (.performing leads (.refresh entry)) (.performing leads .reread)
        { σ with cache := σ.cache.refresh r.key σ.now entry }
  | rereads {leads entry} (h : σ.cache.find r.key = some entry) :
      Moved check σ i r (.run i) (.performing leads .reread)
        (finish leads (.ok ⟨entry.response, .notModified⟩))
        { σ with cache := (σ.cache.get r.key σ.now r.ttl).2 }
  | compares {leads response} :
      Moved check σ i r (.run i) (.performing leads (.compare response))
        (.performing leads (.store response))
        { σ with cache := (σ.cache.get r.key σ.now none).2 }
  | stores {leads response} :
      Moved check σ i r (.run i) (.performing leads (.store response))
        (.performing leads (.measure response))
        { σ with cache := σ.cache.insert r.key σ.now response }
  | fits {leads response} (h : σ.cache.residentBytes ≤ σ.cache.budget) :
      Moved check σ i r (.run i) (.performing leads (.measure response))
        (finish leads (.ok ⟨response, .fetched⟩)) σ
  | measures {leads response} :
      Moved check σ i r (.run i) (.performing leads (.measure response))
        (.performing leads (.collect response σ.cache.residentBytes)) σ
  | collects {leads response total} :
      Moved check σ i r (.run i) (.performing leads (.collect response total))
        (.performing leads (.evict response total σ.cache.candidates)) σ
  | ends {leads response total candidates} (h : candidates = [] ∨ total ≤ σ.cache.budget) :
      Moved check σ i r (.run i) (.performing leads (.evict response total candidates))
        (finish leads (.ok ⟨response, .fetched⟩)) σ
  | evicts {leads response total touched key footprint rest entry} (h : σ.cache.budget < total)
      (hentry : σ.cache.find key = some entry) :
      Moved check σ i r (.run i)
        (.performing leads (.evict response total ((touched, key, footprint) :: rest)))
        (.performing leads (.evict response (total - footprint) rest))
        { σ with cache := σ.cache.remove key }
  | skips {leads response total touched key footprint rest}
      (h : σ.cache.find key = none) :
      Moved check σ i r (.run i)
        (.performing leads (.evict response total ((touched, key, footprint) :: rest)))
        (.performing leads (.evict response total rest)) σ
  | gives {leads error} :
      Moved check σ i r (.run i) (.performing leads (.fallBack error)) (finish leads (.error error)) σ
  | falls {leads error entry} (h : σ.cache.find r.key = some entry) :
      Moved check σ i r (.run i) (.performing leads (.fallBack error))
        (finish leads (.ok ⟨entry.response, .staleOnError⟩))
        { σ with cache := (σ.cache.get r.key σ.now none).2 }
  | publishes {outcome} :
      Moved check σ i r (.run i) (.publishing outcome) (.removing outcome)
        { σ with published := Function.update σ.published i (some outcome) }
  | removes {outcome} :
      Moved check σ i r (.run i) (.removing outcome) (.returned outcome)
        { σ with inflight := Function.update σ.inflight r.key none }
  | posts {wire} : Moved check σ i r (.run i) (.uncached wire false) (.uncached wire true) σ
  | refuses {wire host retryAfter} :
      Moved check σ i r (.refuse i host retryAfter) (.uncached wire false)
        (.returned (.error (.throttled host retryAfter))) σ
  | posted {wire answer} :
      Moved check σ i r (.answer i answer) (.uncached wire true)
        (.returned (answer.map fun response => ⟨response.cached, .fetched⟩)) σ
  | drops {from_} (h : (∃ leader attempt, from_ = .following leader attempt) ∨
      (∃ leads wire, from_ = .performing leads (.sent wire)) ∨ ∃ wire, from_ = .uncached wire true) :
      Moved check σ i r (.drop i) from_ .dropped σ

theorem moved_of_runStage {r : ApertureRequest} {leads : Bool} {stage : Stage}
    (h : σ.runStage r leads stage = some (phase, σ')) :
    Moved check σ i r (.run i) (.performing leads stage) phase σ' := by
  cases stage with
  | validators =>
      cases h
      exact .validates
  | charge wire =>
      cases h
      exact .sends
  | sent wire => cases h
  | confirmed =>
      simp only [runStage] at h
      split at h
      case h_1 hentry =>
        cases h
        exact .vanished (.inl rfl) hentry
      case h_2 entry hentry =>
        cases h
        exact .reads hentry
  | refresh entry =>
      cases h
      exact .refreshes
  | reread =>
      cases hentry : σ.cache.find r.key with
      | none =>
          simp only [runStage, ResponseCache.get_of_none hentry] at h
          cases h
          exact .vanished (.inr rfl) hentry
      | some entry =>
          have hmoved : Moved check σ i r _ (.performing leads .reread) _ _ := .rereads hentry
          simp only [runStage, ResponseCache.get_of_some hentry] at h hmoved
          cases h
          exact hmoved
  | compare response =>
      cases h
      exact .compares
  | store response =>
      cases h
      exact .stores
  | measure response =>
      simp only [runStage] at h
      split_ifs at h with hfits
      · cases h
        exact .fits hfits
      · cases h
        exact .measures
  | collect response total =>
      cases h
      exact .collects
  | evict response total candidates =>
      cases candidates with
      | nil =>
          cases h
          exact .ends (.inl rfl)
      | cons candidate rest =>
          obtain ⟨touched, key, footprint⟩ := candidate
          simp only [runStage] at h
          split_ifs at h with htotal hentry
          · cases h
            exact .ends (.inr htotal)
          · obtain ⟨entry, hentry⟩ := Option.isSome_iff_exists.mp hentry
            cases h
            exact .evicts (Nat.lt_of_not_le htotal) hentry
          · cases h
            exact .skips (Option.not_isSome_iff_eq_none.mp hentry)
  | fallBack error =>
      cases hentry : σ.cache.find r.key with
      | none =>
          simp only [runStage, ResponseCache.get_of_none hentry] at h
          cases h
          exact .gives
      | some entry =>
          have hmoved : Moved check σ i r _ (.performing leads (.fallBack error)) _ _ := .falls hentry
          simp only [runStage, ResponseCache.get_of_some hentry] at h hmoved
          cases h
          exact hmoved

theorem moved_of_runPhase {r : ApertureRequest} {before : Phase}
    (h : σ.runPhase check i r before = some (phase, σ')) :
    Moved check σ i r (.run i) before phase σ' := by
  cases before with
  | called =>
      simp only [runPhase] at h
      split at h
      case h_1 error herror =>
        cases h
        exact .refused herror
      case h_2 =>
        split_ifs at h with hcacheable
        · have hcacheable : r.isCacheable = true := by simpa using hcacheable
          have hmisses : Moved check σ i r _ _ _ _ := .misses hcacheable
          cases hentry : σ.cache.find r.key with
          | none =>
              simp only [ResponseCache.get_of_none hentry] at h hmisses
              cases h
              exact hmisses
          | some entry =>
              have hhits : Moved check σ i r _ _ _ _ := .hits hcacheable hentry
              simp only [ResponseCache.get_of_some hentry] at h hmisses hhits
              split_ifs at h
              · cases h
                exact hhits
              · cases h
                exact hmisses
        · cases h
          exact .bypasses (by simpa using hcacheable)
  | joining attempt =>
      simp only [runPhase] at h
      split at h
      case h_1 leader hleader =>
        cases h
        exact .follows hleader
      case h_2 hnobody =>
        cases h
        exact .leads hnobody
  | following leader attempt =>
      simp only [runPhase] at h
      split at h
      case h_1 outcome houtcome =>
        cases h
        exact .told houtcome
      case h_2 hnone =>
        split_ifs at h with halive hattempt
        · cases h
          exact .rejoins
        · cases h
          exact .performs hnone (by simpa using halive)
  | performing leads stage => exact moved_of_runStage h
  | publishing outcome =>
      cases h
      exact .publishes
  | removing outcome =>
      cases h
      exact .removes
  | uncached wire sent =>
      cases sent with
      | false =>
          cases h
          exact .posts
      | true => cases h
  | returned outcome => cases h
  | dropped => cases h

theorem moved {event : Event}
    (hevent : event = .run i ∨ (∃ host retryAfter, event = .refuse i host retryAfter) ∨
      (∃ answer, event = .answer i answer) ∨ event = .drop i)
    (h : σ.stepCaller check i c event = some (phase, σ')) :
    Moved check σ i c.request event c.phase phase σ' := by
  rcases hevent with rfl | ⟨host, retryAfter, rfl⟩ | ⟨answer, rfl⟩ | rfl
  · exact moved_of_runPhase h
  · simp only [stepCaller] at h
    split at h
    case h_1 leads wire hphase =>
      cases h
      rw [hphase]
      exact .throttled
    case h_2 wire hphase =>
      cases h
      rw [hphase]
      exact .refuses
    case h_3 => cases h
  · simp only [stepCaller] at h
    split at h
    case h_1 leads wire hphase =>
      rw [hphase]
      cases answer with
      | error error =>
          cases h
          exact .fails
      | ok response =>
          by_cases hstatus : response.status = 304
          · have hconfirms : Moved check σ i c.request _ (.performing leads (.sent wire)) _ _ :=
              .confirms hstatus
            simp only [received, if_pos hstatus] at h
            cases h
            exact hconfirms
          · have hanswers : Moved check σ i c.request _ (.performing leads (.sent wire)) _ _ :=
              .answers hstatus
            simp only [received, if_neg hstatus] at h
            cases h
            exact hanswers
    case h_2 wire hphase =>
      cases h
      rw [hphase]
      exact .posted
    case h_3 => cases h
  · simp only [stepCaller] at h
    split at h
    case h_1 leader attempt hphase =>
      cases h
      exact .drops (.inl ⟨leader, attempt, hphase⟩)
    case h_2 leads wire hphase =>
      cases h
      exact .drops (.inr (.inl ⟨leads, wire, hphase⟩))
    case h_3 wire hphase =>
      cases h
      exact .drops (.inr (.inr ⟨wire, hphase⟩))
    case h_4 => cases h

/-! ### Room -/

def Covers (cache : ResponseCache) : Phase → Prop
  | .performing _ (.measure _) => True
  | .performing _ (.collect _ total) => cache.residentBytes ≤ total
  | .performing _ (.evict _ total candidates) => cache.residentBytes ≤ total ∧
      ∀ key entry, cache.find key = some entry →
        ∃ touched, (touched, key, entry.footprint) ∈ candidates
  | _ => False

theorem Covers.shrinks {cache after : ResponseCache} (h : Covers cache phase)
    (hshrinks : cache.Shrinks after) : Covers after phase := by
  cases phase with
  | performing leads stage =>
      cases stage with
      | measure response => exact trivial
      | collect response total => exact hshrinks.residentBytes.trans h
      | evict response total candidates =>
          refine ⟨hshrinks.residentBytes.trans h.1, ?_⟩
          intro key entry hentry
          obtain ⟨kept, hkept, hfootprint⟩ := hshrinks.entries key entry hentry
          rw [← hfootprint]
          exact h.2 key kept hkept
      | _ => exact h.elim
  | _ => exact h.elim

/-- What is kept is within the budget, or somebody is making room; and whoever does has a list of
what is kept in the order of its use. -/
structure Roomy (σ : Client) : Prop where
  ticked : σ.cache.Ticked
  lists : ∀ i c leads response total candidates, σ.callers i = some c →
    c.phase = .performing leads (.evict response total candidates) → σ.cache.Lists candidates
  room : σ.cache.residentBytes ≤ σ.cache.budget ∨
    ∃ i c, σ.callers i = some c ∧ Covers σ.cache c.phase

theorem roomy_start (budget : ℕ) : (start budget).Roomy := by
  refine ⟨?_, ?_, .inl (Nat.zero_le _)⟩
  · rintro key entry ⟨⟩
  · rintro i c leads response total candidates ⟨⟩

theorem Roomy.keep (h : σ.Roomy) (hc : σ.callers i = some c) (hcallers : σ'.callers = σ.callers)
    (huses : σ.cache.Uses σ'.cache)
    (hlists : ∀ leads response total candidates,
      phase = .performing leads (.evict response total candidates) → σ'.cache.Lists candidates)
    (hroom : Covers σ'.cache phase ∨ σ.cache.Shrinks σ'.cache ∧
      (Covers σ.cache c.phase →
        σ'.cache.residentBytes ≤ σ'.cache.budget ∨ Covers σ'.cache phase)) :
    (σ'.set i c phase).Roomy := by
  have hmine : (σ'.set i c phase).callers i = some { c with phase } := by
    rw [callers_set, if_pos rfl]
  refine ⟨huses.ticked h.ticked, ?_, ?_⟩
  · intro j d leads response total candidates hd hphase
    rw [callers_set, hcallers] at hd
    split_ifs at hd with hj
    · obtain rfl := Option.some.inj hd
      exact hlists leads response total candidates hphase
    · exact (h.lists j d leads response total candidates hd hphase).uses huses
  · change σ'.cache.residentBytes ≤ σ'.cache.budget ∨ _
    rcases hroom with hcovers | ⟨hshrinks, hcovers⟩
    · exact .inr ⟨i, _, hmine, hcovers⟩
    rcases h.room with hfits | ⟨j, d, hd, hcovered⟩
    · rw [huses.budget]
      exact .inl (hshrinks.residentBytes.trans hfits)
    · by_cases hj : j = i
      · subst hj
        rw [hc] at hd
        obtain rfl := Option.some.inj hd
        exact (hcovers hcovered).imp_right fun hphase => ⟨j, _, hmine, hphase⟩
      · refine .inr ⟨j, d, ?_, hcovered.shrinks hshrinks⟩
        rw [callers_set, hcallers, if_neg hj]
        exact hd

theorem Roomy.aside (h : σ.Roomy) (hc : σ.callers i = some c) (hcallers : σ'.callers = σ.callers)
    (huses : σ.cache.Uses σ'.cache) (hshrinks : σ.cache.Shrinks σ'.cache)
    (hnot : ¬ Covers σ.cache c.phase)
    (hphase : ∀ leads response total candidates,
      phase ≠ .performing leads (.evict response total candidates)) :
    (σ'.set i c phase).Roomy := by
  refine h.keep hc hcallers huses ?_ (.inr ⟨hshrinks, fun hcovers => absurd hcovers hnot⟩)
  intro leads response total candidates heq
  exact absurd heq (hphase leads response total candidates)

theorem finish_ne_performing (leads leads' : Bool) (outcome : Outcome) (stage : Stage) :
    finish leads outcome ≠ .performing leads' stage := by
  cases leads <;> rintro ⟨⟩

theorem Covers.evicts {cache : ResponseCache} {leads : Bool} {response : CachedResponse}
    {total touched footprint : ℕ} {key : ResourceKey} {rest : List (ℕ × ResourceKey × ℕ)}
    {entry : Entry} (hlists : cache.Lists ((touched, key, footprint) :: rest))
    (h : Covers cache
      (.performing leads (.evict response total ((touched, key, footprint) :: rest))))
    (hentry : cache.find key = some entry) :
    Covers (cache.remove key) (.performing leads (.evict response (total - footprint) rest)) := by
  obtain ⟨hbytes, hlisted⟩ := h
  have hnodup := List.nodup_cons.mp hlists.nodup
  -- Each key is on the list once, so its size there is the size of what is kept.
  have hfootprint : entry.footprint = footprint := by
    obtain ⟨touched', hmem⟩ := hlisted key entry hentry
    rcases List.mem_cons.mp hmem with heq | hrest
    · cases heq
      rfl
    · exact absurd (List.mem_map_of_mem hrest) hnodup.1
  constructor
  · have hremoved := ResponseCache.residentBytes_remove hentry
    omega
  · intro other kept hkept
    rw [ResponseCache.find_remove] at hkept
    split_ifs at hkept with hother
    obtain ⟨touched', hmem⟩ := hlisted other kept hkept
    rcases List.mem_cons.mp hmem with heq | hrest
    · cases heq
      exact absurd rfl hother
    · exact ⟨touched', hrest⟩

theorem Covers.skips {cache : ResponseCache} {leads : Bool} {response : CachedResponse}
    {total touched footprint : ℕ} {key : ResourceKey} {rest : List (ℕ × ResourceKey × ℕ)}
    (h : Covers cache
      (.performing leads (.evict response total ((touched, key, footprint) :: rest))))
    (hgone : cache.find key = none) :
    Covers cache (.performing leads (.evict response total rest)) := by
  refine ⟨h.1, fun other kept hkept => ?_⟩
  obtain ⟨touched', hmem⟩ := h.2 other kept hkept
  rcases List.mem_cons.mp hmem with heq | hrest
  · cases heq
    rw [hgone] at hkept
    cases hkept
  · exact ⟨touched', hrest⟩

theorem Covers.ends {cache : ResponseCache} {leads : Bool} {response : CachedResponse} {total : ℕ}
    {candidates : List (ℕ × ResourceKey × ℕ)}
    (h : Covers cache (.performing leads (.evict response total candidates)))
    (hend : candidates = [] ∨ total ≤ cache.budget) : cache.residentBytes ≤ cache.budget := by
  rcases hend with rfl | htotal
  · rw [ResponseCache.residentBytes_eq_zero]
    · exact Nat.zero_le _
    · intro key
      by_contra hkept
      obtain ⟨entry, hentry⟩ := Option.ne_none_iff_exists'.mp hkept
      obtain ⟨touched, hmem⟩ := h.2 key entry hentry
      cases hmem
  · exact h.1.trans htotal

theorem Roomy.moved {event : Event} (h : σ.Roomy) (hc : σ.callers i = some c)
    (hkept : ∀ leads entry, c.phase = .performing leads (.refresh entry) →
      ∃ kept, σ.cache.find c.request.key = some kept ∧ entry.footprint = kept.footprint)
    (hmoved : Moved check σ i c.request event c.phase phase σ') : (σ'.set i c phase).Roomy := by
  obtain ⟨request, before⟩ := c
  dsimp only at hkept hmoved
  have huses := ResponseCache.Uses.refl σ.cache
  have hshrinks := ResponseCache.Shrinks.refl σ.cache
  cases hmoved with
  | misses | hits =>
      refine h.aside hc rfl (ResponseCache.uses_get _ _ _) (ResponseCache.shrinks_get _ _ _) id ?_
      rintro _ _ _ _ ⟨⟩
  | compares =>
      refine h.aside hc rfl (ResponseCache.uses_get _ _ _) (ResponseCache.shrinks_get _ _ _) id ?_
      rintro _ _ _ _ ⟨⟩
  | rereads | falls =>
      refine h.aside hc rfl (ResponseCache.uses_get _ _ _) (ResponseCache.shrinks_get _ _ _) id ?_
      intro leads response total candidates
      exact finish_ne_performing _ _ _ _
  | refreshes =>
      obtain ⟨kept, hentry, hfootprint⟩ := hkept _ _ rfl
      refine h.aside hc rfl (ResponseCache.uses_put _ _) (ResponseCache.shrinks_put hentry hfootprint)
        id ?_
      rintro _ _ _ _ ⟨⟩
  | stores =>
      refine h.keep hc rfl (ResponseCache.uses_put _ _) ?_ (.inl trivial)
      rintro _ _ _ _ ⟨⟩
  | fits hfits =>
      refine h.keep hc rfl huses ?_ (.inr ⟨hshrinks, fun _ => .inl hfits⟩)
      intro leads response total candidates heq
      exact absurd heq (finish_ne_performing _ _ _ _)
  | measures =>
      refine h.keep hc rfl huses ?_ (.inl (Nat.le_refl σ.cache.residentBytes))
      rintro _ _ _ _ ⟨⟩
  | collects =>
      refine h.keep hc rfl huses ?_ (.inr ⟨hshrinks, fun hcovers => .inr ⟨hcovers, ?_⟩⟩)
      · rintro _ _ _ _ ⟨⟩
        exact ResponseCache.lists_candidates h.ticked
      · intro key entry hentry
        exact ⟨entry.touched, ResponseCache.mem_candidates.mpr ⟨entry, hentry, rfl, rfl⟩⟩
  | ends hend =>
      refine h.keep hc rfl huses ?_ (.inr ⟨hshrinks, fun hcovers => .inl (Covers.ends hcovers hend)⟩)
      intro leads response total candidates heq
      exact absurd heq (finish_ne_performing _ _ _ _)
  | evicts htotal hentry =>
      have hlists := h.lists i _ _ _ _ _ hc rfl
      refine h.keep hc rfl (ResponseCache.uses_remove _) ?_
        (.inr ⟨ResponseCache.shrinks_remove hentry, fun hcovers => .inr (hcovers.evicts hlists hentry)⟩)
      rintro _ _ _ _ ⟨⟩
      refine (hlists.uses (ResponseCache.uses_remove _)).tail ?_
      rw [ResponseCache.find_remove, if_pos rfl]
  | skips hgone =>
      have hlists := h.lists i _ _ _ _ _ hc rfl
      refine h.keep hc rfl huses ?_ (.inr ⟨hshrinks, fun hcovers => .inr (hcovers.skips hgone)⟩)
      rintro _ _ _ _ ⟨⟩
      exact hlists.tail hgone
  | vanished hstage =>
      refine h.aside hc rfl huses hshrinks ?_ ?_
      · rcases hstage with rfl | rfl <;> exact id
      · intro leads response total candidates
        exact finish_ne_performing _ _ _ _
  | gives =>
      refine h.aside hc rfl huses hshrinks id ?_
      intro leads response total candidates
      exact finish_ne_performing _ _ _ _
  | drops hfrom =>
      refine h.aside hc rfl huses hshrinks ?_ ?_
      · rcases hfrom with ⟨leader, attempt, rfl⟩ | ⟨leads, wire, rfl⟩ | ⟨wire, rfl⟩ <;> exact id
      · rintro _ _ _ _ ⟨⟩
  | _ =>
      refine h.aside hc rfl huses hshrinks id ?_
      rintro _ _ _ _ ⟨⟩

end Client

end Albedo.Fetch
