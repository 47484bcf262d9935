import Albedo.Routing.Matcher
import Albedo.Routing.Tree
import Mathlib.Algebra.GroupWithZero.Nat

/-!
# Guards on routes

A middleware guards a route when it runs on every request the route answers. A pattern of the
same shape guards its route exactly where its text decodes to itself and nothing of it stands
for a single segment, since what a route captures may decode to several segments or to none.
-/
namespace Albedo.Routing
open Fallible Percent Words

inductive Alike : Segment → RoutePart → Prop
  | literal (text : Text) : Alike (.literal text) (.literal text)
  | param (name : Text) : Alike .param (.param name)
  | rest (atLeastOne : Bool) (name : Text) : Alike (.rest atLeastOne) (.rest name)

def SameShape (pattern : Pattern) (route : Template × Option Text) : Prop :=
  List.Forall₂ Alike pattern.segments (route.1 ++ route.2.toList.map .rest)

structure CompiledRouter.Serves (m : MatchIt) (router : CompiledRouter) (method : HttpMethod)
    (path : Text) (route : RouteSpec) (captured : List (Text × Text)) : Prop where
  found : ∃ i t methods, m.find router.paths path = some (i, captured) ∧
    router.entries[i]? = some (t, methods) ∧ methods.lookup method = some route.target ∧
      ∃ ts, normalizeRoutePaths route.path = .ok ts ∧ t ∈ ts
  matched : ∃ params, router.matchRoute m method path = .matched route.target params

/-- Text stands for itself, a parameter has captured what decodes to one segment, and a
catch-all that wants one what decodes to at least one. -/
def Plainly : List Segment → List (Text × Text) → Prop
  | [], _ => True
  | .literal text :: segments, captured => percentDecodePath text = text ∧ Plainly segments captured
  | .param :: segments, (_, value) :: captured => (spelled value).length = 1 ∧ Plainly segments captured
  | .rest atLeastOne :: _, (_, value) :: _ => atLeastOne = true → spelled value ≠ []
  | .rest atLeastOne :: _, [] => atLeastOne = false
  | _, _ => False

def Segment.Covers : Segment → Prop
  | .literal text => percentDecodePath text = text
  | .param => False
  | .optional => True
  | .rest atLeastOne => atLeastOne = false

/-! ### What a guard admits -/

/-- A pattern that fits a lowered path, which may lack the catch-all. -/
inductive Fits : List Segment → Template → Prop
  | nil : Fits [] []
  | without (atLeastOne : Bool) : Fits [.rest atLeastOne] []
  | cons {segment : Segment} {part : RoutePart} {segments : List Segment} {parts : Template} :
      Alike segment part → Fits segments parts → Fits (segment :: segments) (part :: parts)

variable {segments : List Segment} {t parts : Template} {path route source : Text}
variable {captured : List (Text × Text)} {catchAll : Option Text} {pattern : Pattern}

theorem Fits.of_forall₂ (h : List.Forall₂ Alike segments parts) : Fits segments parts := by
  induction h with
  | nil => exact .nil
  | cons halike _ ih => exact .cons halike ih

theorem Fits.of_forall₂_rest {name : Text} (h : List.Forall₂ Alike segments (parts ++ [.rest name])) :
    Fits segments parts := by
  induction parts generalizing segments with
  | nil =>
      cases h with
      | cons halike hrest =>
          cases hrest
          cases halike
          exact .without _
  | cons part parts ih =>
      cases h with
      | cons halike hrest => exact .cons halike (ih hrest)

theorem SameShape.fits (h : SameShape pattern (parts, catchAll)) (ht : t ∈ expand (parts, catchAll)) :
    Fits pattern.segments t := by
  cases catchAll with
  | none =>
      obtain rfl := List.mem_singleton.mp ht
      unfold SameShape at h
      simp only [Option.toList_none, List.map_nil, List.append_nil] at h
      exact .of_forall₂ h
  | some name =>
      rcases List.mem_cons.mp ht with rfl | hmem
      · exact .of_forall₂_rest h
      · obtain rfl := List.mem_singleton.mp hmem
        exact .of_forall₂ h

theorem Fits.matches (hfits : Fits segments t) (h : Captures t path captured) (ht : t.Valid)
    (hplainly : Plainly segments captured) : matchesSegments segments (spelled path) = true := by
  induction h generalizing segments with
  | nil =>
      cases hfits with
      | nil => rfl
      | without atLeastOne => simpa [matchesSegments, Plainly] using hplainly
  | @literal text path parts captured hrest ih =>
      cases hfits with
      | cons halike hfits =>
          cases halike
          have htext : Plain text := ht _ List.mem_cons_self
          have hlater := ih hfits (fun p hp => ht p (List.mem_cons_of_mem _ hp)) hplainly.2
          rw [spelled_cons, spelled_segment hrest.head, spelled_literal htext.1 htext.2 hplainly.1]
          simpa [matchesSegments] using hlater
  | @param name value path parts captured hvalue hrest ih =>
      cases hfits with
      | cons halike hfits =>
          cases halike
          have hlater := ih hfits (fun p hp => ht p (List.mem_cons_of_mem _ hp)) hplainly.2
          obtain ⟨piece, hpiece⟩ := List.length_eq_one_iff.mp hplainly.1
          rw [spelled_cons, spelled_segment hrest.head, hpiece]
          exact hlater
  | @rest name value hvalue =>
      cases hfits with
      | cons halike hfits =>
          cases halike with
          | rest atLeastOne =>
              rw [spelled_cons]
              cases atLeastOne with
              | false => rfl
              | true => simpa [matchesSegments, List.length_pos_iff] using hplainly rfl

theorem Fits.plainly (hfits : Fits segments t) (h : Captures t path captured)
    (hcovers : ∀ segment ∈ segments, segment.Covers) : Plainly segments captured := by
  induction h generalizing segments with
  | nil =>
      cases hfits with
      | nil => trivial
      | without atLeastOne => exact hcovers _ List.mem_cons_self
  | literal _ ih =>
      cases hfits with
      | cons halike hfits =>
          cases halike
          exact ⟨hcovers _ List.mem_cons_self,
            ih hfits fun s hs => hcovers s (List.mem_cons_of_mem _ hs)⟩
  | param _ _ _ =>
      cases hfits with
      | cons halike hfits =>
          cases halike
          exact (hcovers _ List.mem_cons_self).elim
  | rest hvalue =>
      cases hfits with
      | cons halike hfits =>
          cases halike with
          | rest atLeastOne =>
              intro htrue
              have hfalse : atLeastOne = false := hcovers _ List.mem_cons_self
              rw [htrue] at hfalse
              cases hfalse

/-! ### What a guard lets by -/

def escapedSlash : Text := ['%', '2', 'F']

/-- A path that a lowered path captures, with an escaped slash for every capture. -/
def fill : Template → Text
  | [] => []
  | .literal text :: parts => '/' :: (text ++ fill parts)
  | .param _ :: parts => '/' :: (escapedSlash ++ fill parts)
  | .rest _ :: _ => '/' :: escapedSlash

def fillCaptured : Template → List (Text × Text)
  | [] => []
  | .literal _ :: parts => fillCaptured parts
  | .param name :: parts => (name, escapedSlash) :: fillCaptured parts
  | .rest name :: _ => [(name, escapedSlash)]

theorem captures_fill (hlast : RestLast t) : Captures t (fill t) (fillCaptured t) := by
  induction t with
  | nil => exact .nil
  | cons part parts ih =>
      have hlater : RestLast parts := fun name parts' parts'' heq =>
        hlast name (part :: parts') parts'' (by rw [heq, List.cons_append])
      cases part with
      | literal text => exact .literal (ih hlater)
      | param name => exact .param (by decide) (ih hlater)
      | rest name =>
          obtain rfl := hlast name [] parts rfl
          exact .rest (by decide)

theorem decodeParams_fill (params : List (Text × Text)) (t : Template) :
    ∃ params', decodeParams params (fillCaptured t) = .ok params' := by
  induction t generalizing params with
  | nil => exact ⟨params, rfl⟩
  | cons part parts ih =>
      cases part with
      | literal text => exact ih params
      | param name => exact ih (KeyedList.put name ['/'] params)
      | rest name => exact ⟨KeyedList.put name ['/'] params, rfl⟩

def weight : List Segment → ℕ
  | [] => 0
  | .literal text :: segments => text.length + weight segments
  | .param :: segments => 1 + weight segments
  | .optional :: _ => 0
  | .rest atLeastOne :: _ => if atLeastOne then 1 else 0

def decodedLength : Template → ℕ
  | [] => 0
  | .literal text :: parts => (percentDecodePath text).length + decodedLength parts
  | .param _ :: parts => decodedLength parts
  | .rest _ :: _ => 0

theorem weight_le {path : List Text} (h : matchesSegments segments path = true)
    (hpath : ∀ piece ∈ path, piece ≠ []) : weight segments ≤ (path.map List.length).sum := by
  fun_induction matchesSegments segments path with
  | case1 path => exact Nat.zero_le _
  | case2 => cases h
  | case3 text segments piece path ih =>
      obtain ⟨hpiece, hrest⟩ := Bool.and_eq_true_iff.mp h
      obtain rfl : piece = text := by simpa using hpiece
      have hlater := ih hrest fun p hp => hpath p (List.mem_cons_of_mem piece hp)
      rw [weight, List.map_cons, List.sum_cons]
      omega
  | case4 => cases h
  | case5 segments piece path ih =>
      have hlater := ih h fun p hp => hpath p (List.mem_cons_of_mem piece hp)
      have hpiece := List.length_pos_iff.mpr (hpath piece List.mem_cons_self)
      rw [weight, List.map_cons, List.sum_cons]
      omega
  | case6 => exact Nat.zero_le _
  | case7 atLeastOne segments path =>
      cases atLeastOne with
      | false => exact Nat.zero_le _
      | true =>
          cases path with
          | nil => cases h
          | cons piece path =>
              have hpiece := List.length_pos_iff.mpr (hpath piece List.mem_cons_self)
              rw [weight, List.map_cons, List.sum_cons, if_pos rfl]
              omega

theorem length_spelled (text : Text) :
    ((spelled text).map List.length).sum ≤ (percentDecodePath text).length :=
  length_words isSlash (percentDecodePath text)

theorem fill_head (t : Template) : fill t = [] ∨ ∃ rest, fill t = '/' :: rest := by
  cases t with
  | nil => exact Or.inl rfl
  | cons part parts =>
      cases part with
      | literal text => exact Or.inr ⟨_, rfl⟩
      | param name => exact Or.inr ⟨_, rfl⟩
      | rest name => exact Or.inr ⟨_, rfl⟩

theorem spelled_escapedSlash : spelled escapedSlash = [] := by decide

theorem length_spelled_fill (t : Template) :
    ((spelled (fill t)).map List.length).sum ≤ decodedLength t := by
  induction t with
  | nil => exact Nat.le_refl 0
  | cons part parts ih =>
      cases part with
      | literal text =>
          have htext := length_spelled text
          rw [fill, spelled_cons, spelled_segment (fill_head parts), List.map_append, List.sum_append,
            decodedLength]
          omega
      | param name =>
          rw [fill, spelled_cons, spelled_segment (fill_head parts), spelled_escapedSlash,
            List.nil_append, decodedLength]
          exact ih
      | rest name =>
          rw [fill, spelled_cons, spelled_escapedSlash]
          exact Nat.le_refl 0

theorem covers_of_weight (h : List.Forall₂ Alike segments t) (hlast : RestLast t) :
    decodedLength t ≤ weight segments ∧
      (weight segments ≤ decodedLength t → ∀ segment ∈ segments, segment.Covers) := by
  induction h with
  | nil => exact ⟨Nat.le_refl 0, fun _ _ hmem => absurd hmem List.not_mem_nil⟩
  | @cons segment part segments parts halike hrest ih =>
      have hlater : RestLast parts := fun name parts' parts'' heq =>
        hlast name (part :: parts') parts'' (by rw [heq, List.cons_append])
      obtain ⟨hle, hcovers⟩ := ih hlater
      cases halike with
      | literal text =>
          rw [decodedLength, weight]
          rcases percentDecodePath_eq_or_short text with hself | hshort
          · rw [hself]
            refine ⟨by omega, fun h segment hmem => ?_⟩
            rcases List.mem_cons.mp hmem with rfl | hmem
            · exact hself
            · exact hcovers (by omega) segment hmem
          · exact ⟨by omega, fun h => by omega⟩
      | param name =>
          rw [decodedLength, weight]
          exact ⟨by omega, fun h => by omega⟩
      | rest atLeastOne name =>
          obtain rfl := hlast name [] parts rfl
          cases hrest
          rw [decodedLength, weight]
          refine ⟨Nat.zero_le _, fun h segment hmem => ?_⟩
          obtain rfl := List.mem_singleton.mp hmem
          change atLeastOne = false
          cases atLeastOne with
          | false => rfl
          | true => cases h

/-! ### A router with one route -/

theorem not_moreSpecific_append (t s : Template) :
    ¬ MoreSpecific t (t ++ s) ∧ ¬ MoreSpecific (t ++ s) t := by
  induction t with
  | nil =>
      constructor
      · intro h
        cases h
      · intro h
        cases h
  | cons part t ih =>
      constructor
      · intro h
        cases h with
        | here hrank => exact Nat.lt_irrefl _ hrank
        | later _ hrest => exact ih.1 hrest
      · intro h
        cases h with
        | here hrank => exact Nat.lt_irrefl _ hrank
        | later _ hrest => exact ih.2 hrest

theorem addRoute_lone {route : RouteSpec} {ts : List Template}
    (hok : normalizeRoutePaths route.path = .ok ts) :
    addRoute [] route = .ok (ts.map fun t => (t, [(route.method, route.target)])) := by
  obtain ⟨parts, catchAll, -, rfl⟩ := normalizeRoutePaths_ok hok
  unfold addRoute
  rw [hok]
  cases catchAll with
  | none => rfl
  | some name =>
      have hne : parts ++ [.rest name] ≠ parts := by simp
      have hnone : KeyedList.valueOf (parts ++ [.rest name])
          [(parts, [(route.method, route.target)])] = none :=
        KeyedList.lookup_eq_none.mpr fun hmem => hne (List.mem_singleton.mp hmem)
      change (addPath route [(parts, [(route.method, route.target)])] (parts ++ [.rest name])) >>=
        Except.ok = _
      unfold addPath
      rw [hnone]
      change Except.ok (KeyedList.put (parts ++ [.rest name]) [(route.method, route.target)]
        [(parts, [(route.method, route.target)])]) = _
      rw [KeyedList.put_eq_append fun hmem => hne (List.mem_singleton.mp hmem)]
      rfl

variable {m : MatchIt}

theorem fromRouteSpecs_lone (hm : m.Documented) {route : RouteSpec} {ts : List Template}
    (hok : normalizeRoutePaths route.path = .ok ts) :
    ∃ entries, CompiledRouter.fromRouteSpecs m [route] = .ok ⟨entries⟩ ∧
      entries.Perm (ts.map fun t => (t, [(route.method, route.target)])) ∧
      m.insertAll [] (entries.map Prod.fst) = .ok () := by
  let grouped : Grouped := ts.map fun t => (t, [(route.method, route.target)])
  let entries := grouped.insertionSort fun e f => e.1.text ≤ f.1.text
  have hperm : entries.Perm grouped := List.perm_insertionSort _ grouped
  have hpaths : (entries.map Prod.fst).Perm ts := by
    have hmap := hperm.map Prod.fst
    rwa [List.map_map, show (Prod.fst ∘ fun t : Template => (t, [(route.method, route.target)])) = id
      from rfl, List.map_id] at hmap
  have hinsert := hm.insert_route route.path ts _ hok hpaths
  refine ⟨entries, ?_, hperm, hinsert⟩
  unfold CompiledRouter.fromRouteSpecs
  have hgrouped : ([route].insertionSort RouteSpec.before).foldlM addRoute [] = .ok grouped := by
    change (addRoute [] route >>= Except.ok) = _
    rw [addRoute_lone hok]
    rfl
  rw [hgrouped]
  change (m.insertAll [] (entries.map Prod.fst) >>= fun _ => Except.ok (CompiledRouter.mk entries)) = _
  rw [hinsert]
  rfl

def fillPath (t : Template) : Text := if t = [] then ['/'] else fill t

theorem capture_fillPath (hlast : RestLast t) : capture t (fillPath t) = some (fillCaptured t) := by
  unfold fillPath
  refine capture_eq_some.mpr ?_
  by_cases ht : t = []
  · subst ht
    exact Or.inl ⟨rfl, rfl, rfl⟩
  · rw [if_neg ht]
    exact Or.inr ⟨ht, captures_fill hlast⟩

theorem spelled_fillPath (t : Template) : spelled (fillPath t) = spelled (fill t) := by
  unfold fillPath
  split_ifs with ht
  · rw [ht]
    rfl
  · rfl

theorem serves_fillPath (hm : m.Documented) {route : RouteSpec}
    (hroute : parseRoutePath route.path = .ok (parts, catchAll)) :
    ∃ router captured, CompiledRouter.fromRouteSpecs m [route] = .ok router ∧
      router.Serves m route.method (fillPath (parts ++ catchAll.toList.map .rest)) route captured := by
  have hok : normalizeRoutePaths route.path = .ok (expand (parts, catchAll)) := by
    unfold normalizeRoutePaths
    rw [hroute]
    rfl
  generalize ht : parts ++ catchAll.toList.map RoutePart.rest = t
  have hlast : RestLast t := ht ▸ parseRoutePath_restLast hroute
  obtain ⟨entries, hbuilt, hperm, hinsert⟩ := fromRouteSpecs_lone hm hok
  have hkeys : ∀ t', t' ∈ entries.map Prod.fst ↔ t' ∈ expand (parts, catchAll) := by
    intro t'
    have hmap := (hperm.map Prod.fst).mem_iff (a := t')
    rwa [List.map_map, show (Prod.fst ∘ fun t : Template => (t, [(route.method, route.target)])) = id
      from rfl, List.map_id] at hmap
  have hmem : t ∈ expand (parts, catchAll) := by
    subst ht
    cases catchAll <;> simp [expand]
  have hcapture := capture_fillPath hlast
  obtain ⟨i, found, t', hfind, hget, hbest⟩ :=
    hm.find_best _ _ t _ hinsert ((hkeys t).mpr hmem) hcapture
  -- the route's other path is neither more nor less specific
  have hsame : t' = t := by
    rcases hbest with heq | hmore
    · exact heq
    · have hmem' := (hkeys t').mp (List.mem_of_getElem? hget)
      subst ht
      cases catchAll with
      | none => simpa [expand] using hmem'
      | some name =>
          rcases List.mem_cons.mp hmem' with rfl | hlast'
          · exact absurd hmore (not_moreSpecific_append t' [.rest name]).1
          · exact List.mem_singleton.mp hlast'
  subst hsame
  obtain ⟨t'', hget', hcapture'⟩ := hm.find_captures _ _ _ _ hinsert hfind
  rw [hget] at hget'
  cases hget'
  rw [hcapture] at hcapture'
  cases hcapture'
  obtain ⟨entry, hentry, hfst⟩ : ∃ entry, entries[i]? = some entry ∧ entry.1 = t' := by
    rw [List.getElem?_map] at hget
    exact Option.map_eq_some_iff.mp hget
  obtain ⟨t'', methods⟩ := entry
  obtain rfl : t'' = t' := hfst
  have hmethods : methods = [(route.method, route.target)] := by
    have hin := hperm.mem_iff.mp (List.mem_of_getElem? hentry)
    obtain ⟨_, _, heq⟩ := List.mem_map.mp hin
    cases heq
    rfl
  subst hmethods
  have hlookup : [(route.method, route.target)].lookup route.method = some route.target := by simp
  obtain ⟨params, hparams⟩ := decodeParams_fill [] t''
  refine ⟨⟨entries⟩, fillCaptured t'', hbuilt,
    ⟨i, t'', _, hfind, hentry, hlookup, _, hok, hmem⟩, params, ?_⟩
  exact CompiledRouter.matchRoute_matched hfind hentry hlookup hparams

/-! ### Guards -/

theorem CompiledRouter.fromRouteSpecs_built {specs : List RouteSpec} {router : CompiledRouter}
    (h : CompiledRouter.fromRouteSpecs m specs = .ok router) :
    m.insertAll [] router.paths = .ok () := by
  obtain ⟨grouped, -, h⟩ := bind_eq_ok.mp h
  obtain ⟨u, hinsert, h⟩ := bind_eq_ok.mp h
  cases h
  exact hinsert

theorem CompiledRouter.Serves.admits (hm : m.Documented) {specs : List RouteSpec}
    {router : CompiledRouter} {method : HttpMethod} {route : RouteSpec}
    (hbuilt : CompiledRouter.fromRouteSpecs m specs = .ok router)
    (hserves : router.Serves m method path route captured)
    (hroute : parseRoutePath route.path = .ok (parts, catchAll))
    (hshape : SameShape pattern (parts, catchAll))
    (hplainly : ∀ t path', Fits pattern.segments t → Captures t path' captured →
      Plainly pattern.segments captured) :
    (Matcher.mk (some [pattern])).admits path = true := by
  obtain ⟨i, t, methods, hfind, hentry, -, ts, hok, hmem⟩ := hserves.found
  obtain ⟨t', hget, hcapture⟩ :=
    hm.find_captures _ _ _ _ (CompiledRouter.fromRouteSpecs_built hbuilt) hfind
  obtain rfl : t' = t := by
    unfold CompiledRouter.paths at hget
    rw [List.getElem?_map, hentry] at hget
    exact (Option.some.inj hget).symm
  have hexpand : t' ∈ expand (parts, catchAll) := by
    obtain ⟨parts', catchAll', hparse, rfl⟩ := normalizeRoutePaths_ok hok
    rw [hroute] at hparse
    cases hparse
    exact hmem
  have hfits := hshape.fits hexpand
  have hvalid := normalizeRoutePaths_valid hok hmem
  suffices h : matchesSegments pattern.segments (spelled path) = true by
    simpa [Matcher.admits, spelled] using h
  rcases capture_eq_some.mp hcapture with ⟨rfl, rfl, rfl⟩ | ⟨hne, hcaptures⟩
  · have hroot := hfits.matches .nil hvalid (hplainly [] [] hfits .nil)
    exact hroot
  · exact hfits.matches hcaptures hvalid (hplainly t' path hfits hcaptures)

/-- A middleware runs on a request its route answers when what the route captured of it decodes
to the segments its pattern has for it; and on every request its route may answer exactly when
nothing in the pattern stands for a segment and its text decodes to itself. -/
theorem admits_iff_covers (hm : m.Documented) (_hparse : Pattern.parse source = .ok pattern)
    (hroute : parseRoutePath route = .ok (parts, catchAll))
    (hshape : SameShape pattern (parts, catchAll)) :
    (∀ specs router spec method path captured, CompiledRouter.fromRouteSpecs m specs = .ok router →
      spec ∈ specs → spec.path = route → router.Serves m method path spec captured →
      Plainly pattern.segments captured → (Matcher.mk (some [pattern])).admits path = true) ∧
    ((∀ specs router spec method path captured, CompiledRouter.fromRouteSpecs m specs = .ok router →
      spec ∈ specs → spec.path = route → router.Serves m method path spec captured →
      (Matcher.mk (some [pattern])).admits path = true) ↔
        ∀ segment ∈ pattern.segments, segment.Covers) := by
  refine ⟨?_, ?_, ?_⟩
  · rintro specs router spec method path captured hbuilt - rfl hserves hplainly
    exact hserves.admits hm hbuilt hroute hshape fun _ _ _ _ => hplainly
  · intro hall
    let spec : RouteSpec := ⟨[], .get, route, [], none, none, [], none⟩
    have hspec : parseRoutePath spec.path = .ok (parts, catchAll) := hroute
    obtain ⟨router, captured, hbuilt, hserves⟩ := serves_fillPath hm hspec
    have hadmits := hall [spec] router spec .get _ captured hbuilt List.mem_cons_self rfl hserves
    have hmatches : matchesSegments pattern.segments
        (spelled (fillPath (parts ++ catchAll.toList.map .rest))) = true := by
      simpa [Matcher.admits, spelled] using hadmits
    rw [spelled_fillPath] at hmatches
    have hweight := weight_le hmatches fun piece hpiece => not_empty_of_mem_words hpiece
    exact (covers_of_weight hshape (parseRoutePath_restLast hroute)).2
      (hweight.trans (length_spelled_fill _))
  · rintro hcovers specs router spec method path captured hbuilt - rfl hserves
    exact hserves.admits hm hbuilt hroute hshape fun t path' hfits hcaptures =>
      hfits.plainly hcaptures hcovers

def blogPattern : Pattern := ⟨"/blog/:slug".toList, [.literal "blog".toList, .param]⟩

def blogRoute : RouteSpec :=
  ⟨"blog".toList, .get, "/blog/[slug]".toList, "blog.show".toList, none, none, [], none⟩

theorem blog_admits : (∀ specs router spec method path captured,
    CompiledRouter.fromRouteSpecs allAtOnce specs = .ok router →
      spec ∈ specs → spec.path = blogRoute.path → router.Serves allAtOnce method path spec captured →
      Plainly blogPattern.segments captured → (Matcher.mk (some [blogPattern])).admits path = true) ∧
    ((∀ specs router spec method path captured,
      CompiledRouter.fromRouteSpecs allAtOnce specs = .ok router →
      spec ∈ specs → spec.path = blogRoute.path → router.Serves allAtOnce method path spec captured →
      (Matcher.mk (some [blogPattern])).admits path = true) ↔
        ∀ segment ∈ blogPattern.segments, segment.Covers) :=
  admits_iff_covers allAtOnce_documented
    (show Pattern.parse blogPattern.source = .ok blogPattern from rfl) rfl
    (.cons (.literal _) (.cons (.param _) .nil))

/-- A slug with an escaped slash is served, and its guard does not run. -/
theorem blog_unguarded : ∃ router, CompiledRouter.fromRouteSpecs allAtOnce [blogRoute] = .ok router ∧
    router.matchRoute allAtOnce .get "/blog/a%2Fb".toList =
      .matched blogRoute.target [("slug".toList, "a/b".toList)] ∧
    Pattern.parse blogPattern.source = .ok blogPattern ∧
    (Matcher.mk (some [blogPattern])).admits "/blog/a%2Fb".toList = false :=
  ⟨⟨[([.literal "blog".toList, .param "slug".toList], [(.get, blogRoute.target)])]⟩,
    by decide, by decide, by decide, by decide⟩

end Albedo.Routing
