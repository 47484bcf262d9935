import Albedo.Routing.Tree

/-!
# Links and routes

A link spells the text of a route path as it is and encodes each parameter as a component, a
catch-all segment by segment. The router gives the parameters back, unless a more specific
path takes the request.
-/
namespace Albedo.Routing
open Fallible Percent KeyedList

/-! ### Links -/

def encodeCatchAll (value : Text) : Text :=
  ['/'].intercalate ((value.splitOn '/').map encodeURIComponent)

def linkParts (assign : Text → Text) : Template → Text
  | [] => []
  | .literal text :: parts => '/' :: (text ++ linkParts assign parts)
  | .param name :: parts => '/' :: (encodeURIComponent (assign name) ++ linkParts assign parts)
  | .rest name :: _ => '/' :: encodeCatchAll (assign name)

def linkPath (assign : Text → Text) (t : Template) : Text :=
  if t = [] then ['/'] else linkParts assign t

def linkCaptured (assign : Text → Text) : Template → List (Text × Text)
  | [] => []
  | .literal _ :: parts => linkCaptured assign parts
  | .param name :: parts => (name, encodeURIComponent (assign name)) :: linkCaptured assign parts
  | .rest name :: _ => [(name, encodeCatchAll (assign name))]

def Template.names : Template → List Text
  | [] => []
  | .literal _ :: parts => names parts
  | .param name :: parts => name :: names parts
  | .rest name :: _ => [name]

variable {m : MatchIt} {t : Template} {path : Text} {assign : Text → Text}

/-! ### Parameters -/

theorem decode_encodeURIComponent (value : Text) :
    Utf8.decode (percentDecode (encodeURIComponent value)) = some value := by
  have hdecode := percentDecode_percentEncode (show unreserved '%' = false by decide) value []
  rw [List.append_nil] at hdecode
  unfold encodeURIComponent
  rw [hdecode]
  simp [percentDecode, Utf8.decode_encode]

theorem slash_not_mem_encodeURIComponent (value : Text) : '/' ∉ encodeURIComponent value :=
  not_mem_percentEncode ⟨by decide, by decide⟩ (by decide) value

theorem decodeRouteParam_encodeURIComponent (value : Text) :
    decodeRouteParam (encodeURIComponent value) = some value := by
  unfold decodeRouteParam
  rw [List.splitOn_eq_singleton (slash_not_mem_encodeURIComponent value)]
  simp [decode_encodeURIComponent]

theorem mapM_decode (values : List Text) :
    (values.map encodeURIComponent).mapM (fun segment => Utf8.decode (percentDecode segment)) =
      some values := by
  induction values with
  | nil => rfl
  | cons value values ih => simp [List.mapM_cons, decode_encodeURIComponent, ih]

theorem decodeRouteParam_encodeCatchAll (value : Text) :
    decodeRouteParam (encodeCatchAll value) = some value := by
  unfold decodeRouteParam encodeCatchAll
  have hfree : ∀ segment ∈ (value.splitOn '/').map encodeURIComponent, '/' ∉ segment := by
    intro segment hmem
    obtain ⟨text, -, rfl⟩ := List.mem_map.mp hmem
    exact slash_not_mem_encodeURIComponent text
  rw [List.splitOn_intercalate '/' hfree (by simp), mapM_decode, Option.map_some,
    List.intercalate_splitOn]

theorem encodeCatchAll_ne_nil {value : Text} (h : value ≠ []) : encodeCatchAll value ≠ [] := by
  intro hnil
  have hdecode := decodeRouteParam_encodeCatchAll value
  rw [hnil] at hdecode
  exact h (Option.some.inj hdecode).symm

theorem decodeParams_link (assign : Text → Text) (t : Template) (before : List (Text × Text)) :
    ∃ params, decodeParams before (linkCaptured assign t) = .ok params ∧
      ∀ name, valueOf name params =
        if name ∈ t.names then some (assign name) else valueOf name before := by
  induction t generalizing before with
  | nil => exact ⟨before, rfl, fun name => by simp [Template.names]⟩
  | cons part parts ih =>
      cases part with
      | literal text => exact ih before
      | param name =>
          obtain ⟨params, hparams, hvalues⟩ := ih (put name (assign name) before)
          refine ⟨params, ?_, fun name' => ?_⟩
          · rw [linkCaptured, decodeParams, decodeRouteParam_encodeURIComponent]
            exact hparams
          · rw [hvalues, valueOf_put]
            by_cases hlater : name' ∈ Template.names parts
            · simp [Template.names, hlater]
            · by_cases hname : name' = name
              · simp [Template.names, hname]
              · simp [Template.names, hlater, hname]
      | rest name =>
          refine ⟨put name (assign name) before, ?_, fun name' => ?_⟩
          · rw [linkCaptured, decodeParams, decodeRouteParam_encodeCatchAll]
            rfl
          · rw [valueOf_put]
            by_cases hname : name' = name
            · simp [Template.names, hname]
            · simp [Template.names, hname]

theorem capture_linkPath (hassign : ∀ name ∈ t.names, assign name ≠ []) (hlast : RestLast t) :
    capture t (linkPath assign t) = some (linkCaptured assign t) := by
  refine capture_eq_some.mpr ?_
  unfold linkPath
  by_cases ht : t = []
  · subst ht
    exact Or.inl ⟨rfl, rfl, rfl⟩
  rw [if_neg ht]
  refine Or.inr ⟨ht, ?_⟩
  clear ht
  induction t with
  | nil => exact .nil
  | cons part parts ih =>
      have hlater : RestLast parts := fun name parts' parts'' heq =>
        hlast name (part :: parts') parts'' (by rw [heq, List.cons_append])
      cases part with
      | literal text => exact .literal (ih hassign hlater)
      | param name =>
          have hplain : Plain (encodeURIComponent (assign name)) :=
            ⟨percentEncode_ne_nil (hassign name List.mem_cons_self), slash_not_mem_encodeURIComponent _⟩
          exact .param hplain (ih (fun n hn => hassign n (List.mem_cons_of_mem name hn)) hlater)
      | rest name =>
          obtain rfl := hlast name [] parts rfl
          exact .rest (encodeCatchAll_ne_nil (hassign name (List.mem_singleton.mpr rfl)))

/-! ### What the router has entered -/

/-- Routes have been entered under some of their lowered paths, and nothing else has. -/
structure Entered (done : List (RouteSpec × Template)) (grouped : Grouped) : Prop where
  nodup : (keys grouped).Nodup
  entered : ∀ e ∈ done, ∃ methods, valueOf e.2 grouped = some methods ∧
    methods.lookup e.1.method = some e.1.target
  onlyThese : ∀ t methods method target, valueOf t grouped = some methods →
    methods.lookup method = some target →
      ∃ e ∈ done, e.2 = t ∧ e.1.method = method ∧ e.1.target = target

theorem Entered.addPath {done : List (RouteSpec × Template)} {grouped grouped' : Grouped}
    {route : RouteSpec} (h : Entered done grouped) (hadd : addPath route grouped t = .ok grouped') :
    Entered (done ++ [(route, t)]) grouped' := by
  unfold Routing.addPath at hadd
  dsimp only at hadd
  cases hlookup : ((valueOf t grouped).getD []).lookup route.method with
  | some target =>
      rw [hlookup] at hadd
      cases hadd
  | none =>
      rw [hlookup] at hadd
      cases hadd
      have hput : ∀ t', valueOf t' (put t (put route.method route.target
          ((valueOf t grouped).getD [])) grouped) = if t' = t then
            some (put route.method route.target ((valueOf t grouped).getD []))
          else valueOf t' grouped := fun t' => valueOf_put t t' _ grouped
      refine ⟨nodup_put _ _ h.nodup, fun e he => ?_, fun t' methods method target ht' hmethod => ?_⟩
      · rcases List.mem_append.mp he with hold | hnew
        · obtain ⟨methods, hmethods, htarget⟩ := h.entered e hold
          rw [hput]
          split_ifs with heq
          · refine ⟨_, rfl, ?_⟩
            rw [← heq, hmethods] at hlookup ⊢
            change methods.lookup route.method = none at hlookup
            rw [Option.getD_some, lookup_put]
            split_ifs with hsame
            · rw [← hsame, htarget] at hlookup
              cases hlookup
            · exact htarget
          · exact ⟨methods, hmethods, htarget⟩
        · obtain rfl := List.mem_singleton.mp hnew
          rw [hput, if_pos rfl]
          exact ⟨_, rfl, by rw [lookup_put, if_pos rfl]⟩
      · rw [hput] at ht'
        split_ifs at ht' with heq
        · cases ht'
          rw [lookup_put] at hmethod
          split_ifs at hmethod with hsame
          · cases hmethod
            exact ⟨(route, t), List.mem_append_right _ (List.mem_singleton.mpr rfl), heq.symm,
              hsame.symm, rfl⟩
          · cases hbefore : valueOf t grouped with
            | none =>
                rw [hbefore] at hmethod
                cases hmethod
            | some methods =>
                rw [hbefore] at hmethod
                obtain ⟨e, he, rfl, hrest⟩ := h.onlyThese t methods method target hbefore hmethod
                exact ⟨e, List.mem_append_left _ he, heq.symm, hrest⟩
        · obtain ⟨e, he, hrest⟩ := h.onlyThese t' methods method target ht' hmethod
          exact ⟨e, List.mem_append_left _ he, hrest⟩

theorem Entered.addPaths {done : List (RouteSpec × Template)} {grouped grouped' : Grouped}
    {route : RouteSpec} {ts : List Template} (h : Entered done grouped)
    (hadd : ts.foldlM (Routing.addPath route) grouped = .ok grouped') :
    Entered (done ++ ts.map (route, ·)) grouped' := by
  induction ts generalizing done grouped with
  | nil =>
      cases hadd
      rwa [List.map_nil, List.append_nil]
  | cons t ts ih =>
      obtain ⟨grouped₁, hfirst, hrest⟩ := bind_eq_ok.mp hadd
      have hnext := ih (h.addPath hfirst) hrest
      rwa [List.append_assoc, List.singleton_append, ← List.map_cons] at hnext

def loweredPaths (specs : List RouteSpec) : List (RouteSpec × Template) :=
  specs.flatMap fun route => match normalizeRoutePaths route.path with
    | .ok ts => ts.map (route, ·)
    | .error _ => []

theorem Entered.addRoutes {done : List (RouteSpec × Template)} {grouped grouped' : Grouped}
    {specs : List RouteSpec} (h : Entered done grouped)
    (hadd : specs.foldlM addRoute grouped = .ok grouped') :
    Entered (done ++ loweredPaths specs) grouped' := by
  induction specs generalizing done grouped with
  | nil =>
      cases hadd
      rwa [loweredPaths, List.flatMap_nil, List.append_nil]
  | cons route specs ih =>
      obtain ⟨grouped₁, hfirst, hrest⟩ := bind_eq_ok.mp hadd
      obtain ⟨ts, hts, hpaths⟩ := bind_eq_ok.mp hfirst
      have hnext := ih (h.addPaths hpaths) hrest
      rw [List.append_assoc] at hnext
      have hlowered : loweredPaths (route :: specs) = ts.map (route, ·) ++ loweredPaths specs := by
        unfold loweredPaths
        rw [List.flatMap_cons, hts]
      rwa [hlowered]

theorem mem_loweredPaths {specs : List RouteSpec} {route : RouteSpec} :
    (route, t) ∈ loweredPaths specs ↔
      route ∈ specs ∧ ∃ ts, normalizeRoutePaths route.path = .ok ts ∧ t ∈ ts := by
  unfold loweredPaths
  rw [List.mem_flatMap]
  constructor
  · rintro ⟨route', hmem, hpair⟩
    cases hok : normalizeRoutePaths route'.path with
    | error e =>
        rw [hok] at hpair
        cases hpair
    | ok ts =>
        rw [hok] at hpair
        obtain ⟨t', ht', heq⟩ := List.mem_map.mp hpair
        cases heq
        exact ⟨hmem, ts, hok, ht'⟩
  · rintro ⟨hmem, ts, hok, ht⟩
    refine ⟨route, hmem, ?_⟩
    rw [hok]
    exact List.mem_map.mpr ⟨t, ht, rfl⟩

theorem CompiledRouter.entered {specs : List RouteSpec} {router : CompiledRouter}
    (h : CompiledRouter.fromRouteSpecs m specs = .ok router) :
    m.insertAll [] router.paths = .ok () ∧
      ∃ sorted : List RouteSpec, sorted.Perm specs ∧ Entered (loweredPaths sorted) router.entries := by
  obtain ⟨grouped, hgrouped, h⟩ := bind_eq_ok.mp h
  obtain ⟨u, hinsert, h⟩ := bind_eq_ok.mp h
  cases h
  refine ⟨hinsert, specs.insertionSort RouteSpec.before, List.perm_insertionSort _ _, ?_⟩
  have hempty : Entered [] [] :=
    ⟨List.nodup_nil, fun e he => absurd he List.not_mem_nil, fun t methods method target h => by
      cases h⟩
  have hentered := hempty.addRoutes hgrouped
  rw [List.nil_append] at hentered
  have hperm : (grouped.insertionSort fun e f => e.1.text ≤ f.1.text).Perm grouped :=
    List.perm_insertionSort _ grouped
  have hkeys := (hperm.map Prod.fst).nodup_iff.mpr hentered.nodup
  have hvalue : ∀ t, valueOf t (grouped.insertionSort fun e f => e.1.text ≤ f.1.text) =
      valueOf t grouped := by
    intro t
    refine Option.ext fun methods => ?_
    exact ((lookup_eq_some_iff hkeys).trans (hperm.mem_iff)).trans
      (lookup_eq_some_iff hentered.nodup).symm
  refine ⟨hkeys, fun e he => ?_, fun t methods method target ht => ?_⟩
  · rw [hvalue]
    exact hentered.entered e he
  · rw [hvalue] at ht
    exact hentered.onlyThese t methods method target ht

/-! ### Links are answered -/

theorem restLast_of_mem_expand {parts : Template} {catchAll : Option Text}
    (h : RestLast (parts ++ catchAll.toList.map .rest)) (ht : t ∈ expand (parts, catchAll)) :
    RestLast t := by
  cases catchAll with
  | none =>
      obtain rfl := List.mem_singleton.mp ht
      simpa using h
  | some last =>
      rcases List.mem_cons.mp ht with rfl | hmem
      · intro name before after heq
        have hnil := h name before (after ++ [.rest last]) (by simp [heq])
        simp at hnil
      · obtain rfl := List.mem_singleton.mp hmem
        exact h

/-- A request is answered under a lowered path: by a route that is declared there with its
method, or because none is, or because what it captured is no text. -/
inductive CompiledRouter.AnswersUnder (m : MatchIt) (specs : List RouteSpec) (router : CompiledRouter)
    (method : HttpMethod) (path : Text) (t : Template) : Prop
  | matched {route : RouteSpec} {ts : List Template} {params : List (Text × Text)} : route ∈ specs →
      route.method = method → normalizeRoutePaths route.path = .ok ts → t ∈ ts →
      router.matchRoute m method path = .matched route.target params →
      AnswersUnder m specs router method path t
  | notAllowed {allowed : List HttpMethod} : method ∉ allowed →
      router.matchRoute m method path = .methodNotAllowed allowed →
      AnswersUnder m specs router method path t
  | undecodable {name : Text} : router.matchRoute m method path = .undecodableParam name →
      AnswersUnder m specs router method path t

theorem CompiledRouter.answersUnder {specs : List RouteSpec} {router : CompiledRouter} {i : ℕ}
    {captured : List (Text × Text)} (hbuilt : CompiledRouter.fromRouteSpecs m specs = .ok router)
    (method : HttpMethod) (hfind : m.find router.paths path = some (i, captured))
    (hget : router.paths[i]? = some t) : router.AnswersUnder m specs method path t := by
  obtain ⟨-, sorted, hperm, hentered⟩ := CompiledRouter.entered hbuilt
  obtain ⟨⟨t', methods⟩, hentry, rfl⟩ : ∃ entry, router.entries[i]? = some entry ∧ entry.1 = t := by
    unfold CompiledRouter.paths at hget
    rw [List.getElem?_map] at hget
    exact Option.map_eq_some_iff.mp hget
  have hvalue : valueOf t' router.entries = some methods :=
    (lookup_eq_some_iff hentered.nodup).mpr (List.mem_of_getElem? hentry)
  cases htarget : methods.lookup method with
  | none =>
      refine .notAllowed ?_ (matchRoute_not_allowed hfind hentry htarget)
      simp [htarget]
  | some target =>
      cases hparams : decodeParams [] captured with
      | error name => exact .undecodable (matchRoute_undecodable hfind hentry htarget hparams)
      | ok params =>
          obtain ⟨⟨route, t''⟩, he, rfl, hmethod, hroute⟩ :=
            hentered.onlyThese t' methods method target hvalue htarget
          obtain ⟨hmem, ts, hok, ht⟩ := mem_loweredPaths.mp he
          have hmatch := matchRoute_matched hfind hentry htarget hparams
          rw [← hroute] at hmatch
          exact .matched (hperm.mem_iff.mp hmem) hmethod hok ht hmatch

/-- A link to a route is served by it with the parameters it was made from, or is answered under
a more specific path. -/
theorem link_answered (hm : m.Documented) {specs : List RouteSpec} {router : CompiledRouter}
    {route : RouteSpec} {ts : List Template}
    (hbuilt : CompiledRouter.fromRouteSpecs m specs = .ok router) (hroute : route ∈ specs)
    (hok : normalizeRoutePaths route.path = .ok ts) (ht : t ∈ ts)
    (hassign : ∀ name ∈ t.names, assign name ≠ []) :
    (∃ params, router.matchRoute m route.method (linkPath assign t) = .matched route.target params ∧
      ∀ name, valueOf name params = if name ∈ t.names then some (assign name) else none) ∨
    ∃ t', MoreSpecific t' t ∧ router.AnswersUnder m specs route.method (linkPath assign t) t' := by
  obtain ⟨hinsert, sorted, hperm, hentered⟩ := CompiledRouter.entered hbuilt
  obtain ⟨methods, hvalue, htarget⟩ :=
    hentered.entered (route, t) (mem_loweredPaths.mpr ⟨hperm.mem_iff.mpr hroute, ts, hok, ht⟩)
  have hmem : t ∈ router.paths := mem_keys_of_lookup hvalue
  have hlast : RestLast t := by
    obtain ⟨parts, catchAll, hparse, rfl⟩ := normalizeRoutePaths_ok hok
    exact restLast_of_mem_expand (parseRoutePath_restLast hparse) ht
  have hcapture := capture_linkPath hassign hlast
  obtain ⟨i, found, t', hfind, hget, rfl | hmore⟩ := hm.find_best _ _ t _ hinsert hmem hcapture
  · refine Or.inl ?_
    obtain ⟨t'', hget', hcapture'⟩ := hm.find_captures _ _ _ _ hinsert hfind
    rw [hget] at hget'
    cases hget'
    rw [hcapture] at hcapture'
    cases hcapture'
    obtain ⟨⟨t'', methods'⟩, hentry, rfl⟩ :
        ∃ entry, router.entries[i]? = some entry ∧ entry.1 = t' := by
      unfold CompiledRouter.paths at hget
      rw [List.getElem?_map] at hget
      exact Option.map_eq_some_iff.mp hget
    have hsame : valueOf t'' router.entries = some methods' :=
      (lookup_eq_some_iff hentered.nodup).mpr (List.mem_of_getElem? hentry)
    obtain rfl : methods = methods' := Option.some.inj (hvalue.symm.trans hsame)
    obtain ⟨params, hparams, hvalues⟩ := decodeParams_link assign t'' []
    refine ⟨params, ?_, hvalues⟩
    unfold CompiledRouter.matchRoute
    rw [hfind]
    simp only [hentry, htarget, hparams]
  · exact Or.inr ⟨t', hmore, CompiledRouter.answersUnder hbuilt route.method hfind hget⟩

def postRoute : RouteSpec :=
  ⟨"post".toList, .get, "/post/[id]".toList, "post.show".toList, none, none, [], none⟩

def newPostRoute : RouteSpec :=
  ⟨"post_new".toList, .post, "/post/new".toList, "post.create".toList, none, none, [], none⟩

def cafeRoute : RouteSpec :=
  ⟨"cafe".toList, .get, "/caf\u00e9".toList, "cafe.show".toList, none, none, [], none⟩

def postPath : Template := [.literal "post".toList, .param "id".toList]

def postRouter : CompiledRouter where
  entries := [([.literal "post".toList, .literal "new".toList], [(.post, newPostRoute.target)]),
    (postPath, [(.get, postRoute.target)])]

theorem post_answered :
    (∃ params, postRouter.matchRoute allAtOnce .get (linkPath (fun _ => "a/b".toList) postPath) =
        .matched postRoute.target params ∧
      ∀ name, valueOf name params = if name ∈ postPath.names then some "a/b".toList else none) ∨
    ∃ t', MoreSpecific t' postPath ∧ postRouter.AnswersUnder allAtOnce [postRoute, newPostRoute] .get
      (linkPath (fun _ => "a/b".toList) postPath) t' :=
  link_answered allAtOnce_documented
    (show CompiledRouter.fromRouteSpecs allAtOnce [postRoute, newPostRoute] = .ok postRouter by decide)
    List.mem_cons_self (show normalizeRoutePaths postRoute.path = .ok [postPath] by decide)
    List.mem_cons_self (by decide)

def pathSafe (c : Char) : Bool :=
  0x20 < c.toNat && c.toNat < 0x7F && !"\"#<>?`^\x7b\x7d".toList.contains c

def browserSegment (text : Text) : Text := percentEncode pathSafe text

/-- A route outside ASCII is not found as browsers ask for it, and a link may name a path that
takes other methods only. -/
theorem links_unserved :
    (∃ router, CompiledRouter.fromRouteSpecs allAtOnce [cafeRoute] = .ok router ∧
      router.matchRoute allAtOnce .get ('/' :: browserSegment "caf\u00e9".toList) = .notFound) ∧
    CompiledRouter.fromRouteSpecs allAtOnce [postRoute, newPostRoute] = .ok postRouter ∧
      postRouter.matchRoute allAtOnce .get (linkPath (fun _ => "new".toList) postPath) =
        .methodNotAllowed [.post] :=
  ⟨⟨⟨[([.literal "caf\u00e9".toList], [(.get, cafeRoute.target)])]⟩, by decide, by decide⟩,
    by decide, by decide⟩

end Albedo.Routing
