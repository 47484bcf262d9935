import Albedo.Library.Words
import Albedo.Routing.Tree
import Mathlib.Data.List.Pairwise
import Mathlib.Data.List.Sort
import Mathlib.Data.Prod.Lex
import Mathlib.Data.String.Basic

/-!
# Layouts

A layout file stands in a directory of pages. Discovery gives a page the layouts whose directory its
URL lies under; the server is given a path for each layout and lowers it, as it lowers the paths of
routes, and wraps a route in the layouts whose lowered path matches the front of its own.
-/
namespace Albedo.Routing
open Fallible

/-! ### Discovery -/

structure RouteFile where
  dirs : List Text
  stem : Text
  extension : Text
  visible : ∀ name ∈ stem :: dirs, Plain name ∧ name.head? ≠ some '.'

def directoryUrlPrefix (file : RouteFile) : Text := joinRouteSegments file.dirs

/-- The segments of the URL of a page: its path, where an index stands for its directory. -/
def RouteFile.segments (file : RouteFile) : List Text :=
  if file.stem.map Char.toLower = "index".toList then file.dirs else file.dirs ++ [file.stem]

def filePathToUrl (file : RouteFile) : Text := joinRouteSegments file.segments

structure DiscoveredLayout where
  urlPrefix : Text
  source : RouteFile

/-- What a file named `layout` is found as. -/
def discoverLayout (file : RouteFile) : DiscoveredLayout := ⟨directoryUrlPrefix file, file⟩

def urlPrefixCovers (reach url : Text) : Bool :=
  reach = ['/'] || url = reach || (reach ++ ['/']).isPrefixOf url

def byteLength (text : Text) : ℕ := (text.map Char.utf8Size).sum

def DiscoveredLayout.before (a b : DiscoveredLayout) : Prop :=
  byteLength a.urlPrefix < byteLength b.urlPrefix ∨
    byteLength a.urlPrefix = byteLength b.urlPrefix ∧ a.urlPrefix ≤ b.urlPrefix

instance : DecidableRel DiscoveredLayout.before := fun _ _ => inferInstanceAs (Decidable (_ ∨ _))

def layoutsForRoute (urlPath : Text) (layouts : List DiscoveredLayout) : List RouteFile :=
  ((layouts.filter fun layout => urlPrefixCovers layout.urlPrefix urlPath).insertionSort
    DiscoveredLayout.before).map DiscoveredLayout.source

/-! ### The server -/

structure LayoutSpec where
  name : String
  path : Text
  handler : String

inductive LayoutError where
  | route (error : RouteError)
  | duplicate (path : Text)

structure CompiledLayoutTarget where
  normalizedPath : Template
  handlerId : String

def CompiledLayoutTarget.segmentCount (target : CompiledLayoutTarget) : ℕ :=
  target.normalizedPath.length

def RoutePart.isStatic : RoutePart → Bool
  | .literal _ => true
  | _ => false

def CompiledLayoutTarget.staticSegmentCount (target : CompiledLayoutTarget) : ℕ :=
  target.normalizedPath.countP RoutePart.isStatic

def LayoutSpec.before (left right : LayoutSpec) : Prop :=
  left.path < right.path ∨ left.path = right.path ∧
    (left.name < right.name ∨ left.name = right.name ∧ left.handler ≤ right.handler)

instance : DecidableRel LayoutSpec.before := fun _ _ => inferInstanceAs (Decidable (_ ∨ _))

def addTargets (handler : String) (compiled : List CompiledLayoutTarget) :
    List Template → Except LayoutError (List CompiledLayoutTarget)
  | [] => .ok compiled
  | path :: paths =>
      if compiled.any fun target => target.normalizedPath.text = path.text then
        .error (.duplicate path.text)
      else addTargets handler (compiled ++ [⟨path, handler⟩]) paths

def compileLayout (compiled : List CompiledLayoutTarget) (layout : LayoutSpec) :
    Except LayoutError (List CompiledLayoutTarget) :=
  match normalizeRoutePaths layout.path with
  | .error error => .error (.route error)
  | .ok paths => addTargets layout.handler compiled paths

def compileLayoutTargets (layoutSpecs : List LayoutSpec) :
    Except LayoutError (List CompiledLayoutTarget) :=
  (layoutSpecs.insertionSort LayoutSpec.before).foldlM compileLayout []

/-- The segments of a layout against those of a route that is as long at least. -/
def matchesParts : Template → Template → Bool
  | [], _ => true
  | .rest _ :: layout, _ => layout.isEmpty
  | .param _ :: layout, _ :: route => matchesParts layout route
  | .literal text :: layout, part :: route => text = part.text && matchesParts layout route
  | _ :: _, [] => false

def layoutMatchesRoutePrefix (layout route : Template) : Bool :=
  layout.length ≤ route.length && matchesParts layout route

def CompiledLayoutTarget.before (left right : CompiledLayoutTarget) : Prop :=
  left.segmentCount < right.segmentCount ∨ left.segmentCount = right.segmentCount ∧
    (right.staticSegmentCount < left.staticSegmentCount ∨
      left.staticSegmentCount = right.staticSegmentCount ∧
        (left.normalizedPath.text < right.normalizedPath.text ∨
          left.normalizedPath.text = right.normalizedPath.text ∧ left.handlerId ≤ right.handlerId))

instance : DecidableRel CompiledLayoutTarget.before :=
  fun _ _ => inferInstanceAs (Decidable (_ ∨ _))

def resolveLayoutHandlersForRoute (route : Template) (layouts : List CompiledLayoutTarget) :
    List String :=
  ((layouts.filter fun layout => layoutMatchesRoutePrefix layout.normalizedPath route).insertionSort
    CompiledLayoutTarget.before).map CompiledLayoutTarget.handlerId

/-! ### URLs of segments -/

def spell (segments : List Text) : Text := segments.flatMap ('/' :: ·)

theorem spell_cons (segment : Text) (segments : List Text) :
    spell (segment :: segments) = '/' :: (segment ++ spell segments) := rfl

theorem spell_append (ds us : List Text) : spell (ds ++ us) = spell ds ++ spell us :=
  List.flatMap_append

theorem joinRouteSegments_eq {segments : List Text} (hsome : segments ≠ []) :
    joinRouteSegments segments = spell segments := by
  obtain ⟨segment, rest, rfl⟩ := List.exists_cons_of_ne_nil hsome
  rw [joinRouteSegments, if_neg (List.cons_ne_nil segment rest), Words.intercalate_cons, spell,
    List.flatMap_cons]
  rfl

theorem spell_head (segments : List Text) :
    spell segments = [] ∨ ∃ rest, spell segments = '/' :: rest := by
  cases segments with
  | nil => exact .inl rfl
  | cons segment segments => exact .inr ⟨_, rfl⟩

theorem prefix_of_spell_eq {ds us : List Text} (hds : ∀ d ∈ ds, Plain d) (hus : ∀ u ∈ us, Plain u)
    {rest : Text} (hrest : rest = [] ∨ ∃ r, rest = '/' :: r) (h : spell us = spell ds ++ rest) :
    ds <+: us := by
  induction ds generalizing us with
  | nil => exact List.nil_prefix
  | cons d ds ih =>
    cases us with
    | nil => cases h
    | cons u us =>
      rw [List.forall_mem_cons] at hds hus
      have hjoined : u ++ spell us = d ++ (spell ds ++ rest) := by
        rw [spell_cons, spell_cons, List.cons_append, List.append_assoc] at h
        exact (List.cons.inj h).2
      have hnext : spell ds ++ rest = [] ∨ ∃ r, spell ds ++ rest = '/' :: r := by
        rcases spell_head ds with hnil | ⟨r, hr⟩
        · rwa [hnil]
        · exact .inr ⟨r ++ rest, by rw [hr]; rfl⟩
      obtain ⟨rfl, htail⟩ := segment_eq hus.1.2 hds.1.2 (spell_head us) hnext hjoined
      exact List.cons_prefix_cons.mpr ⟨rfl, ih hds.2 hus.2 htail⟩

theorem length_spell_pos {segments : List Text} (hsome : segments ≠ [])
    (hplain : ∀ segment ∈ segments, Plain segment) : 2 ≤ (spell segments).length := by
  obtain ⟨segment, rest, rfl⟩ := List.exists_cons_of_ne_nil hsome
  have hpos := List.length_pos_iff.mpr (hplain segment List.mem_cons_self).1
  rw [spell, List.flatMap_cons, List.length_append, List.length_cons]
  omega

theorem urlPrefixCovers_iff {ds us : List Text} (hds : ∀ d ∈ ds, Plain d)
    (hus : ∀ u ∈ us, Plain u) :
    urlPrefixCovers (joinRouteSegments ds) (joinRouteSegments us) = true ↔ ds <+: us := by
  by_cases hnil : ds = []
  · subst hnil
    simp [urlPrefixCovers, joinRouteSegments]
  · have hlong := length_spell_pos hnil hds
    rw [joinRouteSegments_eq hnil]
    have hroot : spell ds ≠ ['/'] := by
      intro hroot
      rw [hroot] at hlong
      exact absurd hlong (by decide)
    by_cases hus' : us = []
    · subst hus'
      have hout : ¬ ds <+: [] := by simpa using hnil
      refine iff_of_false ?_ hout
      simp only [urlPrefixCovers, joinRouteSegments, if_true, hroot, decide_false, Bool.false_or,
        Bool.or_eq_true, decide_eq_true_eq, List.isPrefixOf_iff_prefix, not_or]
      refine ⟨fun h => hroot h.symm, fun h => ?_⟩
      have := h.length_le
      simp only [List.length_append, List.length_singleton] at this
      omega
    · rw [joinRouteSegments_eq hus']
      simp only [urlPrefixCovers, hroot, decide_false, Bool.false_or, Bool.or_eq_true,
        decide_eq_true_eq, List.isPrefixOf_iff_prefix]
      constructor
      · rintro (heq | ⟨rest, hrest⟩)
        · exact prefix_of_spell_eq hds hus (.inl rfl) (by rw [heq, List.append_nil])
        · refine prefix_of_spell_eq hds hus (.inr ⟨rest, rfl⟩) ?_
          rw [← hrest, List.append_assoc]
          rfl
      · rintro ⟨rest, rfl⟩
        cases rest with
        | nil => exact .inl (by rw [List.append_nil])
        | cons next rest =>
          refine .inr ⟨next ++ spell rest, ?_⟩
          rw [spell_append, spell_cons, List.append_assoc]
          rfl

namespace RouteFile

theorem plain_dirs (file : RouteFile) : ∀ dir ∈ file.dirs, Plain dir :=
  fun dir hdir => (file.visible dir (List.mem_cons_of_mem file.stem hdir)).1

theorem plain_segments (file : RouteFile) : ∀ segment ∈ file.segments, Plain segment := by
  intro segment hsegment
  rw [segments] at hsegment
  split_ifs at hsegment
  · exact file.plain_dirs segment hsegment
  · rcases List.mem_append.mp hsegment with hdir | hstem
    · exact file.plain_dirs segment hdir
    · rw [List.mem_singleton.mp hstem]
      exact (file.visible file.stem List.mem_cons_self).1

end RouteFile

/-! ### The layouts discovery gives a page -/

def Reaches (layout page : RouteFile) : Prop := layout.dirs <+: page.segments

theorem mem_layoutsForRoute (files : List RouteFile) (page layout : RouteFile) :
    layout ∈ layoutsForRoute (filePathToUrl page) (files.map discoverLayout) ↔
      layout ∈ files ∧ Reaches layout page := by
  simp only [layoutsForRoute, List.mem_map, List.mem_insertionSort, List.mem_filter]
  constructor
  · rintro ⟨found, ⟨⟨file, hfile, rfl⟩, hcovers⟩, rfl⟩
    exact ⟨hfile, (urlPrefixCovers_iff file.plain_dirs page.plain_segments).mp hcovers⟩
  · rintro ⟨hfile, hreaches⟩
    refine ⟨discoverLayout layout, ⟨⟨layout, hfile, rfl⟩, ?_⟩, rfl⟩
    exact (urlPrefixCovers_iff layout.plain_dirs page.plain_segments).mpr hreaches

theorem byteLength_append (text text' : Text) :
    byteLength (text ++ text') = byteLength text + byteLength text' := by
  rw [byteLength, List.map_append, List.sum_append]
  rfl

theorem byteLength_lt {ds us : List Text} (h : ds <+: us) (hus : ∀ u ∈ us, Plain u)
    (hne : ds ≠ us) : byteLength (joinRouteSegments ds) < byteLength (joinRouteSegments us) := by
  obtain ⟨rest, rfl⟩ := h
  obtain ⟨next, rest, rfl⟩ := List.exists_cons_of_ne_nil (by simpa using hne)
  have hnext : 0 < byteLength next := by
    obtain ⟨c, text, rfl⟩ := List.exists_cons_of_ne_nil (hus next (by simp)).1
    rw [byteLength, List.map_cons, List.sum_cons]
    exact Nat.add_pos_left (Char.utf8Size_pos c) _
  cases ds with
  | nil =>
    rw [List.nil_append, joinRouteSegments_eq (List.cons_ne_nil next rest), spell_cons]
    change 1 < byteLength (['/'] ++ (next ++ spell rest))
    rw [byteLength_append, byteLength_append]
    change 1 < 1 + _
    omega
  | cons d ds =>
    rw [joinRouteSegments_eq (List.cons_ne_nil d ds), joinRouteSegments_eq (by simp), spell_append,
      byteLength_append, spell_cons]
    change _ < _ + byteLength (['/'] ++ (next ++ spell rest))
    rw [byteLength_append, byteLength_append]
    omega

instance : Std.Total DiscoveredLayout.before where
  total a b := by
    rcases Nat.lt_trichotomy (byteLength a.urlPrefix) (byteLength b.urlPrefix) with
      hless | hsame | hless
    · exact .inl (.inl hless)
    · exact (le_total a.urlPrefix b.urlPrefix).imp (fun h => .inr ⟨hsame, h⟩)
        fun h => .inr ⟨hsame.symm, h⟩
    · exact .inr (.inl hless)

instance : IsTrans DiscoveredLayout DiscoveredLayout.before where
  trans a b c hab hbc := by
    rcases hab with hab | ⟨hab, habText⟩
    · rcases hbc with hbc | ⟨hbc, -⟩
      · exact .inl (hab.trans hbc)
      · exact .inl (hbc ▸ hab)
    · rcases hbc with hbc | ⟨hbc, hbcText⟩
      · exact .inl (hab ▸ hbc)
      · exact .inr ⟨hab.trans hbc, habText.trans hbcText⟩

/-- A list of layouts, each in a directory of the next or in the same one. -/
def OutermostFirst (chain : List RouteFile) : Prop :=
  chain.Pairwise fun outer inner => outer.dirs <+: inner.dirs

theorem outermostFirst_layoutsForRoute (files : List RouteFile) (page : RouteFile) :
    OutermostFirst (layoutsForRoute (filePathToUrl page) (files.map discoverLayout)) := by
  have hall := fun layout => (mem_layoutsForRoute files page layout).mp
  rw [OutermostFirst, layoutsForRoute, List.pairwise_map]
  have hsorted := List.pairwise_insertionSort DiscoveredLayout.before
    ((files.map discoverLayout).filter fun layout =>
      urlPrefixCovers layout.urlPrefix (filePathToUrl page))
  refine hsorted.imp_of_mem ?_
  intro a b ha hb hbefore
  have hsource : ∀ found ∈ ((files.map discoverLayout).filter fun layout =>
      urlPrefixCovers layout.urlPrefix (filePathToUrl page)).insertionSort DiscoveredLayout.before,
      found.urlPrefix = joinRouteSegments found.source.dirs ∧ Reaches found.source page := by
    intro found hfound
    refine ⟨?_, (hall found.source (List.mem_map_of_mem hfound)).2⟩
    rw [List.mem_insertionSort, List.mem_filter, List.mem_map] at hfound
    obtain ⟨⟨file, -, rfl⟩, -⟩ := hfound
    rfl
  obtain ⟨hpartsA, hreachA⟩ := hsource a ha
  obtain ⟨hpartsB, hreachB⟩ := hsource b hb
  rcases List.prefix_or_prefix_of_prefix hreachA hreachB with hout | hin
  · exact hout
  · by_cases hsame : b.source.dirs = a.source.dirs
    · exact hsame ▸ List.prefix_rfl
    · have hless := byteLength_lt hin a.source.plain_dirs hsame
      rw [← hpartsA, ← hpartsB] at hless
      rcases hbefore with hlt | ⟨heq, -⟩
      · omega
      · omega

theorem nodup_layoutsForRoute {files : List RouteFile} (hfiles : files.Nodup) (page : RouteFile) :
    (layoutsForRoute (filePathToUrl page) (files.map discoverLayout)).Nodup := by
  have hperm : (layoutsForRoute (filePathToUrl page) (files.map discoverLayout)).Perm
      (((files.map discoverLayout).filter fun layout =>
        urlPrefixCovers layout.urlPrefix (filePathToUrl page)).map DiscoveredLayout.source) :=
    (List.perm_insertionSort _ _).map _
  rw [hperm.nodup_iff, List.filter_map, List.map_map]
  change (List.map (fun file : RouteFile => file) _).Nodup
  rw [List.map_id']
  exact hfiles.filter _

/-! ### Lowered segments -/

def lowered (segment : Text) : RouteSegment :=
  if startsWith ['[', '[', '.', '.', '.'] segment ∧ endsWith [']', ']'] segment then
    .optionalCatchAll (between 5 2 segment)
  else if startsWith ['[', '.', '.', '.'] segment ∧ endsWith [']'] segment then
    .part (.rest (between 4 1 segment))
  else if startsWith ['['] segment ∧ endsWith [']'] segment then
    .part (.param (between 1 1 segment))
  else if startsWith ['{'] segment ∧ endsWith ['}'] segment then
    match between 1 1 segment with
    | '*' :: name => .part (.rest name)
    | inner => .part (.param inner)
  else .part (.literal segment)

theorem normalizeSegment_eq {path segment : Text} {isLast : Bool} {found : RouteSegment}
    (h : normalizeSegment path segment isLast = .ok found) : found = lowered segment := by
  unfold normalizeSegment at h
  rw [lowered]
  split_ifs at h ⊢
  · obtain ⟨_, _, h⟩ := bind_eq_ok.mp h
    obtain ⟨_, _, h⟩ := bind_eq_ok.mp h
    cases h
    rfl
  · obtain ⟨_, _, h⟩ := bind_eq_ok.mp h
    obtain ⟨_, _, h⟩ := bind_eq_ok.mp h
    cases h
    rfl
  · obtain ⟨_, _, h⟩ := bind_eq_ok.mp h
    split_ifs at h
    cases h
    rfl
  · dsimp only at h
    split at h
    · next name hinner =>
      obtain ⟨_, _, h⟩ := bind_eq_ok.mp h
      obtain ⟨_, _, h⟩ := bind_eq_ok.mp h
      cases h
      simp only [hinner]
    · next inner hinner =>
      obtain ⟨_, _, h⟩ := bind_eq_ok.mp h
      cases h
      simp only
  · cases h
    rfl

theorem parts_prefix {path path' : Text} {ds us : List Text} {parts parts' : Template}
    {catchAll catchAll' : Option Text} (hunder : ds <+: us)
    (h : normalizeSegments path ds = .ok (parts, catchAll))
    (h' : normalizeSegments path' us = .ok (parts', catchAll')) : parts <+: parts' := by
  induction ds generalizing us parts parts' catchAll catchAll' with
  | nil =>
    cases h
    exact List.nil_prefix
  | cons d ds ih =>
    obtain ⟨rest, rfl⟩ := hunder
    rw [List.cons_append] at h'
    obtain ⟨found, restParts, restCatchAll, hfound, hrest, hcase⟩ := normalizeSegments_cons h
    obtain ⟨found', restParts', restCatchAll', hfound', hrest', hcase'⟩ :=
      normalizeSegments_cons h'
    have hsame : found = found' :=
      (normalizeSegment_eq hfound).trans (normalizeSegment_eq hfound').symm
    subst hsame
    have hparts := ih (List.prefix_append ds rest) hrest hrest'
    rcases hcase with ⟨part, rfl, rfl, rfl⟩ | ⟨name, rfl, rfl, rfl⟩
    · rcases hcase' with ⟨part', hpart, rfl, rfl⟩ | ⟨name', hname, -, -⟩
      · cases hpart
        exact List.cons_prefix_cons.mpr ⟨rfl, hparts⟩
      · cases hname
    · rcases hcase' with ⟨part', hpart, -, -⟩ | ⟨name', hname, rfl, rfl⟩
      · cases hpart
      · exact hparts

theorem parseRoutePath_join {segments : List Text} (hplain : ∀ segment ∈ segments, Plain segment)
    {parsed : Template × Option Text}
    (h : parseRoutePath (joinRouteSegments segments) = .ok parsed) :
    normalizeSegments (joinRouteSegments segments) segments = .ok parsed := by
  rw [parseRoutePath] at h
  obtain ⟨_, -, h⟩ := bind_eq_ok.mp h
  cases segments with
  | nil => exact h
  | cons segment segments =>
    have hlong := length_spell_pos (List.cons_ne_nil segment segments) hplain
    rw [← joinRouteSegments_eq (List.cons_ne_nil segment segments)] at hlong
    have hroot : joinRouteSegments (segment :: segments) ≠ ['/'] := by
      intro hroot
      rw [hroot] at hlong
      exact absurd hlong (by decide)
    rw [if_neg hroot] at h
    have hsplit : ((joinRouteSegments (segment :: segments)).dropWhile (· = '/')).splitOn '/' =
        segment :: segments := by
      have hhead : (['/'].intercalate (segment :: segments)).dropWhile (· = '/') =
          ['/'].intercalate (segment :: segments) := by
        rw [Words.intercalate_cons]
        have hfirst := hplain segment List.mem_cons_self
        obtain ⟨c, text, rfl⟩ := List.exists_cons_of_ne_nil hfirst.1
        have hc : c ≠ '/' := fun hc => hfirst.2 (hc ▸ List.mem_cons_self)
        rw [List.cons_append, List.dropWhile_cons_of_neg (by simpa using hc)]
      rw [joinRouteSegments, if_neg (List.cons_ne_nil segment segments),
        List.dropWhile_cons_of_pos (by simp), hhead]
      exact List.splitOn_intercalate _ (fun part hpart => (hplain part hpart).2)
        (List.cons_ne_nil segment segments)
    rwa [hsplit] at h

/-! ### The layouts the server wraps a route in -/

theorem matchesParts_of_prefix {layout route : Template} (hlast : RestLast layout)
    (h : layout <+: route) : matchesParts layout route = true := by
  induction layout generalizing route with
  | nil => rw [matchesParts]
  | cons part layout ih =>
    obtain ⟨rest, rfl⟩ := h
    have htail : RestLast layout := by
      intro name before after heq
      exact hlast name (part :: before) after (by rw [heq]; rfl)
    cases part with
    | literal text =>
      rw [List.cons_append, matchesParts, ih htail (List.prefix_append layout rest)]
      simp [RoutePart.text]
    | param name => exact ih htail (List.prefix_append layout rest)
    | rest name =>
      rw [matchesParts, hlast name [] layout rfl]
      rfl

def layoutPaths (file : RouteFile) : List Template :=
  match normalizeRoutePaths (directoryUrlPrefix file) with
  | .ok paths => paths
  | .error _ => []

variable {file page : RouteFile} {parts route : Template} {catchAll : Option Text}
  {routes : List Template}

theorem layoutPaths_eq (h : parseRoutePath (directoryUrlPrefix file) = .ok (parts, catchAll)) :
    layoutPaths file = expand (parts, catchAll) := by
  rw [layoutPaths, normalizeRoutePaths, h]
  rfl

theorem restLast_parts (h : parseRoutePath (directoryUrlPrefix file) = .ok (parts, catchAll)) :
    RestLast parts := by
  intro name before after heq
  have hall := parseRoutePath_restLast h name before (after ++ catchAll.toList.map .rest)
    (by rw [heq, List.append_assoc]; rfl)
  exact (List.append_eq_nil_iff.mp hall).1

theorem matches_of_reaches (h : parseRoutePath (directoryUrlPrefix file) = .ok (parts, catchAll))
    (hroutes : normalizeRoutePaths (filePathToUrl page) = .ok routes) (hroute : route ∈ routes)
    (hreaches : Reaches file page) :
    parts ∈ layoutPaths file ∧ layoutMatchesRoutePrefix parts route = true := by
  have hparts : parts ∈ layoutPaths file := by
    rw [layoutPaths_eq h]
    cases catchAll with
    | none => exact List.mem_singleton_self parts
    | some name => exact List.mem_cons_self
  refine ⟨hparts, ?_⟩
  rw [normalizeRoutePaths] at hroutes
  cases hpage : parseRoutePath (filePathToUrl page) with
  | error error =>
    rw [hpage] at hroutes
    cases hroutes
  | ok parsed =>
    obtain ⟨parts', catchAll'⟩ := parsed
    rw [hpage] at hroutes
    cases hroutes
    have hleading := parts_prefix hreaches (parseRoutePath_join file.plain_dirs h)
      (parseRoutePath_join page.plain_segments hpage)
    have hroute' : parts' <+: route := by
      cases catchAll' with
      | none =>
        exact List.mem_singleton.mp hroute ▸ List.prefix_rfl
      | some name =>
        rcases List.mem_cons.mp hroute with rfl | hroute
        · exact List.prefix_rfl
        · rw [List.mem_singleton.mp hroute]
          exact List.prefix_append parts' _
    have hall := hleading.trans hroute'
    rw [layoutMatchesRoutePrefix, matchesParts_of_prefix (restLast_parts h) hall]
    simpa using hall.length_le

def layoutSpec (name handler : RouteFile → String) (file : RouteFile) : LayoutSpec :=
  ⟨name file, directoryUrlPrefix file, handler file⟩

def LayoutSpec.targets (layout : LayoutSpec) : List CompiledLayoutTarget :=
  match normalizeRoutePaths layout.path with
  | .ok paths => paths.map (⟨·, layout.handler⟩)
  | .error _ => []

def texts (compiled : List CompiledLayoutTarget) : List Text :=
  compiled.map fun target => target.normalizedPath.text

theorem addTargets_eq {handler : String} {compiled targets : List CompiledLayoutTarget}
    {paths : List Template} (h : addTargets handler compiled paths = .ok targets)
    (hapart : (texts compiled).Nodup) :
    targets = compiled ++ paths.map (⟨·, handler⟩) ∧ (texts targets).Nodup := by
  induction paths generalizing compiled with
  | nil =>
    cases h
    exact ⟨by simp, hapart⟩
  | cons path paths ih =>
    rw [addTargets] at h
    split_ifs at h with hseen
    have hnew : (texts (compiled ++ [⟨path, handler⟩])).Nodup := by
      rw [texts, List.map_append, List.map_singleton]
      refine List.Nodup.append hapart (List.nodup_singleton _) ?_
      rw [List.disjoint_singleton]
      intro hin
      obtain ⟨target, htarget, htext⟩ := List.mem_map.mp hin
      exact hseen (List.any_eq_true.mpr ⟨target, htarget, decide_eq_true htext⟩)
    obtain ⟨rfl, hnodup⟩ := ih h hnew
    exact ⟨by simp, hnodup⟩

theorem compileLayouts_eq {specs : List LayoutSpec} {compiled targets : List CompiledLayoutTarget}
    (h : specs.foldlM compileLayout compiled = .ok targets) (hapart : (texts compiled).Nodup) :
    targets = compiled ++ specs.flatMap LayoutSpec.targets ∧ (texts targets).Nodup ∧
      ∀ spec ∈ specs, ∃ paths, normalizeRoutePaths spec.path = .ok paths := by
  induction specs generalizing compiled with
  | nil =>
    cases h
    exact ⟨by simp, hapart, by simp⟩
  | cons spec specs ih =>
    rw [List.foldlM_cons] at h
    obtain ⟨compiled', hspec, h⟩ := bind_eq_ok.mp h
    rw [compileLayout] at hspec
    cases hpaths : normalizeRoutePaths spec.path with
    | error error =>
      rw [hpaths] at hspec
      cases hspec
    | ok paths =>
      rw [hpaths] at hspec
      obtain ⟨rfl, hnodup⟩ := addTargets_eq hspec hapart
      obtain ⟨rfl, hnodup', hrest⟩ := ih h hnodup
      refine ⟨?_, hnodup', List.forall_mem_cons.mpr ⟨⟨paths, hpaths⟩, hrest⟩⟩
      have htargets : spec.targets = paths.map (⟨·, spec.handler⟩) := by
        rw [LayoutSpec.targets, hpaths]
      rw [List.flatMap_cons, htargets, List.append_assoc]

variable {files : List RouteFile} {name handler : RouteFile → String}
  {targets : List CompiledLayoutTarget}

theorem compileLayoutTargets_perm
    (h : compileLayoutTargets (files.map (layoutSpec name handler)) = .ok targets) :
    targets.Perm (files.flatMap fun file => (layoutPaths file).map (⟨·, handler file⟩)) ∧
      (texts targets).Nodup ∧
      ∀ file ∈ files, ∃ parsed, parseRoutePath (directoryUrlPrefix file) = .ok parsed := by
  obtain ⟨rfl, hnodup, hpaths⟩ := compileLayouts_eq h (List.nodup_nil)
  refine ⟨?_, hnodup, ?_⟩
  · have hperm := (List.perm_insertionSort LayoutSpec.before
      (files.map (layoutSpec name handler))).flatMap_right LayoutSpec.targets
    rw [List.nil_append]
    refine hperm.trans (List.Perm.of_eq ?_)
    rw [List.flatMap_map]
    refine List.flatMap_congr fun file _ => ?_
    rw [LayoutSpec.targets, layoutPaths, layoutSpec]
    cases normalizeRoutePaths (directoryUrlPrefix file) <;> rfl
  · intro file hfile
    obtain ⟨paths, hok⟩ := hpaths (layoutSpec name handler file)
      ((List.mem_insertionSort _).mpr (List.mem_map_of_mem hfile))
    cases hparsed : parseRoutePath (directoryUrlPrefix file) with
    | ok parsed => exact ⟨parsed, rfl⟩
    | error error =>
      change normalizeRoutePaths (directoryUrlPrefix file) = .ok paths at hok
      rw [normalizeRoutePaths, hparsed] at hok
      cases hok

theorem handler_mem_resolve
    (h : compileLayoutTargets (files.map (layoutSpec name handler)) = .ok targets)
    (hroutes : normalizeRoutePaths (filePathToUrl page) = .ok routes) (hroute : route ∈ routes)
    (hfile : file ∈ files) (hreaches : Reaches file page) :
    handler file ∈ resolveLayoutHandlersForRoute route targets := by
  obtain ⟨hperm, -, hparsed⟩ := compileLayoutTargets_perm h
  obtain ⟨⟨parts, catchAll⟩, hfileParsed⟩ := hparsed file hfile
  obtain ⟨hparts, hmatches⟩ := matches_of_reaches hfileParsed hroutes hroute hreaches
  refine List.mem_map.mpr ⟨⟨parts, handler file⟩, ?_, rfl⟩
  rw [List.mem_insertionSort, List.mem_filter]
  refine ⟨hperm.mem_iff.mpr (List.mem_flatMap.mpr ⟨file, hfile, ?_⟩), hmatches⟩
  exact List.mem_map.mpr ⟨parts, hparts, rfl⟩

theorem length_parts {path : Text} {segments : List Text}
    (h : normalizeSegments path segments = .ok (parts, none)) : parts.length = segments.length := by
  induction segments generalizing parts with
  | nil =>
    cases h
    rfl
  | cons segment segments ih =>
    obtain ⟨found, rest, restCatchAll, -, hrest, hcase⟩ := normalizeSegments_cons h
    rcases hcase with ⟨part, -, rfl, rfl⟩ | ⟨name, -, -, hname⟩
    · rw [List.length_cons, List.length_cons, ih hrest]
    · cases hname

/-- No layout matches a route but one the page lies under, and that by one path. -/
def Narrow (files : List RouteFile) (page : RouteFile) (route : Template) : Prop :=
  ∀ file ∈ files, ∀ path ∈ layoutPaths file, layoutMatchesRoutePrefix path route = true →
    Reaches file page ∧ layoutPaths file = [path]

instance : DecidablePred (Reaches · page) := fun file =>
  inferInstanceAs (Decidable (file.dirs <+: page.segments))

def soleTarget (handler : RouteFile → String) (file : RouteFile) : CompiledLayoutTarget :=
  ⟨(layoutPaths file).headD [], handler file⟩

theorem matched_perm
    (h : compileLayoutTargets (files.map (layoutSpec name handler)) = .ok targets)
    (hroutes : normalizeRoutePaths (filePathToUrl page) = .ok routes) (hroute : route ∈ routes)
    (hnarrow : Narrow files page route) :
    (targets.filter fun layout => layoutMatchesRoutePrefix layout.normalizedPath route).Perm
      ((files.filter (Reaches · page)).map (soleTarget handler)) := by
  obtain ⟨hperm, -, hparsed⟩ := compileLayoutTargets_perm h
  refine (hperm.filter _).trans (List.Perm.of_eq ?_)
  clear hperm h
  induction files with
  | nil => rfl
  | cons file files ih =>
    rw [List.forall_mem_cons] at hparsed
    have hrest := ih (fun other hother => hnarrow other (List.mem_cons_of_mem file hother))
      hparsed.2
    have hfile := hnarrow file List.mem_cons_self
    rw [List.flatMap_cons, List.filter_append, hrest]
    by_cases hreaches : Reaches file page
    · obtain ⟨⟨parts, catchAll⟩, hfileParsed⟩ := hparsed.1
      obtain ⟨hparts, hmatches⟩ := matches_of_reaches hfileParsed hroutes hroute hreaches
      have hsole := (hfile parts hparts hmatches).2
      rw [List.filter_cons_of_pos (by simpa using hreaches), List.map_cons, soleTarget, hsole]
      simp [hmatches]
    · have hnone : ((layoutPaths file).map (⟨·, handler file⟩)).filter
          (fun layout : CompiledLayoutTarget =>
            layoutMatchesRoutePrefix layout.normalizedPath route) = [] := by
        rw [List.filter_eq_nil_iff]
        rintro target htarget hmatches
        obtain ⟨path, hpath, rfl⟩ := List.mem_map.mp htarget
        exact hreaches (hfile path hpath hmatches).1
      rw [List.filter_cons_of_neg (by simpa using hreaches), hnone, List.nil_append]

def CompiledLayoutTarget.key (target : CompiledLayoutTarget) : ℕ ×ₗ ℕᵒᵈ ×ₗ Text ×ₗ String :=
  toLex (target.segmentCount, toLex (OrderDual.toDual target.staticSegmentCount,
    toLex (target.normalizedPath.text, target.handlerId)))

theorem CompiledLayoutTarget.before_iff (left right : CompiledLayoutTarget) :
    left.before right ↔ left.key ≤ right.key := by
  simp only [before, key, Prod.Lex.toLex_le_toLex, OrderDual.toDual_lt_toDual,
    OrderDual.toDual_inj]

theorem CompiledLayoutTarget.pairwise_sorted (compiled : List CompiledLayoutTarget) :
    (compiled.insertionSort CompiledLayoutTarget.before).Pairwise fun left right =>
      left.segmentCount ≤ right.segmentCount := by
  have : Std.Total CompiledLayoutTarget.before :=
    ⟨fun a b => by simpa only [before_iff] using le_total a.key b.key⟩
  have : IsTrans CompiledLayoutTarget CompiledLayoutTarget.before :=
    ⟨fun a b c => by simpa only [before_iff] using le_trans⟩
  refine (List.pairwise_insertionSort CompiledLayoutTarget.before compiled).imp ?_
  rintro a b (hless | ⟨hsame, -⟩)
  · exact hless.le
  · exact hsame.le

theorem layoutsForRoute_perm (files : List RouteFile) (page : RouteFile) :
    (layoutsForRoute (filePathToUrl page) (files.map discoverLayout)).Perm
      (files.filter (Reaches · page)) := by
  refine ((List.perm_insertionSort _ _).map DiscoveredLayout.source).trans (List.Perm.of_eq ?_)
  rw [List.filter_map, List.map_map]
  change List.map (fun file : RouteFile => file) _ = _
  rw [List.map_id']
  refine List.filter_congr fun file _ => ?_
  rw [Bool.eq_iff_iff, decide_eq_true_iff]
  exact urlPrefixCovers_iff file.plain_dirs page.plain_segments

theorem resolve_eq_of_narrow
    (h : compileLayoutTargets (files.map (layoutSpec name handler)) = .ok targets)
    (hroutes : normalizeRoutePaths (filePathToUrl page) = .ok routes) (hroute : route ∈ routes)
    (hnarrow : Narrow files page route) : resolveLayoutHandlersForRoute route targets =
      (layoutsForRoute (filePathToUrl page) (files.map discoverLayout)).map handler := by
  obtain ⟨-, hapart, hparsed⟩ := compileLayoutTargets_perm h
  have hmatched := matched_perm h hroutes hroute hnarrow
  generalize hchain : layoutsForRoute (filePathToUrl page) (files.map discoverLayout) = chain
  have hperm : (targets.filter fun layout =>
      layoutMatchesRoutePrefix layout.normalizedPath route).Perm (chain.map (soleTarget handler)) :=
    hmatched.trans (hchain ▸ ((layoutsForRoute_perm files page).map (soleTarget handler)).symm)
  -- the chain has no two files of one directory: their paths would be seen twice
  have htexts : (texts (chain.map (soleTarget handler))).Nodup := by
    have hsub : (texts (targets.filter fun layout =>
        layoutMatchesRoutePrefix layout.normalizedPath route)).Nodup :=
      hapart.sublist (List.filter_sublist.map _)
    exact (hperm.map _).nodup_iff.mp hsub
  have hcount : ∀ file ∈ chain, (soleTarget handler file).segmentCount = file.dirs.length := by
    intro file hfile
    obtain ⟨hin, hreaches⟩ := (mem_layoutsForRoute files page file).mp (hchain ▸ hfile)
    obtain ⟨⟨parts, catchAll⟩, hfileParsed⟩ := hparsed file hin
    obtain ⟨hparts, hmatches⟩ := matches_of_reaches hfileParsed hroutes hroute hreaches
    have hsole := (hnarrow file hin parts hparts hmatches).2
    cases catchAll with
    | some name =>
      rw [layoutPaths_eq hfileParsed] at hsole
      cases hsole
    | none =>
      rw [CompiledLayoutTarget.segmentCount, soleTarget, hsole]
      exact length_parts (parseRoutePath_join file.plain_dirs hfileParsed)
  have hstrict : (chain.map (soleTarget handler)).Pairwise fun left right =>
      left.segmentCount < right.segmentCount := by
    rw [List.pairwise_map]
    have hnested := hchain ▸ outermostFirst_layoutsForRoute files page
    have hdistinct : chain.Pairwise fun a b => a.dirs ≠ b.dirs := by
      rw [texts, List.map_map, List.nodup_iff_pairwise_ne, List.pairwise_map] at htexts
      refine htexts.imp fun {a b} hne hdirs => hne ?_
      have hpaths : layoutPaths a = layoutPaths b := by
        rw [layoutPaths, layoutPaths, directoryUrlPrefix, directoryUrlPrefix, hdirs]
      simp only [Function.comp_apply, soleTarget, hpaths]
    refine (hnested.and hdistinct).imp_of_mem ?_
    rintro a b ha hb ⟨hout, hne⟩
    rw [hcount a ha, hcount b hb]
    exact lt_of_le_of_ne hout.length_le fun hlength => hne (hout.eq_of_length hlength)
  have hdiffer : (chain.map (soleTarget handler)).Pairwise fun left right =>
      left.segmentCount ≠ right.segmentCount := hstrict.imp fun h => h.ne
  have hsorted := CompiledLayoutTarget.pairwise_sorted (targets.filter fun layout =>
    layoutMatchesRoutePrefix layout.normalizedPath route)
  have hsame := ((List.perm_insertionSort CompiledLayoutTarget.before _).trans hperm).eq_of_pairwise
    (fun a b ha hb hab hba => by
      by_contra hne
      have hin := ((List.perm_insertionSort CompiledLayoutTarget.before _).trans
        hperm).mem_iff.mp ha
      have hsymm : Std.Symm fun left right : CompiledLayoutTarget =>
          left.segmentCount ≠ right.segmentCount := ⟨fun _ _ h => h.symm⟩
      exact hdiffer.forall hin hb hne (le_antisymm hab hba)) hsorted (hstrict.imp fun h => h.le)
  rw [resolveLayoutHandlersForRoute, hsame, List.map_map]
  rfl

/-- What discovery gives a page: the layouts whose directory its URL lies under, from the outermost
on, each once. -/
structure IsChain (files : List RouteFile) (page : RouteFile) (chain : List RouteFile) : Prop where
  mem : ∀ layout, layout ∈ chain ↔ layout ∈ files ∧ layout.dirs <+: page.segments
  outermostFirst : OutermostFirst chain
  nodup : files.Nodup → chain.Nodup

/-- What the server wraps a route of a page in, next to a chain: all of it, and nothing else where
the layouts are narrow. -/
structure Wraps (files : List RouteFile) (handler : RouteFile → String) (page : RouteFile)
    (chain : List RouteFile) (route : Template) (wrapped : List String) : Prop where
  all : ∀ layout ∈ chain, handler layout ∈ wrapped
  exact_of_narrow : Narrow files page route → wrapped = chain.map handler

/-- `blog/layout.tsx`, beside `blog.tsx`. -/
def blogLayout : RouteFile :=
  ⟨["blog".toList], "layout".toList, "tsx".toList, by decide⟩

def blogPage : RouteFile := ⟨[], "blog".toList, "tsx".toList, by decide⟩

/-- `users/[id]/layout.tsx`, beside `users/settings.tsx`. -/
def userLayout : RouteFile :=
  ⟨["users".toList, "[id]".toList], "layout".toList, "tsx".toList, by decide⟩

def settingsPage : RouteFile := ⟨["users".toList], "settings".toList, "tsx".toList, by decide⟩

end Albedo.Routing
