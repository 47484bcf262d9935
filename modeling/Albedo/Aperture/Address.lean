import Albedo.Aperture.Credential
import Albedo.Library.Ascii
import Albedo.Library.Holes
import Mathlib.Data.List.Flatten

/-!
# Where the parameters of a request stand in its address

A route's template is appended to the text of its base, and what a browser reads in the result is
decided by the template: where its segments, its query and its fragment begin, and which of its
segments are dots. A key has no character that decides any of it, but it can complete an escaped dot
that a template spells in part.
-/
namespace Albedo.Aperture
open Broadcast Fallible Holes Percent WhatwgUrl

variable {Host : Type}

/-- A text in which the parameters of a request stand. -/
abbrev Template := List (Piece Char String)

def PathSegment.pieces : PathSegment → Template
  | .literal text => text.toList.map .char
  | .param name => [.hole name]

def template (segments : List PathSegment) : Template := segments.flatMap PathSegment.pieces

def key (param : String → Option String) (name : String) : List Char :=
  ((param name).getD "").toList

def Keys (value : String → List Char) (t : Template) : Prop :=
  ∀ name ∈ holes t, isValidPartitionKey (String.ofList (value name)) = true

theorem Keys.sublist {value : String → List Char} {t rest : Template} (h : Keys value t)
    (hrest : rest.Sublist t) : Keys value rest := fun name hname =>
  h name ((holes_sublist hrest).subset hname)

theorem Keys.value_ne_nil {value : String → List Char} {t : Template} (h : Keys value t) :
    ∀ name ∈ holes t, value name ≠ [] := by
  intro name hname hnil
  have hkey := h name hname
  rw [hnil] at hkey
  cases hkey

theorem Keys.clear {value : String → List Char} {t : Template} (h : Keys value t)
    {p : Char → Bool} (hp : ∀ c, p c = true → c.isAlphanum = false ∧ c ≠ '_' ∧ c ≠ '-') :
    Clear value p t := by
  intro name hname c hc
  have hkey := h name hname
  simp only [isValidPartitionKey, Bool.and_eq_true, String.toList_ofList, List.all_eq_true] at hkey
  have hkind := hkey.2 c hc
  by_contra hother
  obtain ⟨halphanum, hlow, hdash⟩ := hp c (by simpa using hother)
  simp [halphanum, hlow, hdash] at hkind

theorem not_key_of_blank {c : Char} (h : isC0OrSpace c = true) :
    c.isAlphanum = false ∧ c ≠ '_' ∧ c ≠ '-' := by
  have hlow : c.toNat ≤ 32 := of_decide_eq_true h
  refine ⟨?_, ?_, ?_⟩
  · by_contra halphanum
    rw [Bool.not_eq_false, Ascii.isAlphanum_iff, Ascii.isAlpha_iff, Ascii.isDigit_iff] at halphanum
    omega
  · rintro rfl
    cases h
  · rintro rfl
    cases h

theorem not_key_of_tab {c : Char} (h : isTabOrNewline c = true) :
    c.isAlphanum = false ∧ c ≠ '_' ∧ c ≠ '-' := by
  simp only [isTabOrNewline, Bool.or_eq_true, decide_eq_true_eq] at h
  rcases h with (rfl | rfl) | rfl <;> decide

theorem not_key_of_slash {c : Char} (h : isSlash c = true) :
    c.isAlphanum = false ∧ c ≠ '_' ∧ c ≠ '-' := by
  simp only [isSlash, Bool.or_eq_true, decide_eq_true_eq] at h
  rcases h with rfl | rfl <;> decide

theorem not_key_of_mark {mark : Char}
    (hmark : mark.isAlphanum = false ∧ mark ≠ '_' ∧ mark ≠ '-') {c : Char}
    (h : decide (c = mark) = true) : c.isAlphanum = false ∧ c ≠ '_' ∧ c ≠ '-' := by
  rw [of_decide_eq_true h]
  exact hmark

/-! ### What a template spells -/

theorem bindSegments_fill {param : String → Option String} {segments : List PathSegment}
    {path : String} {bound : List (String × String)}
    (h : bindSegments param segments = some (path, bound)) :
    path.toList = fill (key param) (template segments) ∧ Keys (key param) (template segments) := by
  induction segments generalizing path bound with
  | nil =>
    obtain ⟨rfl, -⟩ := Prod.mk.inj (Option.some.inj h)
    exact ⟨rfl, fun name hname => absurd hname List.not_mem_nil⟩
  | cons segment rest ih =>
    have htemplate : template (segment :: rest) = segment.pieces ++ template rest := rfl
    cases segment with
    | literal text =>
      rw [bindSegments, Option.bind_eq_bind, Option.bind_eq_some_iff] at h
      obtain ⟨⟨path', bound'⟩, htail, heq⟩ := h
      obtain ⟨rfl, -⟩ := Prod.mk.inj (Option.some.inj heq)
      obtain ⟨hpath, hkeys⟩ := ih htail
      have hspelled : ∀ cs : List Char, fill (key param) (cs.map .char) = cs ∧
          holes (cs.map Piece.char : Template) = [] := by
        intro cs
        induction cs with
        | nil => exact ⟨rfl, rfl⟩
        | cons c cs ih => exact ⟨congrArg (c :: ·) ih.1, ih.2⟩
      rw [htemplate, PathSegment.pieces]
      refine ⟨?_, ?_⟩
      · rw [fill_append, (hspelled text.toList).1, String.toList_append, hpath]
      · intro name hname
        rw [holes, List.filterMap_append, ← holes, ← holes, (hspelled text.toList).2] at hname
        exact hkeys name hname
    | param name =>
      simp only [bindSegments, Option.bind_eq_bind, Option.bind_eq_some_iff] at h
      obtain ⟨value, hvalue, _, hguard, ⟨path', bound'⟩, htail, heq⟩ := h
      obtain ⟨rfl, -⟩ := Prod.mk.inj (Option.some.inj heq)
      obtain ⟨hpath, hkeys⟩ := ih htail
      have hkey : key param name = value.toList := by rw [key, hvalue]; rfl
      rw [htemplate, PathSegment.pieces]
      refine ⟨?_, ?_⟩
      · rw [List.singleton_append, fill_cons, Piece.spell, hkey, String.toList_append, hpath]
      · intro other hother
        rcases List.mem_cons.mp hother with rfl | hother
        · rw [hkey, String.ofList_toList]
          by_contra hinvalid
          rw [guard, if_neg hinvalid] at hguard
          cases hguard
        · exact hkeys other hother

theorem lowerSegments_names {source route : String} {rest : List Char}
    {segments : List PathSegment} {params : List String} {lowered : List PathSegment × List String}
    (h : lowerSegments source route segments params rest = .ok lowered)
    (hnames : holes (template segments) = params) (hparams : params.Nodup) :
    (holes (template lowered.1)).Nodup := by
  have hliteral : ∀ text : List Char, holes (template (literalSegment text)) = [] := by
    intro text
    rw [literalSegment]
    split_ifs
    · rfl
    · simp [template, PathSegment.pieces, holes, Piece.name?]
  have happend : ∀ first second : List PathSegment,
      holes (template (first ++ second)) = holes (template first) ++ holes (template second) := by
    intro first second
    rw [template, List.flatMap_append, holes, List.filterMap_append]
    rfl
  fun_induction lowerSegments source route segments params rest with
  | case1 segments params rest hopen hclosed => cases h
  | case2 segments params rest hopen hclosed =>
    obtain rfl := Except.ok.inj h
    rw [happend, hliteral, List.append_nil, hnames]
    exact hparams
  | case3 => cases h
  | case4 => cases h
  | case5 => cases h
  | case6 => cases h
  | case7 segments params rest literal after hopen name rest' hclose hempty hplaceholder hfresh
      ih =>
    refine ih h ?_ ?_
    · rw [happend, happend, hliteral, List.append_nil, hnames]
      rfl
    · exact hparams.append (List.nodup_singleton _)
        (List.disjoint_singleton.mpr hfresh)

theorem lowerPath_names {source route path : String} {segments : List PathSegment}
    {params : List String} (h : lowerPath source route path = .ok (segments, params)) :
    (holes (template segments)).Nodup := by
  unfold lowerPath at h
  split_ifs at h
  exact lowerSegments_names h rfl List.nodup_nil

theorem lowerSegments_head {source route : String} {rest : List Char}
    {segments : List PathSegment} {params : List String} {lowered : List PathSegment × List String}
    (h : lowerSegments source route segments params rest = .ok lowered)
    (hhead : (template segments).head? = some (.char '/') ∨
      segments = [] ∧ rest.head? = some '/') :
    (template lowered.1).head? = some (.char '/') := by
  have hgo : ∀ (first second : List PathSegment), (template first).head? = some (.char '/') →
      (template (first ++ second)).head? = some (.char '/') := by
    intro first second hfirst
    obtain ⟨others, hothers⟩ := List.head?_eq_some_iff.mp hfirst
    rw [template, List.flatMap_append, ← template, hothers]
    rfl
  have hliteral : ∀ text : List Char, text.head? = some '/' →
      (template (literalSegment text)).head? = some (.char '/') := by
    intro text htext
    obtain ⟨others, rfl⟩ := List.head?_eq_some_iff.mp htext
    simp [literalSegment, template, PathSegment.pieces]
  fun_induction lowerSegments source route segments params rest with
  | case1 segments params rest hopen hclosed => cases h
  | case2 segments params rest hopen hclosed =>
    obtain rfl := Except.ok.inj h
    rcases hhead with hhead | ⟨rfl, hhead⟩
    · exact hgo _ _ hhead
    · exact hliteral rest hhead
  | case3 => cases h
  | case4 => cases h
  | case5 => cases h
  | case6 => cases h
  | case7 segments params rest literal after hopen name rest' hclose hempty hplaceholder hfresh
      ih =>
    refine ih h (Or.inl ?_)
    rcases hhead with hhead | ⟨rfl, hhead⟩
    · exact hgo _ _ (hgo _ _ hhead)
    · refine hgo _ _ (hliteral literal ?_)
      obtain ⟨rfl, -⟩ := Separator.eq_append_of_splitOnce hopen
      cases literal with
      | nil => cases hhead
      | cons c literal => exact hhead

theorem lowerPath_head {source route path : String} {segments : List PathSegment}
    {params : List String} (h : lowerPath source route path = .ok (segments, params)) :
    (template segments).head? = some (.char '/') := by
  unfold lowerPath at h
  split_ifs at h with hslash
  exact lowerSegments_head h (Or.inr ⟨rfl, not_not.mp hslash⟩)

/-! ### What a browser reads -/

def spelled (segments : List PathSegment) : Template :=
  (((template segments).rdropWhile (Piece.is isC0OrSpace)).filter fun piece =>
    !piece.is isTabOrNewline).tail

def beforeMark (mark : Char) (t : Template) : Template :=
  t.takeWhile fun piece => !piece.is fun c => c = mark

def afterMark (mark : Char) (t : Template) : Option Template :=
  (t.dropWhile fun piece => !piece.is fun c => c = mark).tail?

def pathPieces (t : Template) : List Template :=
  (beforeMark '?' (beforeMark '#' t)).splitOnP (Piece.is isSlash)

def queryPieces (t : Template) : Option Template := afterMark '?' (beforeMark '#' t)

theorem spelled_sublist (segments : List PathSegment) :
    (spelled segments).Sublist (template segments) :=
  (List.tail_sublist _).trans
    (List.filter_sublist.trans (List.rdropWhile_prefix _ _).sublist)

theorem cleanRight_fill {value : String → List Char} {segments : List PathSegment}
    (hkeys : Keys value (template segments))
    (hhead : (template segments).head? = some (.char '/')) :
    cleanRight (fill value (template segments)) = '/' :: fill value (spelled segments) := by
  obtain ⟨rest, hrest⟩ := List.head?_eq_some_iff.mp hhead
  have hsublist := (List.rdropWhile_prefix (Piece.is isC0OrSpace) (template segments)).sublist
  unfold cleanRight
  rw [rdropWhile_fill (hkeys.clear fun c => not_key_of_blank) hkeys.value_ne_nil,
    filter_fill ((hkeys.sublist hsublist).clear fun c => not_key_of_tab)]
  obtain ⟨kept, hkept⟩ : ∃ kept,
      (template segments).rdropWhile (Piece.is isC0OrSpace) = .char '/' :: kept := by
    obtain ⟨dropped, hdropped⟩ := List.rdropWhile_prefix (Piece.is isC0OrSpace) (template segments)
    cases hdrop : (template segments).rdropWhile (Piece.is isC0OrSpace) with
    | nil =>
      have hblank := List.rdropWhile_eq_nil_iff.mp hdrop (.char '/')
        (hrest ▸ List.mem_cons_self)
      cases hblank
    | cons piece kept =>
      rw [hdrop, hrest] at hdropped
      rw [(List.cons.inj hdropped).1]
      exact ⟨kept, rfl⟩
  unfold spelled
  rw [hkept]
  rfl

theorem cut_eq (mark : Char) (text : List Char) :
    cut mark text = (text.takeWhile fun c => !decide (c = mark),
      (text.dropWhile fun c => !decide (c = mark)).tail?) := by
  induction text with
  | nil => rfl
  | cons c text ih =>
    unfold cut at ih ⊢
    rw [Separator.splitOnce]
    by_cases hc : c = mark
    · rw [if_pos hc]
      simp [hc]
    · rw [if_neg hc, List.takeWhile_cons_of_pos (by simpa using hc),
        List.dropWhile_cons_of_pos (by simpa using hc)]
      cases hsplit : Separator.splitOnce mark text with
      | none =>
        rw [hsplit] at ih
        exact Prod.ext (congrArg (c :: ·) (Prod.mk.inj ih).1) (Prod.mk.inj ih).2
      | some parts =>
        rw [hsplit] at ih
        exact Prod.ext (congrArg (c :: ·) (Prod.mk.inj ih).1) (Prod.mk.inj ih).2

theorem cut_fill {value : String → List Char} {t : Template} (hkeys : Keys value t) {mark : Char}
    (hmark : mark.isAlphanum = false ∧ mark ≠ '_' ∧ mark ≠ '-') :
    cut mark (fill value t) =
      (fill value (beforeMark mark t), (afterMark mark t).map (fill value)) := by
  have hclear : Clear value (fun c => decide (c = mark)) t :=
    hkeys.clear fun c hc => not_key_of_mark hmark hc
  rw [cut_eq, takeWhile_fill hclear, tail?_fill hclear]
  rfl

theorem withPath_fill {value : String → List Char} {t : Template} (hkeys : Keys value t)
    (url : Url Host) (path : List (List Char)) : url.withPath path (fill value t) =
      { url with
        path := extendPath path ((pathPieces t).map (fill value))
        query := (queryPieces t).map fun query => percentEncode querySafe (fill value query)
        fragment := (afterMark '#' t).map fun fragment =>
          percentEncode fragmentSafe (fill value fragment) } := by
  have hbefore : (beforeMark '#' t).Sublist t := List.takeWhile_sublist _
  have hpath : (beforeMark '?' (beforeMark '#' t)).Sublist t :=
    (List.takeWhile_sublist _).trans hbefore
  unfold Url.withPath
  dsimp only
  rw [cut_fill hkeys (by decide)]
  dsimp only
  rw [cut_fill (hkeys.sublist hbefore) (by decide)]
  dsimp only
  rw [splitOnP_fill ((hkeys.sublist hpath).clear fun c => not_key_of_slash), Option.map_map,
    Option.map_map]
  rfl

/-! ### The form of an address -/

def isDotPiece (segment : Template) : Bool :=
  (holes segment).isEmpty && isSingleDot (fill (fun _ => []) segment)

/-- An address in which the parameters of a request have their places. -/
structure AddressForm where
  ground : List (List Char)
  path : List Template
  query : Option Template
  fragment : Option (List Char)

def addressForm (ground : List (List Char)) (t : Template) : AddressForm where
  ground
  path := dropDots isDotPiece [] (pathPieces t)
  query := queryPieces t
  fragment := (afterMark '#' t).map fun fragment =>
    percentEncode fragmentSafe (fill (fun _ => []) fragment)

def AddressForm.names (form : AddressForm) : List String :=
  form.path.flatMap holes ++ (form.query.map holes).getD []

def AddressForm.fill (form : AddressForm) (base : Url Host) (value : String → List Char) :
    Url Host :=
  { base with
    path := form.ground ++ form.path.map fun segment =>
      percentEncode pathSafe (Holes.fill value segment)
    query := form.query.map fun query => percentEncode querySafe (Holes.fill value query)
    fragment := form.fragment }

theorem flatMap_holes_splitOnP (p : Char → Bool) (t : Template) :
    (t.splitOnP (Piece.is p)).flatMap holes = holes t := by
  induction t with
  | nil => rfl
  | cons piece t ih =>
    obtain ⟨first, others, hsplit⟩ :=
      List.exists_cons_of_ne_nil (List.splitOnP_ne_nil (Piece.is p) t)
    rw [hsplit, List.flatMap_cons] at ih
    rw [List.splitOnP_cons_eq_if_modifyHead, hsplit]
    cases piece with
    | char c =>
      split_ifs
      · exact ih
      · exact ih
    | hole name =>
      rw [if_neg (show ¬ (Piece.hole name : Piece Char String).is p = true from
        Bool.false_ne_true)]
      exact congrArg (name :: ·) ih

theorem names_addressForm (ground : List (List Char)) (t : Template) :
    (addressForm ground t).names.Sublist (holes t) := by
  have hpath : ((dropDots isDotPiece [] (pathPieces t)).flatMap holes).Sublist
      (holes (beforeMark '?' (beforeMark '#' t))) := by
    obtain ⟨kept, hsublist, hkept⟩ := dropDots_sublist isDotPiece [] (pathPieces t)
    have hall : (dropDots isDotPiece [] (pathPieces t)).flatMap holes = kept.flatMap holes := by
      rcases hkept with hkept | hkept
      · rw [hkept]
      · rw [hkept, List.flatMap_append, List.flatMap_singleton]
        exact List.append_nil _
    rw [hall, ← flatMap_holes_splitOnP isSlash]
    exact hsublist.flatMap holes
  have hquery : ((queryPieces t).map holes).getD [] <:+
      holes ((beforeMark '#' t).dropWhile fun piece => !piece.is fun c => c = '?') := by
    unfold queryPieces afterMark
    cases (beforeMark '#' t).dropWhile fun piece => !piece.is fun c => c = '?' with
    | nil => exact List.suffix_rfl
    | cons piece rest =>
      cases piece with
      | char c => exact List.suffix_rfl
      | hole name => exact List.suffix_cons name _
  have hwhole : holes (beforeMark '?' (beforeMark '#' t)) ++
      holes ((beforeMark '#' t).dropWhile fun piece => !piece.is fun c => c = '?') =
        holes (beforeMark '#' t) := by
    unfold holes
    rw [← List.filterMap_append]
    exact congrArg _ List.takeWhile_append_dropWhile
  refine (hpath.append hquery.sublist).trans ?_
  rw [hwhole]
  exact holes_sublist (List.takeWhile_sublist _)

/-! ### Confinement -/

/-- No key makes a dot of a segment of the path, none of whose segments is two dots, and no key
stands behind a hash sign. -/
structure Settled (segments : List PathSegment) : Prop where
  no_way_up : ∀ segment ∈ pathPieces (spelled segments), ∀ value, Keys value segment →
    isDoubleDot (fill value segment) = false
  no_dot : ∀ segment ∈ pathPieces (spelled segments), holes segment ≠ [] →
    ∀ value, Keys value segment → isSingleDot (fill value segment) = false
  no_fragment : ∀ fragment ∈ afterMark '#' (spelled segments), holes fragment = []

/-- The addresses of a route are of one form: on the origin of the base, in its path, and with one
place for each parameter, in a segment of the path or in the query. -/
def Confined (reader : UrlReader Host) (base : Url Host) (r : SourceRoute) : Prop :=
  ∃ form : AddressForm, form.names.Nodup ∧ trimmed base.path <+: form.ground ∧
    ∀ param resolved, r.resolve param = some resolved →
      parse reader.parseHost resolved.url.toList = some (.url (form.fill base (key param)))

theorem mem_pathPieces {t segment : Template} (h : segment ∈ pathPieces t) :
    (holes segment).Sublist (holes t) := by
  have hpart : (holes segment).Sublist ((pathPieces t).flatMap holes) :=
    List.sublist_flatten_of_mem (List.mem_map_of_mem h)
  rw [pathPieces, flatMap_holes_splitOnP] at hpart
  exact hpart.trans (holes_sublist ((List.takeWhile_sublist _).trans (List.takeWhile_sublist _)))

theorem withPath_form {segments : List PathSegment} (h : Settled segments)
    {value : String → List Char} (hkeys : Keys value (template segments)) (url : Url Host)
    (ground : List (List Char)) : url.withPath ground (fill value (spelled segments)) =
      (addressForm ground (spelled segments)).fill url value := by
  have hspelled := hkeys.sublist (spelled_sublist segments)
  have hsegment : ∀ segment ∈ pathPieces (spelled segments), Keys value segment :=
    fun segment hmem name hname => hspelled name ((mem_pathPieces hmem).subset hname)
  have hup : ∀ segment ∈ (pathPieces (spelled segments)).map (fill value),
      isDoubleDot segment = false := by
    intro segment hmem
    obtain ⟨piece, hpiece, rfl⟩ := List.mem_map.mp hmem
    exact h.no_way_up piece hpiece value (hsegment piece hpiece)
  have hdots : dropDots isSingleDot [] ((pathPieces (spelled segments)).map (fill value)) =
      (dropDots isDotPiece [] (pathPieces (spelled segments))).map (fill value) := by
    refine dropDots_map (fill value) ([] : Template) fun piece hpiece => ?_
    unfold isDotPiece
    by_cases hnone : holes piece = []
    · rw [fill_eq_of_no_holes hnone value fun _ => [], hnone]
      rfl
    · rw [h.no_dot piece hpiece hnone value (hsegment piece hpiece),
        List.isEmpty_eq_false_iff.mpr hnone]
      rfl
  rw [withPath_fill hspelled, extendPath_eq ground hup, hdots, List.map_map]
  unfold AddressForm.fill addressForm
  congr 1
  cases hfragment : afterMark '#' (spelled segments) with
  | none => rfl
  | some fragment =>
    have hsame := fill_eq_of_no_holes (h.no_fragment fragment hfragment) value fun _ => []
    exact congrArg (fun text => some (percentEncode fragmentSafe text)) hsame

theorem confined_of_settled {reader : UrlReader Host}
    {declarations : List (String × CredentialDecl)} {r : SourceRoute} {declared : String}
    {url : Url Host} (hroute : IsRoute reader declarations r declared url)
    (hend : EndsOpen declared.toList) (hsettled : Settled r.segments) :
    Confined reader url r := by
  obtain ⟨host, hbase⟩ := hroute.base
  obtain ⟨decl, -, -, route, -, hpath⟩ := hroute.source
  obtain ⟨ground, hground, hextend⟩ :=
    parse_extend hbase.parsed hbase.no_query hbase.no_fragment hend
  refine ⟨addressForm ground (spelled r.segments), ?_, ?_, ?_⟩
  · exact (lowerPath_names hpath).sublist
      ((names_addressForm _ _).trans (holes_sublist (spelled_sublist _)))
  · rw [← hground]
    exact List.rdropWhile_prefix _ _
  · intro param resolved hresolved
    simp only [SourceRoute.resolve, Option.bind_eq_bind, Option.bind_eq_some_iff] at hresolved
    obtain ⟨⟨text, bound⟩, hbind, topic, -, heq⟩ := hresolved
    obtain rfl := Option.some.inj heq
    obtain ⟨htext, hkeys⟩ := bindSegments_fill hbind
    rw [String.toList_append, hbase.text, String.toList_ofList, htext,
      hextend _ _ (cleanRight_fill hkeys (lowerPath_head hpath)), withPath_form hsettled hkeys]

theorem mem_fill {value : String → List Char} {t : Template} {c : Char}
    (h : c ∈ fill value t) : .char c ∈ t ∨ ∃ name ∈ holes t, c ∈ value name := by
  obtain ⟨piece, hpiece, hc⟩ := List.mem_flatMap.mp h
  cases piece with
  | char d =>
    rw [List.mem_singleton.mp hc]
    exact Or.inl hpiece
  | hole name => exact Or.inr ⟨name, List.mem_filterMap.mpr ⟨_, hpiece, rfl⟩, hc⟩

theorem not_dots {segment : Template} (hdot : .char '.' ∉ segment) (hpercent : .char '%' ∉ segment)
    {value : String → List Char} (hkeys : Keys value segment) :
    isDoubleDot (fill value segment) = false ∧ isSingleDot (fill value segment) = false := by
  have hfree : ∀ c, (c = '.' ∨ c = '%') → c ∉ (fill value segment).map Char.toLower := by
    intro c hc hmem
    obtain ⟨d, hd, rfl⟩ := List.mem_map.mp hmem
    have hsame : d = '.' ∨ d = '%' := by
      rcases hc with hc | hc
      · exact Or.inl (Ascii.eq_of_toLower hc (by decide))
      · exact Or.inr (Ascii.eq_of_toLower hc (by decide))
    rcases mem_fill hd with hchar | ⟨name, hname, hvalue⟩
    · rcases hsame with rfl | rfl
      · exact hdot hchar
      · exact hpercent hchar
    · have hclear := hkeys.clear (p := fun c => c = '.' || c = '%') (by
        intro c hc
        simp only [Bool.or_eq_true, decide_eq_true_eq] at hc
        rcases hc with rfl | rfl <;> decide) name hname d hvalue
      rcases hsame with rfl | rfl <;> cases hclear
  constructor
  · by_contra hdots
    rw [Bool.not_eq_false, isDoubleDot, decide_eq_true_eq] at hdots
    simp only [List.mem_cons, List.not_mem_nil, or_false] at hdots
    rcases hdots with heq | heq | heq | heq
    · exact hfree '.' (Or.inl rfl) (by rw [heq]; decide)
    · exact hfree '.' (Or.inl rfl) (by rw [heq]; decide)
    · exact hfree '.' (Or.inl rfl) (by rw [heq]; decide)
    · exact hfree '%' (Or.inr rfl) (by rw [heq]; decide)
  · by_contra hdots
    rw [Bool.not_eq_false, isSingleDot, decide_eq_true_eq] at hdots
    simp only [List.mem_cons, List.not_mem_nil, or_false] at hdots
    rcases hdots with heq | heq
    · exact hfree '.' (Or.inl rfl) (by rw [heq]; decide)
    · exact hfree '%' (Or.inr rfl) (by rw [heq]; decide)

theorem mem_of_mem_splitOnP {α : Type*} {p : α → Bool} {l part : List α} {a : α}
    (hpart : part ∈ l.splitOnP p) (ha : a ∈ part) : a ∈ l := by
  induction l generalizing part with
  | nil =>
    obtain rfl : part = [] := by simpa using hpart
    exact ha
  | cons b l ih =>
    obtain ⟨first, others, hsplit⟩ := List.exists_cons_of_ne_nil (List.splitOnP_ne_nil p l)
    rw [List.splitOnP_cons_eq_if_modifyHead, hsplit] at hpart
    rw [hsplit] at ih
    split_ifs at hpart
    · rcases List.mem_cons.mp hpart with rfl | hpart
      · exact absurd ha List.not_mem_nil
      · exact List.mem_cons_of_mem b (ih hpart ha)
    · rcases List.mem_cons.mp hpart with rfl | hpart
      · rcases List.mem_cons.mp ha with rfl | ha
        · exact List.mem_cons_self
        · exact List.mem_cons_of_mem b (ih List.mem_cons_self ha)
      · exact List.mem_cons_of_mem b (ih (List.mem_cons_of_mem first hpart) ha)

theorem settled_of_plain {segments : List PathSegment} (hdot : .char '.' ∉ template segments)
    (hpercent : .char '%' ∉ template segments) (hhash : .char '#' ∉ template segments) :
    Settled segments := by
  have hpiece : ∀ c, .char c ∉ template segments → ∀ segment ∈ pathPieces (spelled segments),
      .char c ∉ segment := by
    intro c hc segment hsegment hmem
    have hpath := ((List.takeWhile_sublist _).trans (List.takeWhile_sublist _)).subset
      (mem_of_mem_splitOnP hsegment hmem)
    exact hc ((spelled_sublist segments).subset hpath)
  have hdots : ∀ segment ∈ pathPieces (spelled segments), ∀ value, Keys value segment →
      isDoubleDot (fill value segment) = false ∧ isSingleDot (fill value segment) = false :=
    fun segment hsegment value hkeys =>
      not_dots (hpiece '.' hdot segment hsegment) (hpiece '%' hpercent segment hsegment) hkeys
  refine ⟨fun segment hsegment value hkeys => (hdots segment hsegment value hkeys).1,
    fun segment hsegment _ value hkeys => (hdots segment hsegment value hkeys).2, ?_⟩
  have hnone : (spelled segments).dropWhile (fun piece => !piece.is fun c => c = '#') = [] := by
    rw [List.dropWhile_eq_nil_iff]
    intro piece hmem
    cases piece with
    | char c =>
      have hc : c ≠ '#' := by
        rintro rfl
        exact hhash ((spelled_sublist segments).subset hmem)
      simp [Piece.is, hc]
    | hole name => rfl
  intro fragment hfragment
  rw [afterMark, hnone] at hfragment
  cases hfragment

/-! ### What goes on a call -/

/-- The credential that goes on a call is the first of those with the longest base that covers it.
Without one no base covers it. -/
def Attached (reader : UrlReader Host) (credentials : List SourceCredential) (url : Url Host) :
    Prop :=
  match forUrl reader credentials url with
  | some c => Longest (credentials.filter (·.covers reader url)) c
  | none => ∀ c ∈ credentials, c.covers reader url = false

theorem attached (reader : UrlReader Host) (credentials : List SourceCredential)
    (url : Url Host) : Attached reader credentials url := by
  unfold Attached
  cases h : forUrl reader credentials url with
  | none => exact forUrl_eq_none h
  | some c => exact forUrl_eq_some h

/-- Of what is lowered, every route whose base ends open and whose template is settled is confined,
the credentials are those that were declared, and the longest that covers a call goes on it. -/
theorem requests_confined {reader : UrlReader Host} {env : String → Option String}
    {declarations : List (String × CredentialDecl)} {sources : Sources}
    (h : lowerSources reader env declarations = .ok sources) :
    (∀ e ∈ sources.registry.routes, ∃ declared url, IsRoute reader declarations e.2 declared url ∧
      (EndsOpen declared.toList → Settled e.2.segments → Confined reader url e.2)) ∧
      (∀ c, c ∈ sources.credentials ↔ IsCredential reader env declarations c) ∧
      ∀ url, Attached reader sources.credentials url := by
  have hdeclared := lowerSources_declared h
  refine ⟨fun e he => ?_, fun c => ⟨hdeclared.credentials c, lowerSources_complete h⟩,
    attached reader sources.credentials⟩
  obtain ⟨declared, url, hroute⟩ := hdeclared.routes e he
  exact ⟨declared, url, hroute, confined_of_settled hroute⟩

def plainReader : UrlReader (List Char) := ⟨some, id, id⟩

def oneRoute (path : String) : List (String × CredentialDecl) :=
  [("api", { base := "https://x/api", routes := [("read", ⟨path⟩)]
             headers := [("accept", "text/plain")], auth := none })]

theorem exists_lowerSources {path : String} {segments : List PathSegment} {params : List String}
    (hpath : lowerPath "api" "read" path = .ok (segments, params)) :
    ∃ sources r, lowerSources plainReader (fun _ => none) (oneRoute path) = .ok sources ∧
      sources.registry.routes = [("api.read", r)] ∧ r.segments = segments ∧
      r.base = "https://x/api" := by
  let source : Identifier := ⟨"api", by decide⟩
  let r : SourceRoute :=
    ⟨source, ⟨"read", by decide⟩, "https://x/api", segments, params, lowerPath_placeholders hpath⟩
  have hroute : lowerRoute source "https://x/api" "read" ⟨path⟩ = .ok r := by
    refine bind_eq_ok.mpr ⟨⟨"read", by decide⟩, rfl, ?_⟩
    split
    · next error herror =>
      change lowerPath "api" "read" path = _ at herror
      rw [hpath] at herror
      cases herror
    · next segments' params' hok =>
      change lowerPath "api" "read" path = _ at hok
      rw [hpath] at hok
      cases hok
      rfl
  have hroutes : lowerRoutes source "https://x/api" SourceRegistry.empty [("read", ⟨path⟩)] =
      .ok (SourceRegistry.empty.insert r) :=
    bind_eq_ok.mpr ⟨_, bind_eq_ok.mpr ⟨r, hroute, rfl⟩, rfl⟩
  have hbase : lowerBase plainReader "api" "https://x/api" = .ok ("https://x/api", ['x']) := by
    decide +kernel
  let credentials := (credentialOf plainReader "api" "https://x/api" ['x']
    [("accept", "text/plain")]).toList
  have hsource : requireIdentifier "source" "api" = .ok source := rfl
  have hlowered : lowerSources plainReader (fun _ => none) (oneRoute path) =
      .ok ⟨SourceRegistry.empty.insert r, credentials⟩ := by
    refine bind_eq_ok.mpr ⟨_, bind_eq_ok.mpr ⟨source, congrArg lift hsource, ?_⟩, rfl⟩
    refine bind_eq_ok.mpr ⟨("https://x/api", ['x']), congrArg lift hbase, ?_⟩
    refine bind_eq_ok.mpr ⟨(.public, none), rfl, ?_⟩
    exact bind_eq_ok.mpr ⟨SourceRegistry.empty.insert r, congrArg lift hroutes, rfl⟩
  exact ⟨_, r, hlowered, rfl, rfl, rfl⟩

theorem lowerSegments_end {source route : String} {rest : List Char} (segments : List PathSegment)
    (params : List String) (hopen : Separator.splitOnce '\x7b' rest = none)
    (hclosed : '\x7d' ∉ rest) : lowerSegments source route segments params rest =
      .ok (segments ++ literalSegment rest, params) := by
  rw [lowerSegments]
  split
  · rw [if_neg hclosed]
  · next hsome =>
    rw [hopen] at hsome
    cases hsome

theorem lowerPath_plain (source route : String) {path : String}
    (hslash : path.toList.head? = some '/')
    (hsegments : containsText ['/', '/'] path.toList = false)
    (hup : (path.toList.splitOn '/').any (· = ['.', '.']) = false)
    (hopen : Separator.splitOnce '\x7b' path.toList = none) (hclosed : '\x7d' ∉ path.toList) :
    lowerPath source route path = .ok (literalSegment path.toList, []) := by
  unfold lowerPath
  rw [if_neg (not_not.mpr hslash), hsegments, if_neg Bool.false_ne_true, hup,
    if_neg Bool.false_ne_true, lowerSegments_end [] [] hopen hclosed]
  rfl

/-- A route and a header of one source: its calls are confined, and the header goes on them. -/
theorem users_confined : ∃ sources,
    lowerSources plainReader (fun _ => none) (oneRoute "/users") = .ok sources ∧
      (∀ e ∈ sources.registry.routes, ∃ url, Confined plainReader url e.2) ∧
      ∀ url, Attached plainReader sources.credentials url := by
  obtain ⟨sources, r, hsources, hroutes, hsegments, -⟩ := exists_lowerSources
    (lowerPath_plain "api" "read" (by decide : "/users".toList.head? = some '/') (by decide)
      (by decide) (by decide) (by decide))
  obtain ⟨hconfined, -, hattached⟩ := requests_confined hsources
  refine ⟨sources, hsources, fun e he => ?_, hattached⟩
  obtain ⟨declared, url, hroute, hsettled⟩ := hconfined e he
  rw [hroutes, List.mem_singleton] at he
  subst he
  obtain ⟨decl, hdecl, hdeclared, -⟩ := hroute.source
  obtain rfl : decl = (oneRoute "/users")[0].2 := congrArg Prod.snd (List.mem_singleton.mp hdecl)
  subst hdeclared
  refine ⟨url, hsettled ?_ ?_⟩
  · exact Ascii.forall_mem_of_all (by decide +kernel)
  · dsimp only
    rw [hsegments]
    exact settled_of_plain (by decide +kernel) (by decide +kernel) (by decide +kernel)

/-- An escaped way up is no `..` where a template is lowered, and is one in the address. -/
theorem way_up : ∃ sources,
    lowerSources plainReader (fun _ => none) (oneRoute "/%2e%2e/admin") = .ok sources ∧
      ∃ e ∈ sources.registry.routes, ∃ declared url,
        IsRoute plainReader (oneRoute "/%2e%2e/admin") e.2 declared url ∧
        ∃ param resolved, e.2.resolve param = some resolved ∧
          ¬ ∃ named, parse plainReader.parseHost resolved.url.toList = some (.url named) ∧
            trimmed url.path <+: named.path := by
  obtain ⟨sources, r, hsources, hroutes, hsegments, hbase⟩ := exists_lowerSources
    (lowerPath_plain "api" "read" (by decide : "/%2e%2e/admin".toList.head? = some '/')
      (by decide) (by decide) (by decide) (by decide))
  have hr : ("api.read", r) ∈ sources.registry.routes := by
    rw [hroutes]
    exact List.mem_singleton_self _
  obtain ⟨declared, url, hroute⟩ := (lowerSources_declared hsources).routes _ hr
  have hresolve : ∃ resolved, r.resolve (fun _ => none) = some resolved ∧
      resolved.url = "https://x/api/%2e%2e/admin" := by
    unfold SourceRoute.resolve
    rw [hsegments, hbase]
    refine ⟨_, rfl, ?_⟩
    change "https://x/api" ++ (String.ofList "/%2e%2e/admin".toList ++ "") = _
    decide +kernel
  obtain ⟨resolved, hresolved, haddress⟩ := hresolve
  refine ⟨sources, hsources, _, hr, declared, url, hroute, _, resolved, hresolved, ?_⟩
  obtain ⟨decl, hdecl, hdeclared, -⟩ := hroute.source
  obtain rfl : decl = (oneRoute "/%2e%2e/admin")[0].2 :=
    congrArg Prod.snd (List.mem_singleton.mp hdecl)
  subst hdeclared
  obtain ⟨host, hurl⟩ := hroute.base
  have hparsed : parse plainReader.parseHost "https://x/api".toList =
      some (.url ⟨"https".toList, ['x'], none, ["api".toList], none, none⟩) := by
    decide +kernel
  have haway : parse plainReader.parseHost "https://x/api/%2e%2e/admin".toList =
      some (.url ⟨"https".toList, ['x'], none, ["admin".toList], none, none⟩) := by
    decide +kernel
  obtain rfl := Address.url.inj (Option.some.inj (hurl.parsed.symm.trans hparsed))
  rintro ⟨named, hnamed, hwithin⟩
  rw [haddress, haway] at hnamed
  obtain rfl := Address.url.inj (Option.some.inj hnamed)
  revert hwithin
  decide +kernel

end Albedo.Aperture
