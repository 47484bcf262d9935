import Albedo.Library.WhatwgUrl

/-!
# URLs that go on from another

An absolute URL without a query and a fragment can be gone on from: a path that is written after it,
once the slashes at its end are dropped, is read in the directory that it names, and its scheme, its
host and its port stay.
-/
namespace Albedo.WhatwgUrl
open Percent Separator

variable {Host : Type} {parseHost : List Char → Option Host}

def parse (parseHost : List Char → Option Host) (input : List Char) : Option (Address Host) :=
  match scheme? (clean input) with
  | none => none
  | some (scheme, rest) =>
      if (defaultPort scheme).isSome then
        (withAuthority parseHost scheme (rest.dropWhile isSlash)).map .url
      else some (.other scheme rest)

/-! ### Dot segments -/

def descend (path : List (List Char)) : List (List Char) → List (List Char)
  | [] => path
  | segment :: segments =>
      if isDoubleDot segment then descend path.dropLast segments
      else if isSingleDot segment then descend path segments
      else descend (path ++ [percentEncode pathSafe segment]) segments

theorem descend_singleton (path : List (List Char)) (segment : List Char) :
    descend path [segment] = if isDoubleDot segment then path.dropLast
      else if isSingleDot segment then path else path ++ [percentEncode pathSafe segment] := rfl

theorem descend_cons (path : List (List Char)) (segment : List Char)
    (segments : List (List Char)) :
    descend path (segment :: segments) = descend (descend path [segment]) segments := by
  rw [descend_singleton, descend]
  split_ifs <;> rfl

theorem extendPath_cons (path : List (List Char)) (segment : List Char) {rest : List (List Char)}
    (h : rest ≠ []) :
    extendPath path (segment :: rest) = extendPath (descend path [segment]) rest := by
  cases rest with
  | nil => exact absurd rfl h
  | cons next rest =>
    rw [extendPath]
    · rw [descend_singleton]
      split_ifs <;> rfl
    · exact List.cons_ne_nil next rest

theorem extendPath_append (path : List (List Char)) (segments : List (List Char))
    {rest : List (List Char)} (h : rest ≠ []) :
    extendPath path (segments ++ rest) = extendPath (descend path segments) rest := by
  induction segments generalizing path with
  | nil => rfl
  | cons segment segments ih =>
    rw [List.cons_append, extendPath_cons path segment (by simp [h]), ih, ← descend_cons]

def trimmed (path : List (List Char)) : List (List Char) := path.rdropWhile (· = [])

theorem trimmed_append_nil (path : List (List Char)) : trimmed (path ++ [[]]) = trimmed path :=
  List.rdropWhile_concat_pos _ _ _ rfl

theorem trimmed_append_replicate (path : List (List Char)) (k : ℕ) :
    trimmed (path ++ List.replicate k []) = trimmed path := by
  induction k with
  | zero => rw [List.replicate_zero, List.append_nil]
  | succ k ih => rw [List.replicate_succ', ← List.append_assoc, trimmed_append_nil, ih]

theorem descend_append (path segments rest : List (List Char)) :
    descend path (segments ++ rest) = descend (descend path segments) rest := by
  induction segments generalizing path with
  | nil => rfl
  | cons segment segments ih =>
    rw [List.cons_append, descend_cons, ih, ← descend_cons]

theorem descend_replicate (path : List (List Char)) (k : ℕ) :
    descend path (List.replicate k []) = path ++ List.replicate k [] := by
  induction k generalizing path with
  | zero => exact (List.append_nil path).symm
  | succ k ih =>
    rw [List.replicate_succ]
    exact (ih (path ++ [[]])).trans (List.append_assoc path [[]] _)

/-- What is read as a path and what is gone through differ in empty segments at the end. -/
theorem trimmed_extendPath (path segments : List (List Char)) :
    trimmed (extendPath path segments) = trimmed (descend path segments) := by
  rcases List.eq_nil_or_concat' segments with rfl | ⟨segments, last, rfl⟩
  · rfl
  · rw [extendPath_append path segments (List.cons_ne_nil last []), descend_append,
      descend_singleton]
    unfold extendPath
    split_ifs
    · exact trimmed_append_nil _
    · exact trimmed_append_nil _
    · rfl

def dropDots {β : Type*} (dot : β → Bool) (empty : β) : List β → List β
  | [] => []
  | [last] => if dot last then [empty] else [last]
  | segment :: segments =>
      if dot segment then dropDots dot empty segments
      else segment :: dropDots dot empty segments

theorem dropDots_cons {β : Type*} {dot : β → Bool} {empty : β} (segment : β) {rest : List β}
    (h : rest ≠ []) : dropDots dot empty (segment :: rest) =
      if dot segment then dropDots dot empty rest else segment :: dropDots dot empty rest := by
  rw [dropDots]
  exact h

theorem dropDots_map {β γ : Type*} (f : β → γ) {dot : γ → Bool} {dot' : β → Bool} (empty : β)
    {segments : List β} (h : ∀ segment ∈ segments, dot (f segment) = dot' segment) :
    dropDots dot (f empty) (segments.map f) = (dropDots dot' empty segments).map f := by
  induction segments with
  | nil => rfl
  | cons segment segments ih =>
    have hfirst := h segment List.mem_cons_self
    have hrest := ih fun other hother => h other (List.mem_cons_of_mem segment hother)
    cases segments with
    | nil =>
      rw [List.map_cons, List.map_nil]
      unfold dropDots
      rw [hfirst]
      split_ifs <;> rfl
    | cons next segments =>
      rw [List.map_cons, List.map_cons] at *
      unfold dropDots
      rw [hfirst]
      split_ifs
      · exact hrest
      · rw [List.map_cons, hrest]

theorem dropDots_sublist {β : Type*} (dot : β → Bool) (empty : β) (segments : List β) :
    ∃ kept, kept.Sublist segments ∧
      (dropDots dot empty segments = kept ∨ dropDots dot empty segments = kept ++ [empty]) := by
  induction segments with
  | nil => exact ⟨[], List.Sublist.refl [], Or.inl rfl⟩
  | cons segment segments ih =>
    obtain ⟨kept, hsublist, hkept⟩ := ih
    cases segments with
    | nil =>
      unfold dropDots
      split_ifs
      · exact ⟨[], List.nil_sublist _, Or.inr rfl⟩
      · exact ⟨[segment], List.Sublist.refl _, Or.inl rfl⟩
    | cons next segments =>
      rw [dropDots_cons segment (List.cons_ne_nil next segments)]
      split_ifs
      · exact ⟨kept, hsublist.cons segment, hkept⟩
      · refine ⟨segment :: kept, hsublist.cons_cons segment, ?_⟩
        rcases hkept with hkept | hkept
        · exact Or.inl (by rw [hkept])
        · exact Or.inr (by rw [hkept]; rfl)

theorem extendPath_eq (path : List (List Char)) {segments : List (List Char)}
    (h : ∀ segment ∈ segments, isDoubleDot segment = false) :
    extendPath path segments =
      path ++ (dropDots isSingleDot [] segments).map (percentEncode pathSafe) := by
  induction segments generalizing path with
  | nil => exact (List.append_nil path).symm
  | cons segment segments ih =>
    have hfirst := h segment List.mem_cons_self
    cases segments with
    | nil =>
      unfold extendPath dropDots
      rw [if_neg (by rw [hfirst]; exact Bool.false_ne_true)]
      split_ifs
      · rfl
      · rfl
    | cons next segments =>
      rw [extendPath_cons path segment (List.cons_ne_nil next segments),
        ih _ fun other hother => h other (List.mem_cons_of_mem segment hother),
        dropDots_cons segment (List.cons_ne_nil next segments)]
      rw [descend_singleton, if_neg (by rw [hfirst]; exact Bool.false_ne_true)]
      split_ifs
      · rfl
      · rw [List.map_cons, List.append_assoc, List.singleton_append]

/-! ### Cleaning in two parts -/

section Cleaning

variable {base tail : List Char}

def cleanLeft (text : List Char) : List Char :=
  (text.dropWhile isC0OrSpace).filter fun c => !isTabOrNewline c

def cleanRight (text : List Char) : List Char :=
  (text.rdropWhile isC0OrSpace).filter fun c => !isTabOrNewline c

/-- Of the blanks at the end, only those are dropped that are dropped anywhere. -/
def EndsOpen (text : List Char) : Prop :=
  ∀ c ∈ text.rtakeWhile isC0OrSpace, isTabOrNewline c = true

theorem rdropWhile_append {α : Type*} {p : α → Bool} (l : List α) {rest : List α}
    (h : ∃ a ∈ rest, p a = false) : (l ++ rest).rdropWhile p = l ++ rest.rdropWhile p := by
  obtain ⟨a, ha, hp⟩ := h
  have hstop : (rest.reverse.dropWhile p).isEmpty = false := by
    rw [List.isEmpty_eq_false_iff]
    exact List.ne_nil_of_mem (Trim.mem_dropWhile (List.mem_reverse.mpr ha) hp)
  unfold List.rdropWhile
  rw [List.reverse_append, List.dropWhile_append, hstop, if_neg Bool.false_ne_true,
    List.reverse_append, List.reverse_reverse]

theorem clean_append (hbase : ∃ c ∈ base, isC0OrSpace c = false)
    (htail : ∃ c ∈ tail, isC0OrSpace c = false) :
    clean (base ++ tail) = cleanLeft base ++ cleanRight tail := by
  obtain ⟨c, hc, hblank⟩ := hbase
  have hstop : (base.dropWhile isC0OrSpace).isEmpty = false := by
    rw [List.isEmpty_eq_false_iff]
    exact List.ne_nil_of_mem (Trim.mem_dropWhile hc hblank)
  unfold clean
  rw [List.dropWhile_append, hstop, if_neg Bool.false_ne_true, rdropWhile_append _ htail,
    List.filter_append]
  rfl

theorem mem_rtakeWhile_of_dropWhile {α : Type*} {p : α → Bool} {a : α} {l : List α}
    (h : a ∈ (l.dropWhile p).rtakeWhile p) : a ∈ l.rtakeWhile p := by
  conv => arg 1; arg 2; rw [← List.takeWhile_append_dropWhile (p := p) (l := l)]
  unfold List.rtakeWhile at h ⊢
  rw [List.mem_reverse] at h ⊢
  rw [List.reverse_append, List.takeWhile_append]
  split_ifs
  · exact List.mem_append_left _ ((List.takeWhile_sublist p).subset h)
  · exact h

theorem clean_eq_cleanLeft (h : EndsOpen base) : clean base = cleanLeft base := by
  unfold clean cleanLeft
  conv_rhs => rw [← List.rdropWhile_append_rtakeWhile (p := isC0OrSpace)
    (l := base.dropWhile isC0OrSpace)]
  have hdropped : ((base.dropWhile isC0OrSpace).rtakeWhile isC0OrSpace).filter
      (fun c => !isTabOrNewline c) = [] := by
    rw [List.filter_eq_nil_iff]
    intro c hc
    rw [h c (mem_rtakeWhile_of_dropWhile hc)]
    exact Bool.false_ne_true
  rw [List.filter_append, hdropped, List.append_nil]

theorem cleanRight_slashes (k : ℕ) :
    cleanRight (List.replicate k '/') = List.replicate k '/' := by
  have hlast : (List.replicate k '/').rdropWhile isC0OrSpace = List.replicate k '/' := by
    rw [List.rdropWhile_eq_self_iff]
    intro hne hblank
    rw [List.eq_of_mem_replicate (List.getLast_mem hne)] at hblank
    cases hblank
  unfold cleanRight
  rw [hlast, List.filter_eq_self]
  intro c hc
  rw [List.eq_of_mem_replicate hc]
  rfl

end Cleaning

/-! ### Going on -/

section GoingOn

variable {base tail text more rest scheme : List Char}

theorem takeWhile_of_stop {α : Type*} {p : α → Bool} {l : List α} (h : l.dropWhile p ≠ [])
    (more : List α) :
    (l ++ more).takeWhile p = l.takeWhile p ∧ (l ++ more).dropWhile p = l.dropWhile p ++ more := by
  induction l with
  | nil => exact absurd rfl h
  | cons a l ih =>
    rw [List.cons_append]
    by_cases ha : p a = true
    · rw [List.dropWhile_cons_of_pos ha] at h
      rw [List.takeWhile_cons_of_pos ha, List.takeWhile_cons_of_pos ha,
        List.dropWhile_cons_of_pos ha, List.dropWhile_cons_of_pos ha, (ih h).1]
      exact ⟨rfl, (ih h).2⟩
    · rw [List.takeWhile_cons_of_neg ha, List.takeWhile_cons_of_neg ha,
        List.dropWhile_cons_of_neg ha, List.dropWhile_cons_of_neg ha]
      exact ⟨rfl, rfl⟩

theorem takeWhile_before_stop {α : Type*} {p : α → Bool} (l more : List α)
    (hmore : ∀ a ∈ more.head?, p a = false) :
    (l ++ more).takeWhile p = l.takeWhile p ∧ (l ++ more).dropWhile p = l.dropWhile p ++ more := by
  by_cases h : l.dropWhile p = []
  · have hall : ∀ a ∈ l, p a = true := List.dropWhile_eq_nil_iff.mp h
    have hstop : more.takeWhile p = [] ∧ more.dropWhile p = more := by
      cases more with
      | nil => exact ⟨rfl, rfl⟩
      | cons a more =>
        have ha : ¬ p a = true := by rw [hmore a rfl]; exact Bool.false_ne_true
        exact ⟨List.takeWhile_cons_of_neg ha, List.dropWhile_cons_of_neg ha⟩
    rw [List.takeWhile_append_of_pos hall, List.dropWhile_append_of_pos hall, hstop.1, hstop.2, h,
      List.append_nil, List.takeWhile_eq_self_iff.mpr hall]
    exact ⟨rfl, rfl⟩
  · exact takeWhile_of_stop h more

theorem scheme?_append (h : scheme? text = some (scheme, rest)) (more : List Char) :
    scheme? (text ++ more) = some (scheme, rest ++ more) := by
  cases text with
  | nil => cases h
  | cons c text =>
    unfold scheme? at h
    dsimp only at h
    split_ifs at h with hc
    split at h
    · next after hdrop =>
      cases h
      have hstop := takeWhile_of_stop (p := isSchemeChar) (l := c :: text)
        (by rw [hdrop]; exact List.cons_ne_nil _ _) more
      rw [List.cons_append] at hstop ⊢
      unfold scheme?
      dsimp only
      rw [if_pos hc, hstop.1, hstop.2, hdrop]
      rfl
    · cases h

theorem scheme?_of_append (hmore : ∀ c ∈ more.head?, isSchemeChar c = false ∧ c ≠ ':')
    (h : scheme? (text ++ more) = some (scheme, rest)) :
    ∃ before, scheme? text = some (scheme, before) ∧ rest = before ++ more := by
  obtain ⟨htake, hdrop⟩ := takeWhile_before_stop (p := isSchemeChar) text more
    fun c hc => (hmore c hc).1
  cases text with
  | nil =>
    have hnone : scheme? more = none := scheme?_eq_none fun c hc => by
      have hkind := (hmore c hc).1
      unfold isSchemeChar Char.isAlphanum at hkind
      simp only [Bool.or_eq_false_iff] at hkind
      exact hkind.1.1.1.1
    rw [List.nil_append, hnone] at h
    cases h
  | cons c text =>
    rw [List.cons_append] at h htake hdrop
    unfold scheme? at h ⊢
    dsimp only at h ⊢
    rw [htake, hdrop] at h
    split_ifs at h ⊢ with hc
    cases hbefore : (c :: text).dropWhile isSchemeChar with
    | nil =>
      rw [hbefore, List.nil_append] at h
      split at h
      · next after => exact absurd rfl (hmore ':' rfl).2
      · cases h
    | cons d before =>
      rw [hbefore, List.cons_append] at h
      split at h
      · next after heq =>
        cases heq
        cases h
        exact ⟨before, rfl, rfl⟩
      · cases h

def afterSlash : List Char → List Char
  | c :: rest => if isSlash c then rest else c :: rest
  | [] => []

theorem withAuthority_append (hmore : ∀ c ∈ more.head?, endsAuthority c = true) :
    withAuthority parseHost scheme (text ++ more) =
      (readAuthority parseHost scheme (text.takeWhile fun c => !endsAuthority c)).map fun named =>
        Url.withPath ⟨scheme, named.1, named.2, [], none, none⟩ []
          (afterSlash ((text.dropWhile fun c => !endsAuthority c) ++ more)) := by
  obtain ⟨htake, hdrop⟩ := takeWhile_before_stop (p := fun c => !endsAuthority c) text more
    fun c hc => by rw [hmore c hc]; rfl
  unfold withAuthority
  rw [htake, hdrop]
  cases readAuthority parseHost scheme (text.takeWhile fun c => !endsAuthority c) with
  | none => rfl
  | some named =>
    cases (text.dropWhile fun c => !endsAuthority c) ++ more <;> rfl

theorem cut_append {mark : Char} (h : mark ∉ text) (more : List Char) :
    cut mark (text ++ more) = (text ++ (cut mark more).1, (cut mark more).2) := by
  induction text with
  | nil => rfl
  | cons c text ih =>
    rw [List.mem_cons, not_or] at h
    have hrest := ih h.2
    unfold cut at hrest ⊢
    rw [List.cons_append, splitOnce, if_neg (fun heq => h.1 heq.symm)]
    cases hsplit : splitOnce mark (text ++ more) with
    | none =>
      rw [hsplit] at hrest
      cases hmore : splitOnce mark more with
      | none => rw [hmore] at hrest; rfl
      | some parts => rw [hmore] at hrest; cases (Prod.mk.inj hrest).2
    | some parts =>
      rw [hsplit] at hrest
      cases hmore : splitOnce mark more with
      | none => rw [hmore] at hrest; cases (Prod.mk.inj hrest).2
      | some parts' =>
        rw [hmore] at hrest
        obtain ⟨hfirst, hsecond⟩ := Prod.mk.inj hrest
        exact Prod.ext (congrArg (c :: ·) hfirst) hsecond

theorem cut_snd_eq_none {mark : Char} (h : (cut mark text).2 = none) :
    mark ∉ text ∧ (cut mark text).1 = text := by
  unfold cut at h ⊢
  cases hsplit : splitOnce mark text with
  | some parts => rw [hsplit] at h; cases h
  | none =>
    refine ⟨fun hmem => ?_, rfl⟩
    obtain ⟨before, after, rfl, hbefore⟩ := List.eq_append_cons_of_mem hmem
    rw [splitOnce_append hbefore] at hsplit
    cases hsplit

theorem withPath_append (url : Url Host) (path : List (List Char)) (hhash : '#' ∉ text)
    (hmark : '?' ∉ text) (rest : List Char) : url.withPath path (text ++ '/' :: rest) =
      url.withPath (descend path (text.splitOnP isSlash)) rest := by
  have hcut : ∀ {mark : Char}, mark ∉ text → mark ≠ '/' → ∀ rest, cut mark (text ++ '/' :: rest) =
      (text ++ '/' :: (cut mark rest).1, (cut mark rest).2) := by
    intro mark htext hslash rest
    have hmem : mark ∉ text ++ ['/'] := by simp [htext, hslash]
    have happend := cut_append hmem rest
    rwa [List.append_assoc, List.append_assoc] at happend
  unfold Url.withPath
  dsimp only
  rw [hcut hhash (by decide)]
  dsimp only
  rw [hcut hmark (by decide)]
  dsimp only
  rw [List.splitOnP_append_cons _ _ rfl, extendPath_append path _ (List.splitOnP_ne_nil _ _)]

theorem splitOnP_slashes (text : List Char) (k : ℕ) :
    (text ++ List.replicate k '/').splitOnP isSlash =
      text.splitOnP isSlash ++ List.replicate k [] := by
  induction k generalizing text with
  | zero => rw [List.replicate_zero, List.replicate_zero, List.append_nil, List.append_nil]
  | succ k ih =>
    rw [List.replicate_succ, List.splitOnP_append_cons _ _ rfl]
    have hslashes := ih []
    rw [List.nil_append] at hslashes
    rw [hslashes]
    rfl

theorem path_of_withPath {url : Url Host} {path : List (List Char)}
    (hquery : (url.withPath path text).query = none)
    (hfragment : (url.withPath path text).fragment = none) :
    '#' ∉ text ∧ '?' ∉ text ∧
      (url.withPath path text).path = extendPath path (text.splitOnP isSlash) := by
  unfold Url.withPath at hquery hfragment ⊢
  dsimp only at hquery hfragment ⊢
  obtain ⟨hhash, hfirst⟩ := cut_snd_eq_none (Option.map_eq_none_iff.mp hfragment)
  rw [hfirst] at hquery ⊢
  obtain ⟨hmark, hsecond⟩ := cut_snd_eq_none (Option.map_eq_none_iff.mp hquery)
  rw [hsecond]
  exact ⟨hhash, hmark, rfl⟩

theorem exists_slashes (base : List Char) : ∃ k,
    base = base.rdropWhile (· = '/') ++ List.replicate k '/' := by
  refine ⟨(base.rtakeWhile (· = '/')).length, ?_⟩
  conv_lhs => rw [← List.rdropWhile_append_rtakeWhile (p := (· = '/')) (l := base)]
  congr 1
  refine List.eq_replicate_of_mem fun c hc => ?_
  simpa using List.mem_rtakeWhile_imp hc

theorem exists_not_blank {k : ℕ} (h : scheme? (clean (base ++ List.replicate k '/')) ≠ none) :
    ∃ c ∈ base, isC0OrSpace c = false := by
  by_contra hblank
  have hall : ∀ c ∈ base, isC0OrSpace c = true := fun c hc => by
    by_contra hc'
    exact hblank ⟨c, hc, Bool.eq_false_iff.mpr hc'⟩
  refine h (scheme?_eq_none fun c hc => ?_)
  rw [head?_clean, List.dropWhile_append_of_pos hall] at hc
  have hslash : c ∈ List.replicate k '/' :=
    (List.dropWhile_sublist isC0OrSpace).subset (List.mem_of_mem_head? hc)
  rw [List.eq_of_mem_replicate hslash]
  rfl

theorem clean_slashes {k : ℕ} (hbase : ∃ c ∈ base, isC0OrSpace c = false)
    (hend : EndsOpen (base ++ List.replicate k '/')) :
    clean (base ++ List.replicate k '/') = cleanLeft base ++ List.replicate k '/' := by
  cases k with
  | zero =>
    rw [List.replicate_zero, List.append_nil] at hend ⊢
    rw [clean_eq_cleanLeft hend, List.append_nil]
  | succ k =>
    rw [clean_append hbase ⟨'/', List.mem_replicate.mpr ⟨Nat.succ_ne_zero k, rfl⟩, rfl⟩,
      cleanRight_slashes]

/-- A path that is written after a base is read in the directory that the base names. -/
theorem parse_extend {url : Url Host} (h : parse parseHost base = some (.url url))
    (hquery : url.query = none) (hfragment : url.fragment = none) (hend : EndsOpen base) :
    ∃ ground, trimmed ground = trimmed url.path ∧ ∀ tail rest, cleanRight tail = '/' :: rest →
      parse parseHost (base.rdropWhile (· = '/') ++ tail) =
        some (.url (url.withPath ground rest)) := by
  obtain ⟨k, hbase⟩ := exists_slashes base
  generalize base.rdropWhile (· = '/') = front at hbase ⊢
  subst hbase
  obtain ⟨scheme, rest, hscheme, hspecial, hurl⟩ : ∃ scheme rest,
      scheme? (clean (front ++ List.replicate k '/')) = some (scheme, rest) ∧
        (defaultPort scheme).isSome = true ∧
        withAuthority parseHost scheme (rest.dropWhile isSlash) = some url := by
    unfold parse at h
    split at h
    · cases h
    · next scheme rest hscheme =>
      split_ifs at h with hspecial
      · obtain ⟨url', hurl, heq⟩ := Option.map_eq_some_iff.mp h
        cases heq
        exact ⟨scheme, rest, hscheme, hspecial, hurl⟩
      · cases h
  have hfront := exists_not_blank (by rw [hscheme]; exact Option.some_ne_none _)
  rw [clean_slashes hfront hend] at hscheme
  have hslashes : ∀ c ∈ (List.replicate k '/').head?, c = '/' := fun c hc =>
    List.eq_of_mem_replicate (List.mem_of_mem_head? hc)
  obtain ⟨before, hbefore, rfl⟩ := scheme?_of_append (fun c hc => by
    rw [hslashes c hc]
    decide) hscheme
  have hstart : before.dropWhile isSlash ≠ [] := by
    intro hnil
    have hall : ∀ c ∈ before ++ List.replicate k '/', isSlash c = true := by
      intro c hc
      rcases List.mem_append.mp hc with hc | hc
      · exact List.dropWhile_eq_nil_iff.mp hnil c hc
      · rw [List.eq_of_mem_replicate hc]
        rfl
    rw [List.dropWhile_eq_nil_iff.mpr hall] at hurl
    cases hurl
  have hstarts : ∀ more, (before ++ more).dropWhile isSlash = before.dropWhile isSlash ++ more :=
    fun more => (takeWhile_of_stop hstart more).2
  rw [hstarts, withAuthority_append fun c hc => by rw [hslashes c hc]; rfl] at hurl
  obtain ⟨named, hnamed, rfl⟩ := Option.map_eq_some_iff.mp hurl
  have hgo : ∀ tail rest, cleanRight tail = '/' :: rest →
      parse parseHost (front ++ tail) = some (.url (Url.withPath
        ⟨scheme, named.1, named.2, [], none, none⟩ []
        (afterSlash (((before.dropWhile isSlash).dropWhile fun c => !endsAuthority c) ++
          '/' :: rest)))) := by
    intro tail rest htail
    have hin : '/' ∈ tail := (List.rdropWhile_prefix isC0OrSpace tail).subset
      (List.mem_of_mem_filter (htail ▸ List.mem_cons_self : '/' ∈ cleanRight tail))
    unfold parse
    rw [clean_append hfront ⟨'/', hin, rfl⟩, htail, scheme?_append hbefore]
    dsimp only
    rw [if_pos hspecial, hstarts, withAuthority_append (by simp [endsAuthority, isSlash]), hnamed]
    rfl
  cases hafter : (before.dropWhile isSlash).dropWhile fun c => !endsAuthority c with
  | nil =>
    rw [hafter] at hgo hquery hfragment
    refine ⟨[], ?_, hgo⟩
    obtain ⟨n, hn⟩ : ∃ n, afterSlash ([] ++ List.replicate k '/') = List.replicate n '/' := by
      cases k with
      | zero => exact ⟨0, rfl⟩
      | succ k => exact ⟨k, rfl⟩
    rw [hn] at hquery hfragment ⊢
    have hsplit := splitOnP_slashes [] n
    rw [List.nil_append] at hsplit
    rw [(path_of_withPath hquery hfragment).2.2, trimmed_extendPath, hsplit, descend_append,
      descend_replicate, trimmed_append_replicate]
    rfl
  | cons c after =>
    have hends : endsAuthority c = true := by
      have hhead := List.head?_dropWhile_not (fun c => !endsAuthority c) (before.dropWhile isSlash)
      rw [hafter] at hhead
      simpa using hhead
    rw [hafter] at hgo hquery hfragment
    obtain ⟨hhash, hmark, hpath⟩ := path_of_withPath hquery hfragment
    have hslash : isSlash c = true := by
      by_contra hother
      rw [List.cons_append, afterSlash, if_neg hother] at hhash hmark
      simp only [endsAuthority, Bool.or_eq_true, decide_eq_true_eq, hother] at hends
      rcases hends with (hends | rfl) | rfl
      · cases hends
      · exact hmark List.mem_cons_self
      · exact hhash List.mem_cons_self
    have hafterSlash : ∀ more, afterSlash (c :: after ++ more) = after ++ more := fun more =>
      if_pos hslash
    rw [hafterSlash] at hhash hmark hpath
    refine ⟨descend [] (after.splitOnP isSlash), ?_, fun tail rest htail => ?_⟩
    · rw [hafterSlash, hpath, trimmed_extendPath, splitOnP_slashes, descend_append,
        descend_replicate, trimmed_append_replicate]
    · rw [hgo tail rest htail, hafterSlash, withPath_append _ []
        (fun hmem => hhash (List.mem_append_left _ hmem))
        (fun hmem => hmark (List.mem_append_left _ hmem))]
      rfl

end GoingOn

end Albedo.WhatwgUrl
