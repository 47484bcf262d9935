import Albedo.Library.Ascii
import Albedo.Library.Utf16
import Albedo.Library.WhatwgUrl

/-!
# URLs in attributes

A URL that would run as script is not written into an attribute: what is written in its place
throws when it is followed. Whether a value would run is asked of its characters on the server, and
of its UTF-16 code units in a browser, with the rules by which a browser finds the scheme of a URL.
-/
namespace Albedo.Render
open WhatwgUrl

def urlAttributes : List (List Char) :=
  ["action".toList, "cite".toList, "data".toList, "formaction".toList, "href".toList,
    "poster".toList, "src".toList, "xlink:href".toList]

def blockedUrl : List Char :=
  "javascript:throw new Error('ALBEDO blocked a javascript: URL as a security precaution.')".toList

def isUrlAttribute (attributeName : List Char) : Bool :=
  urlAttributes.any fun url => url.map Char.toLower = attributeName.map Char.toLower

def isScriptUrl (value : List Char) : Bool :=
  let scheme := (((value.dropWhile (· ≤ ' ')).filter fun c =>
    !(c = '\t' || c = '\n' || c = '\r')).take "javascript:".toList.length).map Char.toLower
  scheme = "javascript:".toList || "vbscript:".toList.isPrefixOf scheme

def safeAttributeValue (attributeName value : List Char) : List Char :=
  if isUrlAttribute attributeName && isScriptUrl value then blockedUrl else value

/-! ### The copy that runs in a browser -/

def lowerUnit (u : ℕ) : ℕ := if 65 ≤ u ∧ u ≤ 90 then u + 32 else u

def isTabOrNewlineUnit (u : ℕ) : Bool := u = 9 || u = 10 || u = 13

def collectScheme (scheme : List ℕ) : List ℕ → List ℕ
  | [] => scheme
  | u :: rest =>
      if scheme.length < 11 then
        if isTabOrNewlineUnit u then collectScheme scheme rest
        else collectScheme (scheme ++ [lowerUnit u]) rest
      else scheme

/-- `safe_url_js`: the string to write for a string. -/
def safeUrlJs (s : List ℕ) : List ℕ :=
  let scheme := collectScheme [] (s.dropWhile (· ≤ 32))
  if scheme = "javascript:".toList.map Char.toNat ∨
      scheme.take 9 = "vbscript:".toList.map Char.toNat then Utf16.encode blockedUrl
  else s

/-! ### What both look at -/

variable {value text name : List Char}

/-- A value without what a browser drops before and in the scheme of a URL, in lower case. -/
def visible (value : List Char) : List Char :=
  ((value.dropWhile isC0OrSpace).filter fun c => !isTabOrNewline c).map Char.toLower

theorem take_eq_iff_prefix {α : Type*} (l pattern : List α) {n : ℕ} (h : pattern.length = n) :
    l.take n = pattern ↔ pattern <+: l := by
  rw [List.prefix_iff_eq_take, h, eq_comm]

/-- A script URL begins with one of two schemes. -/
def Runs (text : List Char) : Prop :=
  "javascript:".toList <+: text ∨ "vbscript:".toList <+: text

theorem isScriptUrl_iff : isScriptUrl value = true ↔ Runs (visible value) := by
  have hscheme : (((value.dropWhile (· ≤ ' ')).filter fun c =>
      !(c = '\t' || c = '\n' || c = '\r')).take "javascript:".toList.length).map Char.toLower =
        (visible value).take 11 := by
    rw [visible, List.map_take]
    rfl
  unfold isScriptUrl Runs
  dsimp only
  rw [hscheme, Bool.or_eq_true, decide_eq_true_eq, List.isPrefixOf_iff_prefix,
    take_eq_iff_prefix (n := 11) _ "javascript:".toList rfl,
    ← take_eq_iff_prefix (n := 9) _ "vbscript:".toList rfl, List.take_take,
    ← take_eq_iff_prefix (n := 9) _ "vbscript:".toList rfl]
  rfl

theorem collectScheme_eq (scheme s : List ℕ) (h : scheme.length ≤ 11) :
    collectScheme scheme s =
      (scheme ++ (s.filter fun u => !isTabOrNewlineUnit u).map lowerUnit).take 11 := by
  induction s generalizing scheme with
  | nil => simp [collectScheme, List.take_of_length_le h]
  | cons u s ih =>
      unfold collectScheme
      split_ifs with hroom htab
      · rw [ih scheme h, List.filter_cons_of_neg (by simpa using htab)]
      · rw [ih _ (by rw [List.length_append, List.length_singleton]; omega),
          List.filter_cons_of_pos (by simpa using htab), List.map_cons, List.append_assoc]
        rfl
      · have hfull : scheme.length = 11 := by omega
        rw [← hfull, List.take_left]

theorem units_visible (value : List Char) :
    (((Utf16.encode value).dropWhile (· ≤ 32)).filter fun u => !isTabOrNewlineUnit u) =
      Utf16.encode ((value.dropWhile isC0OrSpace).filter fun c => !isTabOrNewline c) := by
  have hdrop := Utf16.dropWhile_encode 33 (p := fun u => decide (u ≤ 32)) (by omega)
    (fun u hu => by simp only [decide_eq_false_iff_not]; omega) value
  rw [hdrop, Utf16.filter_encode 14 (by omega)]
  · refine congrArg Utf16.encode (List.filter_congr fun c _ => ?_)
    have hnat : ∀ d : Char, (c = d) = (c.toNat = d.toNat) := fun d => by rw [Char.toNat_inj]
    simp only [isTabOrNewline, isTabOrNewlineUnit, hnat]
    rfl
  · intro u hu
    simp only [isTabOrNewlineUnit, Bool.not_eq_true', Bool.or_eq_false_iff, decide_eq_false_iff_not]
    omega

theorem lowerUnit_toNat {c : Char} (h : c.toNat < 128) :
    lowerUnit c.toNat = c.toLower.toNat ∧ c.toLower.toNat < 128 :=
  Ascii.forall_lt (p := fun c => lowerUnit c.toNat = c.toLower.toNat ∧ c.toLower.toNat < 128)
    (by decide +kernel) h

theorem toLower_eq_self {c : Char} (h : 128 ≤ c.toNat) : c.toLower = c := by
  unfold Char.toLower
  rw [dif_neg]
  rintro ⟨-, hc⟩
  have hle : c.toNat ≤ 90 := UInt32.le_iff_toNat_le.mp hc
  omega

theorem safeUrlJs_eq (value : List Char) : safeUrlJs (Utf16.encode value) =
    Utf16.encode (if isScriptUrl value then blockedUrl else value) := by
  have hprefix : ∀ pattern : List Char, (∀ c ∈ pattern, c.toNat < 128) →
      (pattern.map Char.toNat <+: (((Utf16.encode value).dropWhile (· ≤ 32)).filter fun u =>
        !isTabOrNewlineUnit u).map lowerUnit ↔ pattern <+: visible value) := by
    intro pattern hpattern
    rw [units_visible]
    refine Utf16.prefix_map_encode_iff (fun c hc => lowerUnit_toNat hc) (fun u hu => ?_)
      (fun c hc => by rwa [toLower_eq_self hc]) hpattern
    unfold lowerUnit
    split_ifs <;> omega
  have hscript : isScriptUrl value = true ↔
      collectScheme [] ((Utf16.encode value).dropWhile (· ≤ 32)) =
          "javascript:".toList.map Char.toNat ∨
        (collectScheme [] ((Utf16.encode value).dropWhile (· ≤ 32))).take 9 =
          "vbscript:".toList.map Char.toNat := by
    rw [isScriptUrl_iff, collectScheme_eq [] _ (Nat.zero_le _), List.nil_append, List.take_take,
      take_eq_iff_prefix (n := 11) _ ("javascript:".toList.map Char.toNat) rfl,
      show min 9 11 = 9 from rfl,
      take_eq_iff_prefix (n := 9) _ ("vbscript:".toList.map Char.toNat) rfl,
      hprefix _ (Ascii.forall_mem_of_all (by decide)),
      hprefix _ (Ascii.forall_mem_of_all (by decide))]
    rfl
  unfold safeUrlJs
  dsimp only
  by_cases h : isScriptUrl value = true
  · rw [if_pos (hscript.mp h), if_pos h]
  · rw [if_neg fun hs => h (hscript.mpr hs), if_neg h]

/-! ### What a browser reads -/

theorem isSchemeChar_of_toLower {c : Char} (h : c.toLower.isAlpha = true) :
    c.isAlpha = true ∧ isSchemeChar c = true := by
  have hlow : c.toNat < 128 := by
    by_contra hle
    rw [toLower_eq_self (not_lt.mp hle)] at h
    exact hle (Ascii.lt_of_isAlphanum (Ascii.isAlphanum_iff.mpr (Or.inl h)))
  exact Ascii.forall_lt (p := fun c => c.toLower.isAlpha = true →
    c.isAlpha = true ∧ isSchemeChar c = true) (by decide +kernel) hlow h

theorem eq_colon_of_toLower {c : Char} (h : c.toLower = ':') : c = ':' := by
  have hlow : c.toNat < 128 := by
    by_contra hle
    rw [toLower_eq_self (not_lt.mp hle)] at h
    exact hle (h ▸ by decide)
  exact Ascii.forall_lt (p := fun c => c.toLower = ':' → c = ':') (by decide +kernel) hlow h

theorem scheme?_eq_iff (hne : name ≠ []) (hname : ∀ c ∈ name, c.isAlpha = true) :
    (∃ rest, scheme? text = some (name, rest)) ↔ name ++ [':'] <+: text.map Char.toLower := by
  constructor
  · rintro ⟨rest, h⟩
    cases text with
    | nil => cases h
    | cons c text =>
        simp only [scheme?] at h
        split_ifs at h with halpha
        split at h
        · rename_i after hdrop
          obtain ⟨rfl, rfl⟩ := Prod.mk.inj (Option.some.inj h)
          conv_rhs =>
            rw [← List.takeWhile_append_dropWhile (p := isSchemeChar) (l := c :: text), hdrop]
          rw [List.map_append, List.map_cons]
          exact List.prefix_append_right_inj _ |>.mpr ⟨after.map Char.toLower, rfl⟩
        · cases h
  · rintro ⟨rest, h⟩
    obtain ⟨before, after, rfl, hbefore, hafter⟩ := List.map_eq_append_iff.mp h.symm
    obtain ⟨letters, colon, rfl, rfl, hcolon⟩ := List.map_eq_append_iff.mp hbefore
    obtain ⟨c, rfl, hc⟩ := List.map_eq_singleton_iff.mp hcolon
    obtain rfl := eq_colon_of_toLower hc
    have hscheme : ∀ c ∈ letters, c.isAlpha = true ∧ isSchemeChar c = true := fun c hc =>
      isSchemeChar_of_toLower (hname _ (List.mem_map_of_mem hc))
    cases letters with
    | nil => exact absurd rfl hne
    | cons first letters =>
        refine ⟨after, ?_⟩
        have hall : ∀ c ∈ first :: letters, isSchemeChar c = true := fun c hc => (hscheme c hc).2
        have htext : (first :: letters ++ [':'] ++ after) =
            (first :: letters) ++ ':' :: after := by simp
        have hdrop : (first :: letters ++ ':' :: after).dropWhile isSchemeChar = ':' :: after := by
          rw [List.dropWhile_append_of_pos hall, List.dropWhile_cons_of_neg (by decide)]
        have htake : (first :: letters ++ ':' :: after).takeWhile isSchemeChar =
            first :: letters := by
          rw [List.takeWhile_append_of_pos hall, List.takeWhile_cons_of_neg (by decide),
            List.append_nil]
        rw [htext]
        rw [List.cons_append] at hdrop htake ⊢
        simp only [scheme?, if_pos (hscheme first List.mem_cons_self).1, hdrop, htake]

theorem prefix_clean_iff {pattern : List Char} (hpattern : ∀ c ∈ pattern, isC0OrSpace c = false) :
    pattern <+: (clean value).map Char.toLower ↔ pattern <+: visible value := by
  have hkept : clean value = ((value.dropWhile isC0OrSpace).rdropWhile isC0OrSpace).filter
      fun c => !isTabOrNewline c := rfl
  let dropped := (value.dropWhile isC0OrSpace).rtakeWhile isC0OrSpace
  have hdropped : _ ++ dropped = value.dropWhile isC0OrSpace :=
    List.rdropWhile_append_rtakeWhile
  have hvisible : visible value = (clean value).map Char.toLower ++
      (dropped.filter fun c => !isTabOrNewline c).map Char.toLower := by
    rw [visible, hkept, ← List.map_append, ← List.filter_append, hdropped]
  rw [hvisible]
  refine ⟨fun h => h.trans (List.prefix_append _ _), fun h => ?_⟩
  refine List.prefix_of_prefix_length_le h (List.prefix_append _ _) ?_
  -- a longer pattern would reach into what was dropped
  by_contra hlong
  obtain ⟨more, rfl⟩ := List.prefix_of_prefix_length_le (List.prefix_append _ _) h (by omega)
  rw [List.prefix_append_right_inj] at h
  cases more with
  | nil => simp at hlong
  | cons c more =>
      have hc : c ∈ (dropped.filter fun c => !isTabOrNewline c).map Char.toLower :=
        h.subset List.mem_cons_self
      obtain ⟨d, hd, rfl⟩ := List.mem_map.mp hc
      have hlow : isC0OrSpace d = true :=
        List.mem_rtakeWhile_imp (List.mem_of_mem_filter hd)
      have hsame : d.toLower = d := Ascii.forall_lt (p := fun c => isC0OrSpace c = true →
        c.toLower = c) (by decide +kernel) (by
          have hle := of_decide_eq_true hlow
          omega) hlow
      have hpat := hpattern d.toLower (by simp)
      rw [hsame, hlow] at hpat
      cases hpat

theorem runs_iff : Runs (visible value) ↔ ∃ scheme rest,
    scheme? (clean value) = some (scheme, rest) ∧
      (scheme = "javascript".toList ∨ scheme = "vbscript".toList) := by
  have hreads : ∀ name : List Char, name ≠ [] → (∀ c ∈ name, c.isAlpha = true) →
      (∀ c ∈ name ++ [':'], isC0OrSpace c = false) →
      ((∃ rest, scheme? (clean value) = some (name, rest)) ↔ name ++ [':'] <+: visible value) := by
    intro name hne hname hpattern
    rw [scheme?_eq_iff hne hname, prefix_clean_iff hpattern]
  have hjs := hreads "javascript".toList (by decide) (Ascii.forall_mem_of_all (by decide))
    (Ascii.forall_mem_of_all (by decide))
  have hvb := hreads "vbscript".toList (by decide) (Ascii.forall_mem_of_all (by decide))
    (Ascii.forall_mem_of_all (by decide))
  constructor
  · rintro (h | h)
    · obtain ⟨rest, hrest⟩ := hjs.mpr h
      exact ⟨_, rest, hrest, Or.inl rfl⟩
    · obtain ⟨rest, hrest⟩ := hvb.mpr h
      exact ⟨_, rest, hrest, Or.inr rfl⟩
  · rintro ⟨_, rest, hrest, rfl | rfl⟩
    · exact Or.inl (hjs.mp ⟨rest, hrest⟩)
    · exact Or.inr (hvb.mp ⟨rest, hrest⟩)

/-- What is claimed of the values of attributes: script URLs are told exactly, in the browser as on
the server, and what is written in the place of one is written again. -/
structure Guards (attributeName value : List Char) : Prop where
  exact : isScriptUrl value = true ↔ ∃ scheme rest, scheme? (clean value) = some (scheme, rest) ∧
    (scheme = "javascript".toList ∨ scheme = "vbscript".toList)
  copied : safeUrlJs (Utf16.encode value) =
    Utf16.encode (if isScriptUrl value then blockedUrl else value)
  again : safeAttributeValue attributeName (safeAttributeValue attributeName value) =
    safeAttributeValue attributeName value

/-- The only script URL that is written into a URL attribute is the one that throws. -/
theorem script_urls_blocked (attributeName value : List Char) :
    Guards attributeName value ∧ (isUrlAttribute attributeName = true →
      isScriptUrl (safeAttributeValue attributeName value) = true →
        safeAttributeValue attributeName value = blockedUrl) := by
  unfold safeAttributeValue
  refine ⟨⟨isScriptUrl_iff.trans runs_iff, safeUrlJs_eq value, ?_⟩, fun hurl hscript => ?_⟩
  · unfold safeAttributeValue
    split_ifs with h
    · rfl
    · rfl
    · rfl
  · split_ifs at hscript ⊢ with h
    · rfl
    · rw [hurl, hscript] at h
      exact absurd rfl h

/-- What is written in the place of a script URL is a script URL. -/
theorem blocked_url_is_script :
    isUrlAttribute "href".toList = true ∧ isScriptUrl "javascript:alert(1)".toList = true ∧
      isScriptUrl (safeAttributeValue "href".toList "javascript:alert(1)".toList) = true := by
  decide +kernel

end Albedo.Render
