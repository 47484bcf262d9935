import Albedo.Forms.Sinks
import Albedo.Render.Rows

/-!
# Escaping in markup

The escaping of both server renderers, and the unescaping of the reader of keyed rows, which takes
its six references out one after another. Each reference begins where a character was written, so
the reader gets back what was escaped, and so does a browser.
-/
namespace Albedo.Render
open Separator

/-! ### Replacing in what was escaped -/

section Replace
variable {needle replacement : String} {token rest value : Html}

def Misses (needle token : Html) : Prop :=
  ∀ rest, find needle (token ++ rest) =
    (find needle rest).map fun parts => (token ++ parts.1, parts.2)

theorem replaceText_misses (h : Misses needle.toList token) (fuel : ℕ) :
    replaceText needle replacement fuel (token ++ rest) =
      token ++ replaceText needle replacement fuel rest := by
  cases fuel with
  | zero => rfl
  | succ fuel =>
      rw [replaceText, replaceText, h rest]
      cases find needle.toList rest with
      | none => rfl
      | some found => simp only [Option.map_some, List.append_assoc]

theorem replaceText_at_start (needle replacement : String) (fuel : ℕ) (rest : Html) :
    replaceText needle replacement (fuel + 1) (needle.toList ++ rest) =
      replacement.toList ++ replaceText needle replacement fuel rest := by
  rw [replaceText, find_at_start (List.prefix_append _ _)]
  simp

def swap (needle replacement : String) (token : Html) : Html :=
  if token = needle.toList then replacement.toList else token

theorem replaceText_flatMap {token : Char → Html} (hneedle : needle.toList ≠ [])
    (h : ∀ c, token c = needle.toList ∨ Misses needle.toList (token c)) :
    ∀ fuel, value.length ≤ fuel → replaceText needle replacement fuel (value.flatMap token) =
      value.flatMap fun c => swap needle replacement (token c) := by
  induction value with
  | nil =>
      intro fuel _
      cases fuel with
      | zero => rfl
      | succ fuel =>
          rw [List.flatMap_nil, replaceText, find, if_neg hneedle]
          rfl
  | cons c value ih =>
      intro fuel hfuel
      rw [List.length_cons] at hfuel
      obtain ⟨fuel, rfl⟩ := Nat.exists_eq_add_of_lt (Nat.lt_of_lt_of_le (Nat.succ_pos _) hfuel)
      simp only [Nat.zero_add] at hfuel ⊢
      rw [List.flatMap_cons, List.flatMap_cons, swap]
      by_cases htoken : token c = needle.toList
      · rw [if_pos htoken, htoken, replaceText_at_start, ih fuel (by omega)]
      · rw [if_neg htoken, replaceText_misses ((h c).resolve_left htoken),
          ih (fuel + 1) (by omega)]

theorem replaceAll_flatMap (needle replacement : String) {token : Char → Html}
    (hneedle : needle.toList ≠ []) (hne : ∀ c, token c ≠ [])
    (h : ∀ c, token c = needle.toList ∨ Misses needle.toList (token c))
    {value : Html} : replaceAll (value.flatMap token) needle replacement =
      value.flatMap fun c => swap needle replacement (token c) := by
  refine replaceText_flatMap hneedle h _ ?_
  induction value with
  | nil => exact Nat.zero_le _
  | cons c value ih =>
      rw [List.flatMap_cons, List.length_cons, List.length_append]
      have hpos := List.length_pos_iff.mpr (hne c)
      omega

theorem replaceAll_char (c : Char) (replacement : String) (text : Html) :
    replaceAll text (String.singleton c) replacement =
      Forms.replaceChar c replacement.toList text := by
  have htokens : replaceAll (text.flatMap fun x => [x]) (String.singleton c) replacement = _ :=
    replaceAll_flatMap (String.singleton c) replacement (by simp) (fun x => List.cons_ne_nil _ _)
      fun x => by
        rw [String.toList_singleton]
        by_cases hx : x = c
        · exact .inl (hx ▸ rfl)
        · exact .inr fun rest =>
            find_append_of_not_mem fun h => hx (List.mem_singleton.mp h).symm
  rw [List.flatMap_singleton'] at htokens
  rw [htokens, Forms.replaceChar]
  congr 1
  funext x
  simp [swap]

end Replace

/-! ### Escaping and back -/

def escapeHtml (value : Html) : Html :=
  Forms.replaceChar '>' "&gt;".toList (Forms.replaceChar '<' "&lt;".toList
    (Forms.replaceChar '&' "&amp;".toList value))

def escapeAttr (value : Html) : Html :=
  Forms.replaceChar '"' "&quot;".toList (escapeHtml value)

theorem escapeAttrValue_eq (value : Html) : escapeAttrValue value = escapeAttr value := by
  have hchar : ∀ (text : Html) (needle replacement : String) (c : Char),
      needle = String.singleton c →
        replaceAll text needle replacement = Forms.replaceChar c replacement.toList text := by
    rintro text _ replacement c rfl
    exact replaceAll_char c replacement text
  rw [escapeAttrValue, hchar _ "&" _ '&' rfl, hchar _ "<" _ '<' rfl, hchar _ ">" _ '>' rfl,
    hchar _ _ _ '"' rfl]
  rfl

theorem escapeAttr_eq (value : Html) : escapeAttr value = value.flatMap Forms.escapeChar := by
  unfold escapeAttr escapeHtml Forms.replaceChar
  rw [List.flatMap_assoc, List.flatMap_assoc, List.flatMap_assoc]
  congr 1
  funext c
  unfold Forms.escapeChar
  split_ifs with hamp hquote hlt hgt
  · rfl
  · subst hquote
    rfl
  · subst hlt
    rfl
  · subst hgt
    rfl
  · simp [hquote, hlt, hgt]

theorem not_mem_escapeHtml (value : Html) : '<' ∉ escapeHtml value := by
  unfold escapeHtml Forms.replaceChar
  simp only [List.mem_flatMap, not_exists, not_and]
  intro c hc
  split_ifs with hgt
  · decide
  · rintro hmem
    obtain rfl := List.mem_singleton.mp hmem
    obtain ⟨d, -, hd⟩ := hc
    split_ifs at hd with hlt
    · exact absurd hd (by decide)
    · exact hlt (List.mem_singleton.mp hd).symm

/-- One character of an escaped text as it is written. -/
def IsToken (token : Html) : Prop :=
  (∃ c, c ≠ '&' ∧ token = [c]) ∨
    token ∈ ["&amp;".toList, "&lt;".toList, "&gt;".toList, "&quot;".toList]

theorem IsToken.ne_nil {token : Html} (h : IsToken token) : token ≠ [] := by
  rcases h with ⟨c, -, rfl⟩ | h
  · exact List.cons_ne_nil _ _
  · rintro rfl
    exact absurd h (by decide)

theorem IsToken.swap {token : Html} (h : IsToken token) (needle : String) {replacement : String}
    (hreplacement : IsToken replacement.toList) : IsToken (swap needle replacement token) := by
  unfold Render.swap
  split_ifs
  · exact hreplacement
  · exact h

theorem misses_of_prefix {a : Char} {needle token : Html} (ha : a ∉ token)
    (hneedle : ¬ needle <+: a :: token) (htoken : ¬ a :: token <+: needle)
    (hhead : needle.head? = some a) : Misses needle (a :: token) := by
  intro rest
  obtain ⟨tail, rfl⟩ := List.head?_eq_some_iff.mp hhead
  have hprefix : ¬ a :: tail <+: a :: (token ++ rest) := fun h =>
    (List.prefix_or_prefix_of_prefix h (List.prefix_append (a :: token) rest)).elim hneedle htoken
  rw [List.cons_append, find_cons_of_not hprefix, find_append_of_not_mem ha, Option.map_map]
  rfl

/-- What `unescape_attr_value` looks for begins where a token does. -/
theorem IsToken.unescaped {token : Html} (h : IsToken token) {needle : String}
    (hneedle : needle ∈ ["&quot;", "&#x27;", "&#39;", "&lt;", "&gt;", "&amp;"]) :
    token = needle.toList ∨ Misses needle.toList token := by
  have hhead : needle.toList.head? = some '&' :=
    (by decide : ∀ needle ∈ ["&quot;", "&#x27;", "&#39;", "&lt;", "&gt;", "&amp;"],
      needle.toList.head? = some '&') needle hneedle
  rcases h with ⟨c, hc, rfl⟩ | h
  · refine .inr fun rest => ?_
    obtain ⟨tail, hlist⟩ := List.head?_eq_some_iff.mp hhead
    rw [hlist]
    exact find_append_of_not_mem fun h => hc (List.mem_singleton.mp h).symm
  · have hcases : ∀ token ∈ ["&amp;".toList, "&lt;".toList, "&gt;".toList, "&quot;".toList],
        ∀ needle ∈ ["&quot;", "&#x27;", "&#39;", "&lt;", "&gt;", "&amp;"],
          token = needle.toList ∨ (token.head? = some '&' ∧ '&' ∉ token.tail ∧
            ¬ needle.toList <+: token ∧ ¬ token <+: needle.toList) := by decide +kernel
    refine (hcases token h needle hneedle).imp_right ?_
    rintro ⟨htoken, htail, hneedle', htoken'⟩
    obtain ⟨tail, rfl⟩ := List.head?_eq_some_iff.mp htoken
    exact misses_of_prefix htail hneedle' htoken' hhead

theorem isToken_escapeChar (c : Char) : IsToken (Forms.escapeChar c) := by
  unfold Forms.escapeChar
  split_ifs with hamp
  · exact .inr (by decide)
  · exact .inr (by decide)
  · exact .inr (by decide)
  · exact .inr (by decide)
  · exact .inl ⟨c, hamp, rfl⟩

theorem unescapeAttrValue_escapeAttr (value : Html) :
    unescapeAttrValue (escapeAttr value) = value := by
  have hplain : ∀ d : Char, d ≠ '&' → IsToken (String.singleton d).toList := fun d hd =>
    .inl ⟨d, hd, by simp⟩
  have hquote := fun c => (isToken_escapeChar c).swap "&quot;" (hplain '"' (by decide))
  have hhex := fun c => (hquote c).swap "&#x27;" (hplain apostrophe (by decide))
  have hdecimal := fun c => (hhex c).swap "&#39;" (hplain apostrophe (by decide))
  have hlt := fun c => (hdecimal c).swap "&lt;" (show IsToken "<".toList from .inl ⟨'<', by decide⟩)
  have hgt := fun c => (hlt c).swap "&gt;" (show IsToken ">".toList from .inl ⟨'>', by decide⟩)
  simp only [unescapeAttrValue]
  rw [escapeAttr_eq,
    replaceAll_flatMap "&quot;" _ (by decide) (fun c => (isToken_escapeChar c).ne_nil)
      fun c => (isToken_escapeChar c).unescaped (by decide),
    replaceAll_flatMap "&#x27;" _ (by decide) (fun c => (hquote c).ne_nil)
      fun c => (hquote c).unescaped (by decide),
    replaceAll_flatMap "&#39;" _ (by decide) (fun c => (hhex c).ne_nil)
      fun c => (hhex c).unescaped (by decide),
    replaceAll_flatMap "&lt;" _ (by decide) (fun c => (hdecimal c).ne_nil)
      fun c => (hdecimal c).unescaped (by decide),
    replaceAll_flatMap "&gt;" _ (by decide) (fun c => (hlt c).ne_nil)
      fun c => (hlt c).unescaped (by decide),
    replaceAll_flatMap "&amp;" _ (by decide) (fun c => (hgt c).ne_nil)
      fun c => (hgt c).unescaped (by decide)]
  refine Eq.trans ?_ (List.flatMap_singleton' value)
  congr 1
  funext c
  unfold Forms.escapeChar
  split_ifs with hamp hquote hlt hgt
  · subst hamp
    decide
  · subst hquote
    decide
  · subst hlt
    decide
  · subst hgt
    decide
  · simp [swap]

theorem escapeAttr_eq_forms (value : Html) :
    escapeAttr value = Forms.escapeAttributeValue value :=
  (escapeAttr_eq value).trans (Forms.escapeAttributeValue_eq value).symm

def attributeText (written : Html) : Html :=
  Forms.references ((Forms.newlines written).map fun c =>
    if c = Forms.nul then Char.ofNat 0xFFFD else c)

theorem attributeText_escapeAttr {value : Html} (hreturn : '\r' ∉ value)
    (hnul : Forms.nul ∉ value) : attributeText (escapeAttr value) = value := by
  rw [escapeAttr_eq_forms, attributeText,
    Forms.newlines_eq fun h => hreturn (Forms.mem_of_mem_escape (.inl rfl) h)]
  have hkept : (Forms.escapeAttributeValue value).map (fun c =>
      if c = Forms.nul then Char.ofNat 0xFFFD else c) = Forms.escapeAttributeValue value := by
    refine (List.map_congr_left fun c hc => if_neg ?_).trans (List.map_id'' (fun _ => rfl) _)
    rintro rfl
    exact hnul (Forms.mem_of_mem_escape (.inr rfl) hc)
  rw [hkept, Forms.references_escape]

end Albedo.Render
