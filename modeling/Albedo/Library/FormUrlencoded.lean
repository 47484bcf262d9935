import Albedo.Library.Percent
import Albedo.Library.Separator

/-!
# Form-encoded pairs

Names and values with `=` between them and `&` between the pairs. In a name or a value a blank
is a `+`, and what is no letter, digit or one of four signs is escaped. What is written so is
read as it was.
-/
namespace Albedo.FormUrlencoded
open Percent Separator

/-- What stands for itself; a blank does until it becomes a `+`. -/
def formSafe (c : Char) : Bool := c.isAlphanum || "*-._ ".toList.contains c

def blankToPlus (c : Char) : Char := if c = ' ' then '+' else c

def plusToBlank (c : Char) : Char := if c = '+' then ' ' else c

/-- `byte_serialize`. -/
def byteSerialize (s : List Char) : List Char := (percentEncode formSafe s).map blankToPlus

def readComponent (s : List Char) : List Char := Utf8.lossy (percentDecode (s.map plusToBlank))

def appendPair (pair : List Char × List Char) : List Char :=
  byteSerialize pair.1 ++ '=' :: byteSerialize pair.2

/-- `form_urlencoded::Serializer`, a pair at a time. -/
def serialize (pairs : List (List Char × List Char)) : List Char :=
  ['&'].intercalate (pairs.map appendPair)

def readPair (part : List Char) : List Char × List Char :=
  match splitOnce '=' part with
  | some (name, value) => (readComponent name, readComponent value)
  | none => (readComponent part, [])

/-- `form_urlencoded::parse`. -/
def parse (s : List Char) : List (List Char × List Char) :=
  (Words.words (· = '&') s).map readPair

/-- A character that is escaped is not in what is written, unless it is written for a blank. -/
theorem not_mem_byteSerialize {d : Char} (hd : Neutral d) (hsafe : formSafe d = false)
    (hplus : d ≠ '+') (s : List Char) : d ∉ byteSerialize s := by
  intro hmem
  obtain ⟨c, hc, heq⟩ := List.mem_map.mp hmem
  by_cases hspace : c = ' '
  · rw [blankToPlus, if_pos hspace] at heq
    exact hplus heq.symm
  · rw [blankToPlus, if_neg hspace] at heq
    exact not_mem_percentEncode hd hsafe s (heq ▸ hc)

theorem count_byteSerialize {d : Char} (hd : Neutral d) (hsafe : formSafe d = true) (hspace : d ≠ ' ')
    (hplus : d ≠ '+') (s : List Char) : (byteSerialize s).count d = s.count d := by
  have hsame : ∀ c, blankToPlus c = d ↔ c = d := by
    intro c
    unfold blankToPlus
    split_ifs with hc
    · subst hc
      exact ⟨fun h => absurd h.symm hplus, fun h => absurd h.symm hspace⟩
    · rfl
  rw [byteSerialize, List.count_eq_countP, List.countP_map, ← count_percentEncode hd hsafe s,
    List.count_eq_countP]
  apply List.countP_congr
  intro c _
  simpa using hsame c

theorem plusToBlank_blankToPlus {c : Char} (h : c ≠ '+') : plusToBlank (blankToPlus c) = c := by
  by_cases hspace : c = ' '
  · rw [blankToPlus, if_pos hspace, hspace]
    rfl
  · rw [blankToPlus, if_neg hspace, plusToBlank, if_neg h]

theorem readComponent_byteSerialize (s : List Char) : readComponent (byteSerialize s) = s := by
  have hplus : '+' ∉ percentEncode formSafe s :=
    not_mem_percentEncode ⟨by decide, by decide⟩ (by decide) s
  have hback : ∀ c ∈ percentEncode formSafe s, (plusToBlank ∘ blankToPlus) c = id c := by
    intro c hc
    apply plusToBlank_blankToPlus
    rintro rfl
    exact hplus hc
  have hmap : (byteSerialize s).map plusToBlank = percentEncode formSafe s := by
    rw [byteSerialize, List.map_map, List.map_congr_left hback, List.map_id]
  have hdecode := @percentDecode_percentEncode formSafe (by decide) s []
  rw [List.append_nil] at hdecode
  rw [readComponent, hmap, hdecode]
  simp [percentDecode]

theorem readPair_appendPair (pair : List Char × List Char) : readPair (appendPair pair) = pair := by
  have hequals : '=' ∉ byteSerialize pair.1 :=
    not_mem_byteSerialize ⟨by decide, by decide⟩ (by decide) (by decide) pair.1
  rw [readPair, appendPair, splitOnce_append hequals]
  exact Prod.ext (readComponent_byteSerialize pair.1) (readComponent_byteSerialize pair.2)

theorem not_mem_appendPair {d : Char} (hd : Neutral d) (hsafe : formSafe d = false)
    (hplus : d ≠ '+') (hequals : d ≠ '=') (pair : List Char × List Char) : d ∉ appendPair pair := by
  intro hmem
  rcases List.mem_append.mp hmem with hname | hrest
  · exact not_mem_byteSerialize hd hsafe hplus pair.1 hname
  · rcases List.mem_cons.mp hrest with heq | hvalue
    · exact hequals heq
    · exact not_mem_byteSerialize hd hsafe hplus pair.2 hvalue

theorem plain_appendPair (pair : List Char × List Char) :
    Words.Plain (· = '&') (appendPair pair) where
  not_empty := by simp [appendPair]
  no_blank := by
    intro c hc
    rw [decide_eq_false_iff_not]
    rintro rfl
    exact not_mem_appendPair ⟨by decide, by decide⟩ (by decide) (by decide) (by decide) pair hc

theorem parse_serialize (pairs : List (List Char × List Char)) : parse (serialize pairs) = pairs := by
  induction pairs with
  | nil => rfl
  | cons pair pairs ih =>
      cases pairs with
      | nil =>
          have hone : serialize [pair] = appendPair pair := by simp [serialize]
          rw [parse, hone, Words.words_plain (plain_appendPair pair), List.map_singleton,
            readPair_appendPair]
      | cons next pairs =>
          have hmore : serialize (pair :: next :: pairs) =
              appendPair pair ++ '&' :: serialize (next :: pairs) := by
            simp [serialize, List.intercalate_cons_cons]
          rw [parse, hmore, Words.words_append_blank (plain_appendPair pair) (by decide),
            List.map_cons, readPair_appendPair]
          exact congrArg (pair :: ·) ih

/-- What holds of letters and digits, the four signs, `+`, `%`, `=` and `&` holds of all that is
written. -/
theorem forall_mem_serialize {p : Char → Bool} (halphanum : ∀ c, c.isAlphanum = true → p c = true)
    (hsigns : "*-._+%=&".toList.all p = true) (pairs : List (List Char × List Char)) :
    ∀ c ∈ serialize pairs, p c = true := by
  have hsign : ∀ c ∈ "*-._+%=&".toList, p c = true := List.all_eq_true.mp hsigns
  have hdigit : ∀ n < 16, (hexDigit n).isAlphanum = true := by decide
  have hcomponent : ∀ s, ∀ c ∈ byteSerialize s, p c = true := by
    intro s c hc
    obtain ⟨d, hd, rfl⟩ := List.mem_map.mp hc
    by_cases hspace : d = ' '
    · rw [blankToPlus, if_pos hspace]
      exact hsign '+' (by decide)
    · rw [blankToPlus, if_neg hspace]
      have hor : (d == ' ' || p d) = true := by
        refine forall_mem_percentEncode (p := fun d => d == ' ' || p d) ?_ ?_ ?_ s d hd
        · intro c hsafe
          rw [formSafe, Bool.or_eq_true, List.contains_iff_mem] at hsafe
          rcases hsafe with hletter | hfew
          · rw [halphanum c hletter, Bool.or_true]
          · have hcases : c = ' ' ∨ c ∈ "*-._+%=&".toList := by
              revert hfew
              simp
              tauto
            rcases hcases with rfl | hmem
            · rfl
            · rw [hsign c hmem, Bool.or_true]
        · rw [hsign '%' (by decide), Bool.or_true]
        · intro n hn
          rw [halphanum _ (hdigit n hn), Bool.or_true]
      rw [Bool.or_eq_true, beq_iff_eq] at hor
      exact hor.resolve_left hspace
  intro c hc
  rcases Words.mem_intercalate hc with rfl | ⟨part, hpart, hin⟩
  · exact hsign '&' (by decide)
  · obtain ⟨pair, -, rfl⟩ := List.mem_map.mp hpart
    rcases List.mem_append.mp hin with hname | hrest
    · exact hcomponent _ c hname
    · rcases List.mem_cons.mp hrest with rfl | hvalue
      · exact hsign '=' (by decide)
      · exact hcomponent _ c hvalue

end Albedo.FormUrlencoded
