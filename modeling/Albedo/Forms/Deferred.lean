import Albedo.Forms.Sinks

/-!
# Feedback carried and feedback applied

A frame's feedback that a redirect carries to a fresh render, beside the same frame applied in
place. Every sink shows the same text both ways but where a sink that was given words is cleared
last: the clear is not carried, and the words are.
-/
namespace Albedo.Forms
open Ir Ir.Bakabox

structure RequestPath where
  text : List Char
  no_query : '?' ∉ text
  no_fragment : '#' ∉ text

def Page.anchors (page : Page) : List UInt32 := ids page.pieces ++ page.others

/-- What each node shows once a frame's `SetText`s are applied. An id the page does not have ends
the frame. -/
def applySetTexts (page : Page) :
    List (UInt32 × List UInt8) → (UInt32 → List Char) → UInt32 → List Char
  | [], shown => shown
  | op :: ops, shown =>
      if op.1 ∈ page.anchors then
        applySetTexts page ops (Function.update shown op.1 (withoutMark (Utf8.lossy op.2)))
      else shown

def applied (page : Page) (frame : List Instruction) : UInt32 → List Char :=
  applySetTexts page (setTexts frame) fun _ => []

def Page.fresh (page : Page) : List Char := page.html fun _ => []

/-- The page after the redirect. The browser keeps what it is asked to and sends it among its
other cookies. -/
def carried (page : Page) (path : RequestPath) (before after : List Cookie)
    (frame : List Instruction) : List Char :=
  let kept := (fromFrame path.text frame).bind fun feedback => stored feedback.setCookie
  let cookies := before.map Cookie.pair ++ kept.toList ++ after.map Cookie.pair
  let header := if cookies = [] then none else some (cookieHeader cookies)
  match FormFeedback.read header with
  | some feedback => fillFormFeedback page.fresh (feedback.entriesFor path.text)
  | none => page.fresh

/-- Every sink holds the text it shows in place, and all other bytes are those of the page. -/
def Agrees (page : Page) (frame : List Instruction) (filled : List Char) : Prop :=
  ∃ body : UInt32 → List Char, filled = page.html body ∧ (∀ id, '<' ∉ body id) ∧
    ∀ id ∈ ids page.pieces, characterData (body id) = applied page frame id

/-- A text that reads the same as bytes, as markup and as text, for a node the page has. -/
structure Plain (page : Page) (op : UInt32 × List Char) : Prop where
  known : op.1 ∈ page.anchors
  no_mark : op.2.head? ≠ some byteOrderMark
  no_return : '\r' ∉ op.2
  no_nul : nul ∉ op.2

def said (texts : List (UInt32 × List Char)) (id : UInt32) : List (List Char) :=
  (texts.filter fun op => op.1 = id).map Prod.snd

def NotClearedLate (texts : List (UInt32 × List Char)) (id : UInt32) : Prop :=
  (said texts id).getLast? = some [] → ∀ text ∈ said texts id, text = []

/-! ### In place -/

theorem withoutMark_eq {s : List Char} (h : s.head? ≠ some byteOrderMark) : withoutMark s = s := by
  cases s with
  | nil => rfl
  | cons c s =>
      have hc : c ≠ byteOrderMark := fun heq => h (congrArg some heq)
      rw [withoutMark, if_neg hc]

theorem applied_eq {page : Page} {frame : List Instruction} {texts : List (UInt32 × List Char)}
    (hsets : Sets frame texts) (hplain : ∀ op ∈ texts, Plain page op) :
    applied page frame = shownAfter texts := by
  unfold applied shownAfter
  rw [show setTexts frame = _ from hsets]
  clear hsets
  generalize (fun _ => [] : UInt32 → List Char) = shown
  induction texts generalizing shown with
  | nil => rfl
  | cons op texts ih =>
      rw [List.forall_mem_cons] at hplain
      obtain ⟨hop, hrest⟩ := hplain
      rw [List.map_cons, applySetTexts, if_pos hop.known, Utf8.lossy_encode,
        withoutMark_eq hop.no_mark, ih hrest]
      rfl

theorem shownAfter_eq (texts : List (UInt32 × List Char)) (id : UInt32) :
    shownAfter texts id = (said texts id).getLast?.getD [] := by
  induction texts using List.reverseRecOn with
  | nil => rfl
  | append_singleton texts op ih =>
      rw [shownAfter_append]
      by_cases hid : op.1 = id
      · rw [← hid, Function.update_self]
        simp [said]
      · rw [Function.update_of_ne (Ne.symm hid), ih]
        simp [said, hid]

theorem said_worded (texts : List (UInt32 × List Char)) (id : UInt32) :
    said (worded texts) id = (said texts id).filter (· ≠ []) := by
  rw [said, worded, List.filter_filter, said, List.filter_map, List.filter_filter]
  congr 2
  funext op
  exact Bool.and_comm _ _

theorem getLast_filter {α : Type*} [DecidableEq α] (l : List (List α)) :
    (l.filter (· ≠ [])).getLast?.getD [] = l.getLast?.getD [] ↔
      (l.getLast? = some [] → ∀ text ∈ l, text = []) := by
  cases hlast : l.getLast? with
  | none =>
      obtain rfl := List.getLast?_eq_none_iff.mp hlast
      simp
  | some text =>
      obtain ⟨front, rfl⟩ := List.getLast?_eq_some_iff.mp hlast
      by_cases htext : text = []
      · subst htext
        constructor
        · intro hsame _ t ht
          by_contra hne
          have hmem : t ∈ (front ++ [[]]).filter (· ≠ []) :=
            List.mem_filter.mpr ⟨ht, decide_eq_true hne⟩
          have hwords := List.getLast?_eq_some_getLast (List.ne_nil_of_mem hmem)
          have hin := List.getLast_mem (List.ne_nil_of_mem hmem)
          rw [hwords] at hsame
          exact of_decide_eq_true (List.mem_filter.mp hin).2 hsame
        · intro hall
          have hnone : (front ++ [[]]).filter (· ≠ []) = [] := by
            rw [List.filter_eq_nil_iff]
            intro t ht
            simp [hall rfl t ht]
          rw [hnone]
          rfl
      · have hkept : (front ++ [text]).filter (· ≠ []) = front.filter (· ≠ []) ++ [text] := by
          simp [List.filter_append, htext]
        rw [hkept, List.getLast?_concat]
        exact ⟨fun _ hempty => absurd (Option.some.inj hempty) htext, fun _ => rfl⟩

theorem shownAfter_worded {texts : List (UInt32 × List Char)} {id : UInt32} :
    shownAfter (worded texts) id = shownAfter texts id ↔ NotClearedLate texts id := by
  rw [shownAfter_eq, shownAfter_eq, said_worded, getLast_filter]
  rfl

theorem shownAfter_cases (texts : List (UInt32 × List Char)) (id : UInt32) :
    shownAfter texts id = [] ∨ ∃ op ∈ texts, op.2 = shownAfter texts id := by
  rw [shownAfter_eq]
  cases hlast : (said texts id).getLast? with
  | none => exact Or.inl rfl
  | some text =>
      obtain ⟨op, hop, htext⟩ := List.mem_map.mp (List.mem_of_getLast? hlast)
      exact Or.inr ⟨op, List.mem_of_mem_filter hop, htext⟩

/-! ### Carried -/

theorem RequestPath.withoutFragment_eq (path : RequestPath) : withoutFragment path.text = path.text := by
  rw [withoutFragment, List.takeWhile_eq_self_iff]
  intro c hc
  rw [decide_eq_true_eq]
  rintro rfl
  exact path.no_fragment hc

theorem carried_eq {page : Page} {path : RequestPath} {before after : List Cookie}
    {frame : List Instruction} {texts : List (UInt32 × List Char)}
    (hbefore : ∀ cookie ∈ before, cookie.name ≠ feedbackCookie)
    (hafter : ∀ cookie ∈ after, cookie.name ≠ feedbackCookie) (hsets : Sets frame texts)
    (hfits : ((worded texts).map cost).sum ≤ budgetFor path.text) :
    carried page path before after frame =
      page.html fun id => escapeAttributeValue (shownAfter (worded texts) id) := by
  have hwords : ∀ op ∈ worded texts, op.2 ≠ [] := fun op hop =>
    of_decide_eq_true (List.mem_filter.mp hop).2
  unfold carried
  rw [fromFrame_eq hsets hfits, path.withoutFragment_eq]
  by_cases hempty : worded texts = []
  · have hread : FormFeedback.read (if before.map Cookie.pair ++ after.map Cookie.pair = [] then none
        else some (cookieHeader (before.map Cookie.pair ++ after.map Cookie.pair))) = none := by
      split_ifs
      · rfl
      · rw [← List.map_append]
        apply read_cookieHeader_none
        intro cookie hcookie
        exact (List.mem_append.mp hcookie).elim (hbefore cookie) (hafter cookie)
    rw [if_pos hempty, hempty]
    simp only [Option.bind_none, Option.toList_none, List.append_nil, hread]
    rfl
  · rw [if_neg hempty]
    simp only [Option.bind_some, stored_setCookie, Option.toList_some]
    have hcookies : before.map Cookie.pair ++ [(FormFeedback.mk path.text (worded texts).reverse).cookie.pair] ++
        after.map Cookie.pair =
          (before ++ (FormFeedback.mk path.text (worded texts).reverse).cookie :: after).map
            Cookie.pair := by
      simp
    rw [hcookies, if_neg (by simp), read_cookieHeader _ hbefore]
    simp only [FormFeedback.entriesFor, if_true]
    rw [Page.fresh, fillFormFeedback_html page (fun _ => List.not_mem_nil)]
    congr 1
    funext id
    rw [foldl_paint_reverse hwords, if_pos rfl]

theorem html_inj {page : Page} {body body' : UInt32 → List Char} (hbody : ∀ id, '<' ∉ body id)
    (hbody' : ∀ id, '<' ∉ body' id) (h : page.html body = page.html body') :
    ∀ id ∈ ids page.pieces, body id = body' id := by
  unfold Page.html at h
  generalize page.pieces = pieces at h
  induction pieces with
  | nil => exact fun _ hid => absurd hid List.not_mem_nil
  | cons piece pieces ih =>
      simp only [markup, Sink.element, List.append_assoc, List.cons_append,
        List.append_cancel_left_eq] at h
      have hopen : closing = '<' :: closing.tail := by decide
      rw [hopen, List.cons_append, List.cons_append] at h
      obtain ⟨hfirst, hrest⟩ := Separator.append_separator_inj (hbody _) (hbody' _)
        (List.cons.inj h).2
      rw [ids, List.map_cons, List.forall_mem_cons]
      exact ⟨hfirst, ih (List.append_cancel_left hrest)⟩

/-! ### Both ways -/

theorem agrees_iff_shown {page : Page} {frame : List Instruction}
    {texts : List (UInt32 × List Char)} (hsets : Sets frame texts)
    (hplain : ∀ op ∈ texts, Plain page op) :
    Agrees page frame (page.html fun id => escapeAttributeValue (shownAfter (worded texts) id)) ↔
      ∀ id ∈ ids page.pieces, shownAfter (worded texts) id = shownAfter texts id := by
  have hescaped : ∀ id, '<' ∉ escapeAttributeValue (shownAfter (worded texts) id) :=
    fun id => not_mem_escape (Or.inl rfl) _
  have hread : ∀ id, characterData (escapeAttributeValue (shownAfter (worded texts) id)) =
      shownAfter (worded texts) id := by
    intro id
    rcases shownAfter_cases (worded texts) id with hnone | ⟨op, hop, htext⟩
    · rw [hnone]
      rfl
    · have hop := hplain op (List.mem_of_mem_filter hop)
      rw [← htext]
      exact characterData_escape hop.no_return hop.no_nul
  constructor
  · rintro ⟨body, hfilled, hbody, hshown⟩ id hid
    have hsame := html_inj hescaped hbody hfilled id hid
    rw [← applied_eq hsets hplain, ← hshown id hid, ← hsame, hread]
  · intro hall
    refine ⟨_, rfl, hescaped, ?_⟩
    intro id hid
    rw [hread, applied_eq hsets hplain]
    exact hall id hid

theorem noSink_of_short {text : List Char} (h : text.length < opening.length) : NoSink text := by
  intro id marker hwithin
  have hlength := hwithin.length_le
  rw [head, List.append_assoc, List.length_append] at hlength
  omega

def joinPage : Page where
  pieces := [("<form>".toList, formOkSpan 7 "albedo-feedback-join".toList)]
  last := "</form>".toList
  others := []
  no_sink := by
    intro piece hpiece
    obtain rfl := List.mem_singleton.mp hpiece
    exact noSink_of_short (by decide)
  no_sink_last := noSink_of_short (by decide)
  once := by decide

def homePath : RequestPath where
  text := ['/']
  no_query := by decide
  no_fragment := by decide

def joined : Instruction := .setText 7 ⟨Utf8.encode "Joined.".toList, by decide⟩

def cleared : Instruction := .setText 7 ⟨[], by decide⟩

theorem plain_joined : Plain joinPage (7, "Joined.".toList) :=
  ⟨by decide, by decide, by decide, by decide⟩

theorem plain_cleared : Plain joinPage (7, []) := ⟨by decide, by decide, by decide, by decide⟩

end Albedo.Forms
