import Albedo.Forms.Feedback
import Albedo.Ir.Bakabox
import Mathlib.Logic.Function.Basic

/-!
# Sinks on a page

A page reserves an empty element for each thing a form may say. What was carried to a render is
written into these by searching for their markup, escaped, and only where one is empty. A browser
that has the frame sets their texts in place, one after another.
-/
namespace Albedo.Forms
open Ir Separator

/-! ### Escaping -/

/-- `str::replace` of one character. -/
def replaceChar (c : Char) (by' : List Char) (s : List Char) : List Char :=
  s.flatMap fun x => if x = c then by' else [x]

def escapeAttributeValue (raw : List Char) : List Char :=
  replaceChar '>' "&gt;".toList (replaceChar '<' "&lt;".toList
    (replaceChar '"' "&quot;".toList (replaceChar '&' "&amp;".toList raw)))

def escapeChar (c : Char) : List Char :=
  if c = '&' then "&amp;".toList else if c = '"' then "&quot;".toList
  else if c = '<' then "&lt;".toList else if c = '>' then "&gt;".toList else [c]

theorem escapeAttributeValue_eq (raw : List Char) :
    escapeAttributeValue raw = raw.flatMap escapeChar := by
  unfold escapeAttributeValue replaceChar
  rw [List.flatMap_assoc, List.flatMap_assoc, List.flatMap_assoc]
  congr 1
  funext c
  unfold escapeChar
  split_ifs with hamp hquote hopen hclose
  · rfl
  · rw [hquote]
    rfl
  · rw [hopen]
    rfl
  · rw [hclose]
    rfl
  · simp [hquote, hopen, hclose]

theorem not_mem_escapeChar {d : Char} (hd : d = '<' ∨ d = '>') (c : Char) : d ∉ escapeChar c := by
  unfold escapeChar
  rcases hd with rfl | rfl
  · split_ifs with hamp hquote hopen hclose
    · decide
    · decide
    · decide
    · decide
    · exact fun hmem => hopen (List.mem_singleton.mp hmem).symm
  · split_ifs with hamp hquote hopen hclose
    · decide
    · decide
    · decide
    · decide
    · exact fun hmem => hclose (List.mem_singleton.mp hmem).symm

theorem not_mem_escape {d : Char} (hd : d = '<' ∨ d = '>') (s : List Char) :
    d ∉ escapeAttributeValue s := by
  rw [escapeAttributeValue_eq, List.mem_flatMap]
  rintro ⟨c, -, hc⟩
  exact not_mem_escapeChar hd c hc

theorem escape_eq_nil {s : List Char} : escapeAttributeValue s = [] ↔ s = [] := by
  constructor
  · intro h
    cases s with
    | nil => rfl
    | cons c s =>
        rw [escapeAttributeValue_eq, List.flatMap_cons, List.append_eq_nil_iff] at h
        unfold escapeChar at h
        split_ifs at h <;> cases h.1
  · rintro rfl
    rfl

/-- Line ends are one character before an HTML parser looks at them. -/
def newlines : List Char → List Char
  | '\r' :: '\n' :: s => '\n' :: newlines s
  | '\r' :: s => '\n' :: newlines s
  | c :: s => c :: newlines s
  | [] => []

def references : List Char → List Char
  | '&' :: 'a' :: 'm' :: 'p' :: ';' :: s => '&' :: references s
  | '&' :: 'q' :: 'u' :: 'o' :: 't' :: ';' :: s => '"' :: references s
  | '&' :: 'l' :: 't' :: ';' :: s => '<' :: references s
  | '&' :: 'g' :: 't' :: ';' :: s => '>' :: references s
  | c :: s => c :: references s
  | [] => []

def nul : Char := Char.ofNat 0

def characterData (markup : List Char) : List Char :=
  references ((newlines markup).filter (· ≠ nul))

theorem newlines_eq {s : List Char} (h : '\r' ∉ s) : newlines s = s := by
  fun_induction newlines s with
  | case1 s ih => exact absurd List.mem_cons_self h
  | case2 s hne ih => exact absurd List.mem_cons_self h
  | case3 c s hcr hlf ih => rw [ih fun hmem => h (List.mem_cons_of_mem c hmem)]
  | case4 => rfl

theorem references_escapeChar (c : Char) (s : List Char) :
    references (escapeChar c ++ s) = c :: references s := by
  unfold escapeChar
  split_ifs with hamp hquote hopen hclose
  · rw [hamp]
    rfl
  · rw [hquote]
    rfl
  · rw [hopen]
    rfl
  · rw [hclose]
    rfl
  · rw [List.singleton_append, references]
    all_goals exact fun _ heq _ => hamp heq

theorem mem_of_mem_escape {s : List Char} {d : Char} (hd : d = '\r' ∨ d = nul)
    (h : d ∈ escapeAttributeValue s) : d ∈ s := by
  rw [escapeAttributeValue_eq, List.mem_flatMap] at h
  obtain ⟨c, hc, hmem⟩ := h
  unfold escapeChar at hmem
  rcases hd with rfl | rfl
  · split_ifs at hmem <;>
      first | exact absurd hmem (by decide) | exact List.mem_singleton.mp hmem ▸ hc
  · split_ifs at hmem <;>
      first | exact absurd hmem (by decide) | exact List.mem_singleton.mp hmem ▸ hc

theorem references_escape (s : List Char) : references (escapeAttributeValue s) = s := by
  rw [escapeAttributeValue_eq]
  induction s with
  | nil => rfl
  | cons c s ih => rw [List.flatMap_cons, references_escapeChar, ih]

theorem characterData_escape {s : List Char} (hreturn : '\r' ∉ s) (hnul : nul ∉ s) :
    characterData (escapeAttributeValue s) = s := by
  have hkept : (escapeAttributeValue s).filter (· ≠ nul) = escapeAttributeValue s := by
    rw [List.filter_eq_self]
    intro c hc
    rw [decide_eq_true_eq]
    rintro rfl
    exact hnul (mem_of_mem_escape (Or.inr rfl) hc)
  rw [characterData, newlines_eq fun h => hreturn (mem_of_mem_escape (Or.inl rfl) h), hkept,
    references_escape]

/-! ### The markup of a sink -/

inductive Marker
  | error | ok
  deriving DecidableEq

def Marker.text : Marker → List Char
  | .error => "data-albedo-error".toList
  | .ok => "data-albedo-ok".toList

def opening : List Char := "<span data-albedo-id=\"".toList

def head (id : UInt32) (marker : Marker) : List Char :=
  opening ++ decimal id ++ '"' :: ' ' :: marker.text

structure Sink where
  stableId : UInt32
  marker : Marker
  /-- What stands in the tag after the marker. -/
  attributes : List Char
  no_open : '<' ∉ attributes
  no_close : '>' ∉ attributes

def Sink.tag (sink : Sink) : List Char := head sink.stableId sink.marker ++ sink.attributes

def closing : List Char := "</span>".toList

def Sink.element (sink : Sink) (body : List Char) : List Char :=
  sink.tag ++ '>' :: (body ++ closing)

/-- `field_error_span`: the sink of one field. -/
def fieldErrorSpan (id : UInt32) (field : List Char) : Sink where
  stableId := id
  marker := .error
  attributes := "=\"".toList ++ escapeAttributeValue field ++ "\"".toList
  no_open := by
    have hfield := not_mem_escape (d := '<') (Or.inl rfl) field
    simp [hfield]
  no_close := by
    have hfield := not_mem_escape (d := '>') (Or.inr rfl) field
    simp [hfield]

/-- `form_ok_span`: the sink of a form that went well. -/
def formOkSpan (id : UInt32) (anchor : List Char) : Sink where
  stableId := id
  marker := .ok
  attributes := " id=\"".toList ++ escapeAttributeValue anchor ++ "\" role=\"status\"".toList
  no_open := by
    have hanchor := not_mem_escape (d := '<') (Or.inl rfl) anchor
    simp [hanchor]
  no_close := by
    have hanchor := not_mem_escape (d := '>') (Or.inr rfl) anchor
    simp [hanchor]

example : (fieldErrorSpan 7 "email".toList).element [] =
    "<span data-albedo-id=\"7\" data-albedo-error=\"email\"></span>".toList := by decide

def NoSink (text : List Char) : Prop := ∀ id marker, ¬ head id marker <:+: text

def markup (last : List Char) (body : UInt32 → List Char) : List (List Char × Sink) → List Char
  | [] => last
  | piece :: pieces =>
      piece.1 ++ (piece.2.element (body piece.2.stableId) ++ markup last body pieces)

def ids (pieces : List (List Char × Sink)) : List UInt32 := pieces.map fun piece => piece.2.stableId

structure Page where
  pieces : List (List Char × Sink)
  last : List Char
  /-- The ids of its other nodes. -/
  others : List UInt32
  no_sink : ∀ piece ∈ pieces, NoSink piece.1
  no_sink_last : NoSink last
  once : (ids pieces ++ others).Nodup

def Page.html (page : Page) (body : UInt32 → List Char) : List Char :=
  markup page.last body page.pieces

/-! ### Filling -/

/-- The inner loop of `fill_form_feedback`. -/
def fillMarkers (id : UInt32) (text : List Char) : List Marker → List Char → List Char
  | [], out => out
  | marker :: markers, out =>
      match find (head id marker) out with
      | none => fillMarkers id text markers out
      | some (before, found) =>
          match splitOnce '>' found with
          | none => out
          | some (tag, body) =>
              if closing <+: body then before ++ tag ++ '>' :: (escapeAttributeValue text ++ body)
              else out

def fillEntry (out : List Char) (entry : UInt32 × List Char) : List Char :=
  if entry.2 = [] then out else fillMarkers entry.1 entry.2 [.error, .ok] out

def fillFormFeedback (html : List Char) (entries : List (UInt32 × List Char)) : List Char :=
  entries.foldl fillEntry html

/-! ### Where a sink is found -/

def headTail (id : UInt32) (marker : Marker) : List Char :=
  opening.tail ++ decimal id ++ '"' :: ' ' :: marker.text

theorem opening_eq : opening = '<' :: opening.tail := by decide

theorem head_eq (id : UInt32) (marker : Marker) : head id marker = '<' :: headTail id marker := by
  rw [head, headTail, opening_eq, List.tail_cons]
  rfl

theorem not_mem_decimal {d : Char} (hd : d.isDigit = false) (id : UInt32) : d ∉ decimal id := by
  intro hmem
  rw [isDigit_decimal id d hmem] at hd
  cases hd

theorem not_mem_headTail {d : Char} (hd : d = '<' ∨ d = '>') (id : UInt32) (marker : Marker) :
    d ∉ headTail id marker := by
  have hopening : d ∉ opening.tail := by
    rcases hd with rfl | rfl <;> decide
  have hdigit : d ∉ decimal id := by
    apply not_mem_decimal
    rcases hd with rfl | rfl <;> decide
  have hmarker : d ∉ '"' :: ' ' :: marker.text := by
    rcases hd with rfl | rfl <;> cases marker <;> decide
  intro hmem
  rcases List.mem_append.mp hmem with hmem | hmem
  · exact (List.mem_append.mp hmem).elim hopening hdigit
  · exact hmarker hmem

theorem decimal_inj {id id' : UInt32} (h : decimal id = decimal id') : id = id' := by
  have hparse := parseU32_decimal id
  rw [h, parseU32_decimal] at hparse
  exact (Option.some.inj hparse).symm

theorem Marker.text_append_inj {marker marker' : Marker} {xs ys : List Char}
    (h : marker.text ++ xs = marker'.text ++ ys) : marker = marker' := by
  -- the two texts part at the first letter after `data-albedo-`
  have hletter := congrArg (fun l => l[12]?) h
  have hshort : ∀ m : Marker, 12 < m.text.length := by
    intro m
    cases m <;> decide
  rw [List.getElem?_append_left (hshort marker), List.getElem?_append_left (hshort marker')] at hletter
  cases marker <;> cases marker' <;> first | rfl | exact absurd hletter (by decide)

theorem head_prefix {id id' : UInt32} {marker marker' : Marker} {rest : List Char} :
    head id marker <+: head id' marker' ++ rest ↔ id' = id ∧ marker' = marker := by
  constructor
  · intro hstarts
    obtain ⟨after, h⟩ := hstarts
    have hquote : ∀ id : UInt32, '"' ∉ decimal id := not_mem_decimal (by decide)
    unfold head at h
    rw [List.append_assoc, List.append_assoc, List.append_assoc, List.append_assoc,
      List.append_cancel_left_eq, List.cons_append, List.cons_append] at h
    obtain ⟨hdecimal, hrest⟩ := append_separator_inj (hquote id) (hquote id') h
    exact ⟨(decimal_inj hdecimal).symm, (Marker.text_append_inj (List.cons.inj hrest).2).symm⟩
  · rintro ⟨rfl, rfl⟩
    exact List.prefix_append _ _

theorem not_prefix_closing {id : UInt32} {marker : Marker} {rest : List Char} :
    ¬ head id marker <+: closing ++ rest := by
  intro hstarts
  obtain ⟨after, h⟩ := hstarts
  have hletter := congrArg (fun l => l[1]?) h
  have hhead : 1 < opening.length := by decide
  have hclosing : 1 < closing.length := by decide
  rw [head, List.append_assoc, List.append_assoc, List.getElem?_append_left hhead,
    List.getElem?_append_left hclosing] at hletter
  exact absurd hletter (by decide)

theorem find_piece {id : UInt32} {marker : Marker} {text body : List Char} {sink : Sink}
    (htext : NoSink text) (hbody : '<' ∉ body) (rest : List Char) :
    find (head id marker) (text ++ (sink.element body ++ rest)) =
      if sink.stableId = id ∧ sink.marker = marker then some (text, sink.element body ++ rest)
      else (find (head id marker) rest).map fun parts =>
        (text ++ (sink.element body ++ parts.1), parts.2) := by
  have htail : '<' ∉ headTail id marker := not_mem_headTail (Or.inl rfl) id marker
  have helement : sink.element body ++ rest = '<' :: (headTail sink.stableId sink.marker ++
      sink.attributes ++ '>' :: body ++ (closing ++ rest)) := by
    simp [Sink.element, Sink.tag, head_eq]
  have hstarts : head id marker <+: sink.element body ++ rest ↔
      sink.stableId = id ∧ sink.marker = marker := by
    rw [Sink.element, Sink.tag, List.append_assoc, List.append_assoc]
    exact head_prefix
  have hfind : find (head id marker) (text ++ (sink.element body ++ rest)) =
      (find (head id marker) (sink.element body ++ rest)).map fun parts =>
        (text ++ parts.1, parts.2) := by
    rw [helement, head_eq]
    exact find_append htail (htext id marker)
  rw [hfind]
  split_ifs with hsink
  · rw [find_at_start (hstarts.mpr hsink)]
    simp
  · -- the search goes past the tag, the text in it and the closing tag
    have hopen : '<' ∉ headTail sink.stableId sink.marker ++ sink.attributes ++ '>' :: body := by
      have hhead := not_mem_headTail (Or.inl rfl) sink.stableId sink.marker
      have hattributes := sink.no_open
      simp [hhead, hattributes, hbody]
    have hclosing : closing ++ rest = '<' :: ("/span>".toList ++ rest) := rfl
    have hpast := @find_append_of_not_mem Char '<' (headTail id marker) "/span>".toList rest _ (by decide)
    have hnot : ¬ head id marker <+: sink.element body ++ rest := fun h => hsink (hstarts.mp h)
    rw [helement] at hnot ⊢
    rw [find, if_neg hnot, head_eq, find_append_of_not_mem hopen, hclosing, find,
      if_neg (hclosing ▸ not_prefix_closing), hpast]
    simp only [Option.map_map]
    congr 1
    funext parts
    simp [Sink.element, Sink.tag, head_eq, closing]

def ahead (body : UInt32 → List Char) (pieces : List (List Char × Sink)) : List Char :=
  markup [] body pieces

theorem markup_append (last : List Char) (body : UInt32 → List Char)
    (front back : List (List Char × Sink)) :
    markup last body (front ++ back) = ahead body front ++ markup last body back := by
  induction front with
  | nil => rfl
  | cons piece front ih => simp [markup, ahead, ih]

section Search

variable {id : UInt32} {marker : Marker} {body : UInt32 → List Char} {last : List Char}
  {front back : List (List Char × Sink)} {piece : List Char × Sink}

theorem find_markup_none (hno : ∀ piece ∈ front, NoSink piece.1) (hlast : NoSink last)
    (hbody : ∀ id, '<' ∉ body id)
    (hother : ∀ piece ∈ front, ¬ (piece.2.stableId = id ∧ piece.2.marker = marker)) :
    find (head id marker) (markup last body front) = none := by
  induction front with
  | nil => exact find_eq_none (hlast id marker)
  | cons piece front ih =>
      rw [List.forall_mem_cons] at hno hother
      rw [markup, find_piece hno.1 (hbody _), if_neg hother.1, ih hno.2 hother.2]
      rfl

theorem find_markup (hno : ∀ piece ∈ front, NoSink piece.1) (htext : NoSink piece.1)
    (hbody : ∀ id, '<' ∉ body id)
    (hother : ∀ piece ∈ front, ¬ (piece.2.stableId = id ∧ piece.2.marker = marker))
    (hpiece : piece.2.stableId = id ∧ piece.2.marker = marker) :
    find (head id marker) (markup last body (front ++ piece :: back)) =
      some (ahead body front ++ piece.1,
        piece.2.element (body piece.2.stableId) ++ markup last body back) := by
  induction front with
  | nil =>
      rw [List.nil_append, markup, find_piece htext (hbody _), if_pos hpiece]
      rfl
  | cons other front ih =>
      rw [List.forall_mem_cons] at hno hother
      rw [List.cons_append, markup, find_piece hno.1 (hbody _), if_neg hother.1, ih hno.2 hother.2]
      simp [ahead, markup]

end Search

/-! ### What one entry fills -/

/-- A sink is empty, or has the text that was written first. -/
def paint (body : UInt32 → List Char) (entry : UInt32 × List Char) : UInt32 → List Char :=
  if entry.2 = [] ∨ body entry.1 ≠ [] then body
  else Function.update body entry.1 (escapeAttributeValue entry.2)

theorem markup_congr {last : List Char} {body body' : UInt32 → List Char}
    {pieces : List (List Char × Sink)} (h : ∀ id ∈ ids pieces, body id = body' id) :
    markup last body pieces = markup last body' pieces := by
  induction pieces with
  | nil => rfl
  | cons piece pieces ih =>
      rw [ids, List.map_cons, List.forall_mem_cons] at h
      rw [markup, markup, h.1, ih h.2]

theorem closing_starts {body rest : List Char} (hbody : '<' ∉ body) :
    closing <+: body ++ (closing ++ rest) ↔ body = [] := by
  constructor
  · intro hstarts
    obtain ⟨after, h⟩ := hstarts
    cases body with
    | nil => rfl
    | cons c body =>
        have hfirst := congrArg List.head? h
        have hc : '<' = c := Option.some.inj hfirst
        exact absurd (hc ▸ List.mem_cons_self) hbody
  · rintro rfl
    exact List.prefix_append _ _

theorem fillMarkers_found {id : UInt32} {marker : Marker} {markers : List Marker}
    {text before body rest out : List Char} {sink : Sink}
    (hfind : find (head id marker) out = some (before, sink.element body ++ rest))
    (hbody : '<' ∉ body) :
    fillMarkers id text (marker :: markers) out =
      if body = [] then before ++ (sink.element (escapeAttributeValue text) ++ rest) else out := by
  have htag : '>' ∉ sink.tag := by
    have hhead : '>' ∉ head sink.stableId sink.marker := by
      rw [head_eq]
      exact List.not_mem_cons_of_ne_of_not_mem (by decide) (not_mem_headTail (Or.inr rfl) _ _)
    exact fun hmem => (List.mem_append.mp hmem).elim hhead sink.no_close
  have hsplit : splitOnce '>' (sink.element body ++ rest) =
      some (sink.tag, body ++ (closing ++ rest)) := by
    rw [Sink.element, List.append_assoc, List.cons_append, splitOnce_append htag, List.append_assoc]
  rw [fillMarkers, hfind]
  dsimp only
  rw [hsplit]
  dsimp only
  simp only [closing_starts hbody]
  split_ifs with hempty
  · rw [hempty, Sink.element]
    simp
  · rfl

theorem paint_of_not_mem {last : List Char} {body : UInt32 → List Char}
    {entry : UInt32 × List Char} {pieces : List (List Char × Sink)} (h : entry.1 ∉ ids pieces) :
    markup last (paint body entry) pieces = markup last body pieces := by
  unfold paint
  split_ifs
  · rfl
  · exact markup_congr fun id hid => Function.update_of_ne (ne_of_mem_of_not_mem hid h) _ _

theorem fillEntry_html (page : Page) {body : UInt32 → List Char} (hbody : ∀ id, '<' ∉ body id)
    (entry : UInt32 × List Char) :
    fillEntry (page.html body) entry = page.html (paint body entry) := by
  by_cases hempty : entry.2 = []
  · rw [fillEntry, if_pos hempty, paint, if_pos (Or.inl hempty)]
  rw [fillEntry, if_neg hempty]
  have hnone : ∀ marker, (∀ piece ∈ page.pieces,
      ¬ (piece.2.stableId = entry.1 ∧ piece.2.marker = marker)) →
      find (head entry.1 marker) (page.html body) = none := fun marker hother =>
    find_markup_none page.no_sink page.no_sink_last hbody hother
  by_cases hin : entry.1 ∈ ids page.pieces
  · obtain ⟨piece, hpiece, hid⟩ := List.mem_map.mp hin
    obtain ⟨front, back, hpieces⟩ := List.append_of_mem hpiece
    -- its id is the id of no other sink
    have honce : (ids front ++ piece.2.stableId :: ids back).Nodup := by
      have hids := (List.nodup_append.mp page.once).1
      rw [hpieces, ids, List.map_append] at hids
      exact hids
    have hfront : entry.1 ∉ ids front := by
      intro hmem
      exact (List.nodup_append.mp honce).2.2 _ hmem _ List.mem_cons_self hid.symm
    have hback : entry.1 ∉ ids back := by
      rw [← hid]
      exact (List.nodup_cons.mp (List.nodup_append.mp honce).2.1).1
    have hno := page.no_sink
    rw [hpieces] at hno
    have hfound : find (head entry.1 piece.2.marker) (page.html body) =
        some (ahead body front ++ piece.1,
          piece.2.element (body piece.2.stableId) ++ markup page.last body back) := by
      rw [Page.html, hpieces]
      refine find_markup (fun other h => hno other (List.mem_append_left _ h))
        (hno piece (List.mem_append_right _ List.mem_cons_self)) hbody ?_ ⟨hid, rfl⟩
      rintro other hother ⟨hsame, -⟩
      exact hfront (List.mem_map.mpr ⟨other, hother, hsame⟩)
    have hpainted : page.html (paint body entry) = if body piece.2.stableId = [] then
        ahead body front ++ piece.1 ++ (piece.2.element (escapeAttributeValue entry.2) ++
          markup page.last body back) else page.html body := by
      rw [Page.html, hpieces, markup_append, markup, ahead, paint_of_not_mem hfront,
        paint_of_not_mem hback, Page.html, hpieces, markup_append, markup, ahead, paint, hid]
      split_ifs with hstays hfree hfree
      · exact absurd hfree (hstays.resolve_left hempty)
      · rfl
      · rw [Function.update_self]
        simp
      · exact absurd (Or.inr hfree) hstays
    rw [hpainted]
    cases hmarker : piece.2.marker with
    | error =>
        rw [hmarker] at hfound
        exact fillMarkers_found hfound (hbody _)
    | ok =>
        rw [hmarker] at hfound
        have herror : find (head entry.1 .error) (page.html body) = none := by
          apply hnone
          rintro other hother ⟨hsame, herr⟩
          rw [hpieces, List.mem_append, List.mem_cons] at hother
          rcases hother with hother | rfl | hother
          · exact hfront (List.mem_map.mpr ⟨other, hother, hsame⟩)
          · rw [hmarker] at herr
            cases herr
          · exact hback (List.mem_map.mpr ⟨other, hother, hsame⟩)
        rw [fillMarkers, herror]
        exact fillMarkers_found hfound (hbody _)
  · have hother : ∀ marker, ∀ piece ∈ page.pieces,
        ¬ (piece.2.stableId = entry.1 ∧ piece.2.marker = marker) := by
      rintro marker piece hpiece ⟨hsame, -⟩
      exact hin (List.mem_map.mpr ⟨piece, hpiece, hsame⟩)
    rw [fillMarkers, hnone .error (hother .error), fillMarkers, hnone .ok (hother .ok)]
    exact (paint_of_not_mem hin).symm

theorem paint_plain {body : UInt32 → List Char} (hbody : ∀ id, '<' ∉ body id)
    (entry : UInt32 × List Char) : ∀ id, '<' ∉ paint body entry id := by
  intro id
  unfold paint
  split_ifs
  · exact hbody id
  · by_cases hid : id = entry.1
    · rw [hid, Function.update_self]
      exact not_mem_escape (Or.inl rfl) entry.2
    · rw [Function.update_of_ne hid]
      exact hbody id

theorem fillFormFeedback_html (page : Page) {body : UInt32 → List Char}
    (hbody : ∀ id, '<' ∉ body id) (entries : List (UInt32 × List Char)) :
    fillFormFeedback (page.html body) entries = page.html (entries.foldl paint body) := by
  induction entries generalizing body with
  | nil => rfl
  | cons entry entries ih =>
      rw [fillFormFeedback, List.foldl_cons, fillEntry_html page hbody, List.foldl_cons]
      exact ih (paint_plain hbody entry)

/-! ### The same frame in place -/

def shownAfter (texts : List (UInt32 × List Char)) : UInt32 → List Char :=
  texts.foldl (fun shown op => Function.update shown op.1 op.2) fun _ => []

theorem shownAfter_append (texts : List (UInt32 × List Char)) (op : UInt32 × List Char) :
    shownAfter (texts ++ [op]) = Function.update (shownAfter texts) op.1 op.2 := by
  simp [shownAfter, List.foldl_append]

theorem foldl_paint_reverse {texts : List (UInt32 × List Char)} (hworded : ∀ op ∈ texts, op.2 ≠ [])
    (body : UInt32 → List Char) (id : UInt32) : texts.reverse.foldl paint body id =
      if body id = [] then escapeAttributeValue (shownAfter texts id) else body id := by
  induction texts using List.reverseRecOn generalizing body with
  | nil =>
      split_ifs with hempty
      · exact hempty
      · rfl
  | append_singleton texts op ih =>
      have hop : op.2 ≠ [] := hworded op (List.mem_append_right _ List.mem_cons_self)
      have hescaped : escapeAttributeValue op.2 ≠ [] := fun h => hop (escape_eq_nil.mp h)
      have hrest : ∀ op ∈ texts, op.2 ≠ [] := fun op h => hworded op (List.mem_append_left _ h)
      rw [List.reverse_append, List.reverse_singleton, List.singleton_append, List.foldl_cons,
        ih hrest, shownAfter_append]
      by_cases hid : id = op.1
      · subst hid
        by_cases hfree : body op.1 = []
        · have hnot : ¬ (op.2 = [] ∨ body op.1 ≠ []) := by
            rintro (h | h)
            · exact hop h
            · exact h hfree
          rw [paint, if_neg hnot, Function.update_self, if_neg hescaped, if_pos hfree,
            Function.update_self]
        · rw [paint, if_pos (Or.inr hfree), if_neg hfree, if_neg hfree]
      · have hsame : paint body op id = body id := by
          unfold paint
          split_ifs
          · rfl
          · exact Function.update_of_ne hid _ _
        rw [hsame, Function.update_of_ne hid]

end Albedo.Forms
