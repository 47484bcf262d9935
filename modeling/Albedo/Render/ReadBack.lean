import Albedo.Render.Markup

/-!
# Keyed rows read back

The reader walks the tags of a rendered page from the anchor it found, one deeper for each element
that has children. Over a tree the walk is the tree's own recursion, so the rows it collects are the
keyed children of the anchor, as they were written. The anchor is found by its spelling, which text
is free to hold.
-/
namespace Albedo.Render
open Separator Trim Forge

variable {html rest tag characters : Html} {attributes : List Attribute} {spelling : Spelling}
  {children page : Fragment} {cursor fuel depth rowStart : ℕ} {rows : RenderedRows}
  {topic : String}

/-! ### The walk -/

def Spelling.closings : Spelling → ℕ
  | .paired => 1
  | _ => 0

def Fragment.tags : Fragment → ℕ
  | .nil => 0
  | .text _ rest => rest.tags
  | .comment _ rest => rest.tags + 1
  | .element _ _ spelling children rest =>
      children.tags + (spelling.closings + rest.tags) + 1

theorem collectRows_text (hdrop : html.drop cursor = escapeHtml characters ++ rest) :
    collectRows html fuel cursor depth rowStart rows =
      collectRows html fuel (cursor + (escapeHtml characters).length) depth rowStart rows := by
  cases fuel with
  | zero => rfl
  | succ fuel => rw [collectRows, collectRows, nextTag_skip hdrop (not_mem_escapeHtml characters)]

theorem collectRows_comment (h : ClosesOnce characters)
    (hdrop : html.drop cursor = commentHtml characters ++ rest) :
    collectRows html (fuel + 1) cursor depth rowStart rows =
      collectRows html fuel (cursor + (commentHtml characters).length) depth rowStart rows := by
  rw [collectRows, nextTag_comment h hdrop]

theorem collectRows_voidClosing (h : Named tag attributes spelling) (hvoid : isVoid tag = true)
    (hdrop : html.drop cursor = closeTag tag spelling ++ rest) :
    collectRows html (spelling.closings + fuel) cursor depth rowStart rows =
      collectRows html fuel (cursor + (closeTag tag spelling).length) depth rowStart rows := by
  cases spelling with
  | paired =>
      have hclose : html.drop cursor = '<' :: '/' :: (tag ++ '>' :: rest) := by
        rw [hdrop]
        simp [closeTag]
      rw [Spelling.closings, Nat.add_comm 1, collectRows, nextTag_closeTag h hclose, if_pos hvoid]
      simp [closeTag]
  | selfClosed => simp [closeTag, Spelling.closings]
  | unclosed => simp [closeTag, Spelling.closings]

theorem tags_element (tag : Html) (attributes : List Attribute) (spelling : Spelling)
    (children siblings : Fragment) (fuel : ℕ) :
    (Fragment.element tag attributes spelling children siblings).tags + fuel =
      children.tags + (spelling.closings + (siblings.tags + fuel)) + 1 := by
  rw [Fragment.tags]
  omega

theorem length_element (tag : Html) (attributes : List Attribute) (spelling : Spelling)
    (children siblings : Fragment) (cursor : ℕ) :
    cursor + (Fragment.element tag attributes spelling children siblings).html.length =
      cursor + (openTag tag attributes spelling).length + children.html.length +
        (closeTag tag spelling).length + siblings.html.length := by
  simp only [Fragment.html, List.length_append]
  omega

theorem collectRows_closing (h : Named tag attributes spelling) (hvoid : isVoid tag = false)
    (hdrop : html.drop cursor = closeTag tag spelling ++ rest) :
    nextTag html cursor = some ⟨cursor, cursor + (closeTag tag spelling).length, .closing⟩ ∧
      spelling.closings = 1 := by
  obtain rfl := h.spelled hvoid
  have hclose : html.drop cursor = '<' :: '/' :: (tag ++ '>' :: rest) := by
    rw [hdrop]
    simp [closeTag]
  refine ⟨?_, rfl⟩
  rw [nextTag_closeTag h hclose, hvoid]
  simp [closeTag]

theorem collectRows_below (h : page.Readable) (hdrop : html.drop cursor = page.html ++ rest) :
    collectRows html (page.tags + fuel) cursor (depth + 1) rowStart rows =
      collectRows html fuel (cursor + page.html.length) (depth + 1) rowStart rows := by
  induction page generalizing cursor fuel depth rest with
  | nil => simp [Fragment.tags, Fragment.html]
  | text characters siblings ih =>
      rw [Fragment.html, List.append_assoc] at hdrop
      rw [Fragment.tags, collectRows_text hdrop, ih h (drop_of_drop hdrop), Fragment.html,
        List.length_append, Nat.add_assoc]
  | comment characters siblings ih =>
      rw [Fragment.html, List.append_assoc] at hdrop
      rw [Fragment.tags, Nat.add_right_comm, collectRows_comment h.1 hdrop,
        ih h.2 (drop_of_drop hdrop), Fragment.html, List.length_append, Nat.add_assoc]
  | element tag attributes spelling children siblings ihchildren ihsiblings =>
      obtain ⟨hnamed, hchildren, hsiblings⟩ := h
      simp only [Fragment.html, List.append_assoc] at hdrop
      have hafter := drop_of_drop hdrop
      have hclosing := drop_of_drop hafter
      have hrest := drop_of_drop hclosing
      rw [tags_element, length_element, collectRows, nextTag_openTag hnamed hdrop]
      cases hvoid : isVoid tag with
      | true =>
          simp only
          rw [ihchildren hchildren hafter, collectRows_voidClosing hnamed hvoid hclosing,
            ihsiblings hsiblings hrest]
      | false =>
          obtain ⟨hclose, hclosings⟩ := collectRows_closing hnamed hvoid hclosing
          simp only
          rw [ihchildren hchildren hafter, hclosings, Nat.add_comm 1, collectRows, hclose]
          simp only
          rw [ihsiblings hsiblings hrest]

theorem collectRows_rows (fuel rowStart : ℕ) (rows : RenderedRows) (h : page.Readable)
    (hkeys : page.SayKeys) (hdrop : html.drop cursor = page.html ++ rest) : ∃ rowStart',
      collectRows html (page.tags + fuel) cursor 0 rowStart rows =
        collectRows html fuel (cursor + page.html.length) 0 rowStart' (page.rows rows) := by
  induction page generalizing cursor fuel rowStart rows with
  | nil => exact ⟨rowStart, by simp [Fragment.tags, Fragment.html, Fragment.rows]⟩
  | text characters siblings ih =>
      rw [Fragment.html, List.append_assoc] at hdrop
      rw [Fragment.tags, collectRows_text hdrop, Fragment.html, List.length_append, ← Nat.add_assoc]
      exact ih _ _ _ h hkeys (drop_of_drop hdrop)
  | comment characters siblings ih =>
      rw [Fragment.html, List.append_assoc] at hdrop
      rw [Fragment.tags, Nat.add_right_comm, collectRows_comment h.1 hdrop, Fragment.html,
        List.length_append, ← Nat.add_assoc]
      exact ih _ _ _ h.2 hkeys (drop_of_drop hdrop)
  | element tag attributes spelling children siblings _ ih =>
      obtain ⟨hnamed, hchildren, hsiblings⟩ := h
      obtain ⟨hkey, hchildless, hkeys⟩ := hkeys
      simp only [Fragment.html, List.append_assoc] at hdrop
      have hafter := drop_of_drop hdrop
      have hclosing := drop_of_drop hafter
      have hrest := drop_of_drop hclosing
      rw [tags_element, length_element, collectRows, nextTag_openTag hnamed hdrop]
      cases hvoid : isVoid tag with
      | true =>
          obtain rfl := hchildless hvoid
          have houter : outerHtml tag attributes spelling .nil =
              openTag tag attributes spelling ++ [] := by
            rw [outerHtml, if_pos hvoid, List.append_nil]
          have hslice : slice html cursor (cursor + (openTag tag attributes spelling).length) =
              outerHtml tag attributes spelling .nil := by
            rw [slice_of_drop hdrop, houter, List.append_nil]
          have hrow := collectRow_outer rows hnamed hkey hslice houter
            (outerHtml_ne tag attributes spelling .nil)
          simp only [Fragment.tags, Nat.zero_add, Fragment.html, List.length_nil,
            Nat.add_zero] at hclosing hrest ⊢
          rw [collectRows_voidClosing hnamed hvoid hclosing, hrow]
          exact ih _ _ _ hsiblings hkeys hrest
      | false =>
          obtain ⟨hclose, hclosings⟩ := collectRows_closing hnamed hvoid hclosing
          have houter : outerHtml tag attributes spelling children =
              openTag tag attributes spelling ++ (children.html ++ closeTag tag spelling) := by
            rw [outerHtml, if_neg (by rw [hvoid]; exact Bool.false_ne_true)]
          have hslice : slice html cursor (cursor + (openTag tag attributes spelling).length +
              children.html.length + (closeTag tag spelling).length) =
                outerHtml tag attributes spelling children := by
            have hwhole : html.drop cursor = (openTag tag attributes spelling ++
                (children.html ++ closeTag tag spelling)) ++ (siblings.html ++ rest) := by
              rw [hdrop]
              simp
            rw [houter, ← slice_of_drop hwhole]
            simp [Nat.add_assoc]
          have hrow := collectRow_outer rows hnamed hkey hslice houter
            (outerHtml_ne tag attributes spelling children)
          simp only
          rw [collectRows_below hchildren hafter, hclosings, Nat.add_comm 1, collectRows, hclose]
          simp only
          rw [hrow]
          exact ih _ _ _ hsiblings hkeys hrest

theorem tags_le (page : Fragment) : page.tags ≤ page.html.length := by
  induction page with
  | nil => exact le_rfl
  | text characters siblings ih =>
      rw [Fragment.tags, Fragment.html, List.length_append]
      omega
  | comment characters siblings ih =>
      have hpos : 0 < (commentHtml characters).length := Nat.succ_pos _
      rw [Fragment.tags, Fragment.html, List.length_append]
      omega
  | element tag attributes spelling children siblings ihchildren ihsiblings =>
      have hopen : 0 < (openTag tag attributes spelling).length := Nat.succ_pos _
      have hclose : spelling.closings ≤ (closeTag tag spelling).length := by
        cases spelling <;> simp [Spelling.closings, closeTag]
      simp only [Fragment.tags, Fragment.html, List.length_append]
      omega

/-! ### The anchor -/

theorem anchor_html {before : Html} {anchor : Anchor}
    (h : page.anchor topic = some (before, anchor)) :
    ⟨listSlotAttr.toList, some topic.toList⟩ ∈ anchor.attributes ∧
      ∃ after, page.html = before ++ (openTag anchor.tag anchor.attributes anchor.spelling ++
        (anchor.children.html ++ (closeTag anchor.tag anchor.spelling ++ after))) := by
  induction page generalizing before with
  | nil => cases h
  | text characters siblings ih =>
      rw [Fragment.anchor, Option.map_eq_some_iff] at h
      obtain ⟨⟨found, anchor⟩, hfound, heq⟩ := h
      obtain ⟨rfl, rfl⟩ := Prod.mk.inj heq
      obtain ⟨hmem, after, hafter⟩ := ih hfound
      exact ⟨hmem, after, by rw [Fragment.html, hafter, List.append_assoc]⟩
  | comment characters siblings ih =>
      rw [Fragment.anchor, Option.map_eq_some_iff] at h
      obtain ⟨⟨found, anchor⟩, hfound, heq⟩ := h
      obtain ⟨rfl, rfl⟩ := Prod.mk.inj heq
      obtain ⟨hmem, after, hafter⟩ := ih hfound
      exact ⟨hmem, after, by rw [Fragment.html, hafter, List.append_assoc]⟩
  | element tag attributes spelling children siblings ihchildren ihsiblings =>
      rw [Fragment.anchor] at h
      by_cases hstamped : ⟨listSlotAttr.toList, some topic.toList⟩ ∈ attributes
      · rw [if_pos hstamped] at h
        obtain ⟨rfl, rfl⟩ := Prod.mk.inj (Option.some.inj h)
        exact ⟨hstamped, siblings.html, rfl⟩
      · rw [if_neg hstamped] at h
        cases hchildren : children.anchor topic with
        | some found =>
            rw [hchildren] at h
            obtain ⟨rfl, rfl⟩ := Prod.mk.inj (Option.some.inj h)
            obtain ⟨hmem, after, hafter⟩ := ihchildren hchildren
            refine ⟨hmem, after ++ (closeTag tag spelling ++ siblings.html), ?_⟩
            rw [Fragment.html, hafter]
            simp only [List.append_assoc]
        | none =>
            rw [hchildren] at h
            simp only [Option.map_eq_some_iff] at h
            obtain ⟨⟨found, anchor⟩, hfound, heq⟩ := h
            obtain ⟨rfl, rfl⟩ := Prod.mk.inj heq
            obtain ⟨hmem, after, hafter⟩ := ihsiblings hfound
            refine ⟨hmem, after, ?_⟩
            rw [Fragment.html, hafter]
            simp only [List.append_assoc]

theorem not_mem_anchorSpelling (topic : String) : '<' ∉ anchorSpelling topic := by
  have hescape : '<' ∉ escapeAttrValue topic.toList :=
    escapeAttrValue_eq topic.toList ▸ (not_mem_escapeAttr topic.toList).2.1
  simp [anchorSpelling, hescape, listSlotAttr]

theorem findAnchor_eq (html : Html) (topic : String) : findAnchor html topic =
    (find (anchorSpelling topic) html).bind fun found =>
      ((html.take found.1.length).reverse.findIdx? (· = '<')).bind fun back =>
        (nextTag html (found.1.length - 1 - back)).bind fun tag =>
          if tag.start = found.1.length - 1 - back ∧ tag.stop > found.1.length then some tag.stop
          else none :=
  rfl

theorem findAnchor_first {before : Html} (h : Named tag attributes spelling)
    (hstamped : ⟨listSlotAttr.toList, some topic.toList⟩ ∈ attributes)
    (hbefore : ¬ anchorSpelling topic <:+: before)
    (hhtml : html = before ++ (openTag tag attributes spelling ++ rest)) :
    findAnchor html topic = some (before.length + (openTag tag attributes spelling).length) := by
  obtain ⟨front, back, hattributes⟩ := List.append_of_mem hstamped
  let start := tag ++ (renderAttrs front ++ [' '])
  have hopen : openTag tag attributes spelling =
      '<' :: (start ++ (anchorSpelling topic ++ (renderAttrs back ++ spelling.ending))) := by
    rw [openTag, hattributes]
    simp [start, renderAttrs, Attribute.html, anchorSpelling, escapeAttrValue_eq]
  have hne : anchorSpelling topic ≠ [] := List.append_ne_nil_of_right_ne_nil _ (by decide)
  have hstart : '<' ∉ start := by
    have hfront : '<' ∉ renderAttrs front := not_mem_renderAttrs
      (fun attr hattr => h.attribute_name attr (hattributes ▸ List.mem_append_left _ hattr))
      (.inl rfl)
    simp only [start, List.mem_append, not_or]
    exact ⟨fun hmem => (h.tag_name.2 _ hmem).2.2.1 rfl, hfront, by decide⟩
  clear_value start
  obtain ⟨found, hfind, hle, happend⟩ := find_le (anchorSpelling topic) start
    (renderAttrs back ++ spelling.ending ++ rest)
  have hfound : '<' ∉ found.1 := by
    have hstarts := List.prefix_of_prefix_length_le ⟨found.2, happend⟩
      (List.prefix_append start _) hle
    exact fun hmem => hstart (hstarts.subset hmem)
  have hat : find (anchorSpelling topic) html = some (before ++ '<' :: found.1, found.2) := by
    rw [hhtml, hopen]
    simp only [List.cons_append, List.append_assoc] at hfind ⊢
    rw [find_past (not_mem_anchorSpelling topic) hne hbefore, hfind]
    rfl
  have htake : html.take (before ++ '<' :: found.1).length = before ++ '<' :: found.1 := by
    have hwhole : html = (before ++ '<' :: found.1) ++ found.2 := by
      rw [List.append_assoc, List.cons_append, happend, hhtml, hopen]
      simp
    rw [hwhole, List.take_left]
  have hback : ((before ++ '<' :: found.1).reverse).findIdx? (· = '<') = some found.1.length := by
    rw [List.reverse_append, List.reverse_cons, List.append_assoc, List.findIdx?_append,
      List.findIdx?_eq_none_iff.mpr]
    · simp [List.findIdx?_cons]
    · intro c hc
      rw [decide_eq_false_iff_not]
      rintro rfl
      exact hfound (List.mem_reverse.mp hc)
  have htag := nextTag_openTag h (show html.drop before.length = _ by rw [hhtml, List.drop_left])
  have hlong : found.1.length + 1 < (openTag tag attributes spelling).length := by
    have hpos := List.length_pos_iff.mpr hne
    rw [hopen, List.length_cons, List.length_append, List.length_append]
    omega
  have hback' : (before ++ '<' :: found.1).length - 1 - found.1.length = before.length := by
    rw [List.length_append, List.length_cons]
    omega
  rw [findAnchor_eq, hat]
  simp only [Option.bind_some, htake, hback, hback', htag]
  refine if_pos ⟨trivial, ?_⟩
  rw [List.length_append, List.length_cons]
  omega

/-! ### Reading back -/

/-- The rows of a page's list come back as they were rendered, each under the key a browser reports,
and a page without the list has none. -/
theorem rows_read_back (page : Fragment) (topic : String) (h : page.Unforged topic) :
    extractKeyedRows page.html topic =
      (page.anchor topic).map fun found => found.2.children.rows RenderedRows.new := by
  unfold Fragment.Unforged at h
  cases hanchor : page.anchor topic with
  | none =>
      simp only [hanchor] at h
      rw [extractKeyedRows, findAnchor_eq, find_eq_none h]
      rfl
  | some found =>
      obtain ⟨before, anchor⟩ := found
      simp only [hanchor] at h
      obtain ⟨hbefore, hvoid, hnamed, hreadable, hkeys⟩ := h
      obtain ⟨hstamped, after, hhtml⟩ := anchor_html hanchor
      have hcursor := drop_of_drop (show page.html.drop before.length = _ by
        rw [hhtml, List.drop_left])
      have hclosing := drop_of_drop hcursor
      obtain ⟨hclose, -⟩ := collectRows_closing hnamed hvoid hclosing
      -- every tag takes a character, so there is fuel for the anchor's own closing tag
      obtain ⟨spare, hfuel⟩ : ∃ spare,
          page.html.length + 1 = anchor.children.tags + (spare + 1) := by
        have hle := tags_le anchor.children
        refine ⟨page.html.length - anchor.children.tags, ?_⟩
        rw [hhtml]
        simp only [List.length_append]
        omega
      obtain ⟨rowStart, hrows⟩ := collectRows_rows (spare + 1) 0 RenderedRows.new hreadable hkeys
        hcursor
      rw [extractKeyedRows, findAnchor_first hnamed hstamped hbefore hhtml, Option.bind_some, hfuel,
        hrows, collectRows, hclose]
      rfl

/-! ### A guestbook -/

def keyedRow (key body : String) (rest : Fragment) : Fragment :=
  .element "li".toList [⟨rowKeyAttr.toList, some key.toList⟩] .paired (.text body.toList .nil) rest

def guestbook (title : String) : Fragment :=
  .element "h1".toList [] .paired (.text title.toList .nil)
    (.element "ul".toList [⟨listSlotAttr.toList, some "posts".toList⟩] .paired
      (keyedRow "a & b" "1 < 2" (keyedRow "2" "b" .nil)) .nil)

def forgedTitle : String :=
  "Write data-albedo-list-slot=\"posts\" on a list"

theorem named_one {tag name : String} (value : Option Html) (htag : IsName tag.toList)
    (hfirst : tag.toList.head? ≠ some '!' ∧ tag.toList.head? ≠ some '?')
    (hread : isVoidTag (tagName tag.toList) = isVoid tag.toList) (hname : IsName name.toList) :
    Named tag.toList [⟨name.toList, value⟩] .paired where
  tag_name := htag
  first := hfirst
  read_as := hread
  attribute_name _ hattr := List.mem_singleton.mp hattr ▸ hname
  spelled _ := rfl

theorem guestbook_named : Named "ul".toList [⟨listSlotAttr.toList, some "posts".toList⟩] .paired :=
  named_one _ (by decide) (by decide) (by decide) (by decide)

theorem keyedRow_readable (key body : String) {rest : Fragment} (h : rest.Readable) :
    (keyedRow key body rest).Readable :=
  ⟨named_one _ (by decide) (by decide) (by decide) (by decide), trivial, h⟩

theorem guestbook_readable (title : String) : (guestbook title).Readable :=
  ⟨⟨by decide, by decide, by decide, by simp, fun _ => rfl⟩, trivial,
    guestbook_named, keyedRow_readable _ _ (keyedRow_readable _ _ trivial), trivial⟩

theorem keyedRow_sayKeys {key : String} (body : String) {rest : Fragment}
    (hkey : '\r' ∉ key.toList ∧ Forms.nul ∉ key.toList) (h : rest.SayKeys) :
    (keyedRow key body rest).SayKeys := by
  refine ⟨⟨by simp, fun attr hattr => ?_⟩, fun hvoid => absurd hvoid (by decide), h⟩
  obtain rfl := List.mem_singleton.mp (List.mem_of_find?_eq_some hattr)
  exact ⟨key.toList, rfl, hkey⟩

theorem guestbook_unforged : (guestbook "Guestbook").Unforged "posts" :=
  show ¬ _ <:+: _ ∧ _ from ⟨by decide +kernel, by decide +kernel, guestbook_named,
    keyedRow_readable _ _ (keyedRow_readable _ _ trivial),
    keyedRow_sayKeys _ (by decide +kernel) (keyedRow_sayKeys _ (by decide +kernel) trivial)⟩

theorem rows_read_back_guestbook : (guestbook "Guestbook").Unforged "posts" ∧
    extractKeyedRows (guestbook "Guestbook").html "posts" =
      ((guestbook "Guestbook").anchor "posts").map fun found =>
        found.2.children.rows RenderedRows.new :=
  ⟨guestbook_unforged, rows_read_back (guestbook "Guestbook") "posts" guestbook_unforged⟩

/-- A title with the anchor's spelling in it takes the rows of the list off the page. -/
theorem title_forges_anchor : ¬ ∀ (page : Fragment) (topic : String), page.Readable →
    extractKeyedRows page.html topic =
      (page.anchor topic).map fun found => found.2.children.rows RenderedRows.new := by
  intro h
  have hrows := congrArg Option.isSome (h (guestbook forgedTitle) "posts" (guestbook_readable _))
  exact absurd hrows (by decide +kernel)

end Albedo.Render
