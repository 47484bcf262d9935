import Albedo.Render.Escape

/-!
# Rendered elements

The trees both server renderers write, with the spellings of void elements, and the tags the reader
of keyed rows finds in what was written: where each ends, whether it goes deeper, and the key it
carries.
-/
namespace Albedo.Render
open Separator Trim Forge

/-! ### What the renderers write -/

structure Attribute where
  name : Html
  value : Option Html
  deriving DecidableEq

def Attribute.html (attr : Attribute) : Html :=
  match attr.value with
  | none => ' ' :: attr.name
  | some value => ' ' :: (attr.name ++ '=' :: '"' :: (escapeAttr value ++ ['"']))

def renderAttrs (attributes : List Attribute) : Html :=
  attributes.flatMap Attribute.html

/-- How the tags of an element are spelled: `<p></p>`, `<br />` or `<br>`. -/
inductive Spelling
  | paired | selfClosed | unclosed

def Spelling.ending : Spelling → Html
  | .selfClosed => [' ', '/', '>']
  | _ => ['>']

def openTag (tag : Html) (attributes : List Attribute) (spelling : Spelling) : Html :=
  '<' :: (tag ++ (renderAttrs attributes ++ spelling.ending))

def closeTag (tag : Html) : Spelling → Html
  | .paired => '<' :: '/' :: (tag ++ ['>'])
  | _ => []

inductive Fragment
  | nil
  | text (characters : Html) (rest : Fragment)
  | comment (characters : Html) (rest : Fragment)
  | element (tag : Html) (attributes : List Attribute) (spelling : Spelling)
      (children rest : Fragment)

def commentHtml (characters : Html) : Html :=
  '<' :: '!' :: '-' :: '-' :: (characters ++ ['-', '-', '>'])

def Fragment.html : Fragment → Html
  | .nil => []
  | .text characters rest => escapeHtml characters ++ rest.html
  | .comment characters rest => commentHtml characters ++ rest.html
  | .element tag attributes spelling children rest =>
      openTag tag attributes spelling ++ (children.html ++ (closeTag tag spelling ++ rest.html))

def isVoid (tag : Html) : Bool := isVoidTag (String.ofList tag)

def outerHtml (tag : Html) (attributes : List Attribute) (spelling : Spelling)
    (children : Fragment) : Html :=
  if isVoid tag then openTag tag attributes spelling
  else openTag tag attributes spelling ++ (children.html ++ closeTag tag spelling)

/-- `Element.getAttribute`: the first attribute of a name. -/
def getAttribute (attributes : List Attribute) (name : String) : Option Html :=
  (attributes.find? (·.name = name.toList)).map fun attr =>
    attributeText (escapeAttr (attr.value.getD []))

theorem openTag_ne (tag : Html) (attributes : List Attribute) (spelling : Spelling) (after : Html) :
    String.ofList (openTag tag attributes spelling ++ after) ≠ "" := by
  intro h
  have hlist := congrArg String.toList h
  rw [String.toList_ofList] at hlist
  cases hlist

theorem outerHtml_ne (tag : Html) (attributes : List Attribute) (spelling : Spelling)
    (children : Fragment) : String.ofList (outerHtml tag attributes spelling children) ≠ "" := by
  unfold outerHtml
  split_ifs
  · simpa using openTag_ne tag attributes spelling []
  · exact openTag_ne tag attributes spelling _

def Fragment.rows : Fragment → RenderedRows → RenderedRows
  | .nil, rows => rows
  | .text _ rest, rows => rest.rows rows
  | .comment _ rest, rows => rest.rows rows
  | .element tag attributes spelling children rest, rows =>
      rest.rows (match getAttribute attributes rowKeyAttr with
        | none => rows
        | some key => rows.insert (String.ofList key)
            ⟨String.ofList (outerHtml tag attributes spelling children),
              outerHtml_ne tag attributes spelling children⟩)

/-! ### What can be read back -/

/-- An attribute's or an element's name: no quote, bracket, slash or space is in it. -/
def IsName (name : Html) : Prop :=
  name ≠ [] ∧ ∀ c ∈ name,
    c ≠ '"' ∧ c ≠ apostrophe ∧ c ≠ '<' ∧ c ≠ '>' ∧ c ≠ '/' ∧ isWhitespace c = false

instance : DecidablePred IsName := fun name =>
  @instDecidableAnd _ _ inferInstance (List.decidableBAll _ name)

structure Named (tag : Html) (attributes : List Attribute) (spelling : Spelling) : Prop where
  tag_name : IsName tag
  first : tag.head? ≠ some '!' ∧ tag.head? ≠ some '?'
  read_as : isVoidTag (tagName tag) = isVoid tag
  attribute_name : ∀ attr ∈ attributes, IsName attr.name
  spelled : isVoid tag = false → spelling = .paired

def ClosesOnce (characters : Html) : Prop :=
  ¬ ['-', '-', '>'] <:+: '<' :: '!' :: '-' :: '-' :: (characters ++ ['-', '-'])

def Fragment.Readable : Fragment → Prop
  | .nil => True
  | .text _ rest => rest.Readable
  | .comment characters rest => ClosesOnce characters ∧ rest.Readable
  | .element tag attributes spelling children rest =>
      Named tag attributes spelling ∧ children.Readable ∧ rest.Readable

/-- What an attribute before the key would have to be for its spelling to be taken for a key's. -/
def SpellsKey (attr : Attribute) : Prop :=
  ∃ value, attr.value = some value ∧
    (rowKeyAttr.toList <:+ attr.name ∨ rowKeyAttr.toList ++ ['='] <:+ value)

/-- The key of an element, where it has one, is written with a value, and nothing before it is
spelled like it. -/
structure KeyFirst (attributes : List Attribute) : Prop where
  before : ∀ attr ∈ attributes.takeWhile (·.name ≠ rowKeyAttr.toList), ¬ SpellsKey attr
  valued : ∀ attr, attributes.find? (·.name = rowKeyAttr.toList) = some attr →
    ∃ value, attr.value = some value ∧ '\r' ∉ value ∧ Forms.nul ∉ value

def Fragment.SayKeys : Fragment → Prop
  | .nil => True
  | .text _ rest => rest.SayKeys
  | .comment _ rest => rest.SayKeys
  | .element tag attributes _ children rest =>
      KeyFirst attributes ∧ (isVoid tag = true → children = .nil) ∧ rest.SayKeys

structure Anchor where
  tag : Html
  attributes : List Attribute
  spelling : Spelling
  children : Fragment

/-- The first element of a page that is stamped for a topic, and what stands before it. -/
def Fragment.anchor (topic : String) : Fragment → Option (Html × Anchor)
  | .nil => none
  | .text characters rest =>
      (rest.anchor topic).map fun found => (escapeHtml characters ++ found.1, found.2)
  | .comment characters rest =>
      (rest.anchor topic).map fun found => (commentHtml characters ++ found.1, found.2)
  | .element tag attributes spelling children rest =>
      if ⟨listSlotAttr.toList, some topic.toList⟩ ∈ attributes then
        some ([], ⟨tag, attributes, spelling, children⟩)
      else
        match children.anchor topic with
        | some found => some (openTag tag attributes spelling ++ found.1, found.2)
        | none => (rest.anchor topic).map fun found =>
            (openTag tag attributes spelling ++
              (children.html ++ (closeTag tag spelling ++ found.1)), found.2)

/-- What `find_anchor` looks for. -/
def anchorSpelling (topic : String) : Html :=
  listSlotAttr.toList ++ ['=', '"'] ++ escapeAttrValue topic.toList ++ ['"']

/-- The anchor of a page is the first thing spelled like it, and its rows can be read. -/
def Fragment.Unforged (topic : String) (page : Fragment) : Prop :=
  match page.anchor topic with
  | none => ¬ anchorSpelling topic <:+: page.html
  | some (before, anchor) => ¬ anchorSpelling topic <:+: before ∧ isVoid anchor.tag = false ∧
      Named anchor.tag anchor.attributes anchor.spelling ∧
      anchor.children.Readable ∧ anchor.children.SayKeys

variable {html rest tag name value characters : Html} {attributes : List Attribute}
  {spelling : Spelling} {children page : Fragment} {cursor fuel depth rowStart : ℕ}
  {rows : RenderedRows} {topic : String}

/-! ### Tags -/

theorem tagLength_append {seg : Html} (h : ∀ c ∈ seg, c ≠ '"' ∧ c ≠ apostrophe ∧ c ≠ '>') :
    tagLength none (seg ++ rest) = (tagLength none rest).map (· + seg.length) := by
  induction seg with
  | nil => simp
  | cons c seg ih =>
      obtain ⟨hquote, hsingle, hclose⟩ := h c List.mem_cons_self
      rw [List.cons_append, tagLength, if_neg (not_or.mpr ⟨hquote, hsingle⟩), if_neg hclose,
        ih fun d hd => h d (List.mem_cons_of_mem c hd), Option.map_map]
      rfl

theorem tagLength_quoted (h : '"' ∉ value) :
    tagLength (some '"') (value ++ '"' :: rest) =
      (tagLength none rest).map (· + (value.length + 1)) := by
  induction value with
  | nil =>
      rw [List.nil_append, tagLength, if_pos rfl]
      rfl
  | cons c value ih =>
      rw [List.mem_cons, not_or] at h
      rw [List.cons_append, tagLength, if_neg (Ne.symm h.1), ih h.2, Option.map_map]
      rfl

theorem not_mem_escapeAttr (value : Html) :
    '"' ∉ escapeAttr value ∧ '<' ∉ escapeAttr value ∧ '>' ∉ escapeAttr value := by
  have hentity : ∀ token ∈ ["&amp;".toList, "&quot;".toList, "&lt;".toList, "&gt;".toList],
      '"' ∉ token ∧ '<' ∉ token ∧ '>' ∉ token := by decide +kernel
  have hchar : ∀ c, '"' ∉ Forms.escapeChar c ∧ '<' ∉ Forms.escapeChar c ∧
      '>' ∉ Forms.escapeChar c := by
    intro c
    unfold Forms.escapeChar
    split_ifs with hamp hquote hlt hgt
    · exact hentity _ (by simp)
    · exact hentity _ (by simp)
    · exact hentity _ (by simp)
    · exact hentity _ (by simp)
    · simp [Ne.symm hquote, Ne.symm hlt, Ne.symm hgt]
  have hescape : ∀ {d}, d ∈ escapeAttr value → ∃ c, d ∈ Forms.escapeChar c := by
    intro d hd
    rw [escapeAttr_eq, List.mem_flatMap] at hd
    obtain ⟨c, -, hc⟩ := hd
    exact ⟨c, hc⟩
  exact ⟨fun h => (hescape h).elim fun c hc => (hchar c).1 hc,
    fun h => (hescape h).elim fun c hc => (hchar c).2.1 hc,
    fun h => (hescape h).elim fun c hc => (hchar c).2.2 hc⟩

theorem IsName.unquoted (h : IsName name) : ∀ c ∈ name, c ≠ '"' ∧ c ≠ apostrophe ∧ c ≠ '>' :=
  fun c hc => ⟨(h.2 c hc).1, (h.2 c hc).2.1, (h.2 c hc).2.2.2.1⟩

theorem tagLength_attribute {attr : Attribute} (h : IsName attr.name) :
    tagLength none (attr.html ++ rest) = (tagLength none rest).map (· + attr.html.length) := by
  have hname : ∀ c ∈ ' ' :: attr.name, c ≠ '"' ∧ c ≠ apostrophe ∧ c ≠ '>' := fun c hc =>
    (List.mem_cons.mp hc).elim (fun h => h ▸ by decide) (h.unquoted c)
  unfold Attribute.html
  cases attr.value with
  | none => exact tagLength_append hname
  | some value =>
      have hquote : tagLength none ('"' :: (escapeAttr value ++ '"' :: rest)) =
          (tagLength none rest).map (· + ((escapeAttr value).length + 2)) := by
        rw [tagLength, if_pos (.inl rfl), tagLength_quoted (not_mem_escapeAttr value).1,
          Option.map_map]
        rfl
      have hequals : tagLength none ('=' :: '"' :: (escapeAttr value ++ '"' :: rest)) =
          (tagLength none rest).map (· + ((escapeAttr value).length + 3)) := by
        rw [tagLength, if_neg (by decide), if_neg (by decide), hquote, Option.map_map]
        rfl
      have hsplit : ' ' :: (attr.name ++ '=' :: '"' :: (escapeAttr value ++ ['"'])) ++ rest =
          (' ' :: attr.name) ++ '=' :: '"' :: (escapeAttr value ++ '"' :: rest) := by simp
      rw [hsplit, tagLength_append hname, hequals, Option.map_map]
      congr 1
      funext n
      simp only [Function.comp_apply, List.length_cons, List.length_append, List.length_nil]
      omega

theorem tagLength_renderAttrs (h : ∀ attr ∈ attributes, IsName attr.name) :
    tagLength none (renderAttrs attributes ++ rest) =
      (tagLength none rest).map (· + (renderAttrs attributes).length) := by
  induction attributes with
  | nil => simp [renderAttrs]
  | cons attr attributes ih =>
      have htail := ih fun a ha => h a (List.mem_cons_of_mem attr ha)
      rw [renderAttrs, List.flatMap_cons, List.append_assoc,
        tagLength_attribute (h attr List.mem_cons_self)]
      rw [renderAttrs] at htail
      rw [htail, Option.map_map, List.length_append]
      congr 1
      funext n
      simp only [Function.comp_apply]
      omega

theorem tagLength_openTag (rest : Html) (h : Named tag attributes spelling) :
    tagLength none ((openTag tag attributes spelling).drop 1 ++ rest) =
      some ((openTag tag attributes spelling).drop 1).length := by
  have hending : tagLength none (spelling.ending ++ rest) = some spelling.ending.length := by
    cases spelling <;> simp [Spelling.ending, tagLength, apostrophe]
  simp only [openTag, List.drop_one, List.tail_cons, List.append_assoc]
  rw [tagLength_append h.tag_name.unquoted, tagLength_renderAttrs h.attribute_name, hending]
  simp only [Option.map_some, List.length_append]
  congr 1
  omega

theorem nextTag_skip {skip : Html} (hdrop : html.drop cursor = skip ++ rest) (hskip : '<' ∉ skip) :
    nextTag html cursor = nextTag html (cursor + skip.length) := by
  have hrest : html.drop (cursor + skip.length) = rest := by
    rw [← List.drop_drop, hdrop, List.drop_left]
  have hfind : (skip ++ rest).findIdx? (· = '<') =
      (rest.findIdx? (· = '<')).map (· + skip.length) := by
    rw [List.findIdx?_append]
    have hnone : skip.findIdx? (fun c => decide (c = '<')) = none := by
      rw [List.findIdx?_eq_none_iff]
      intro c hc
      simpa using fun h : c = '<' => hskip (h ▸ hc)
    rw [hnone]
    rfl
  unfold nextTag
  rw [hdrop, hrest, hfind]
  cases rest.findIdx? (fun c => decide (c = '<')) with
  | none => rfl
  | some at' => simp [Nat.add_assoc, Nat.add_comm at']

theorem slice_of_drop {found : Html} (hdrop : html.drop cursor = found ++ rest) :
    slice html cursor (cursor + found.length) = found := by
  rw [slice, List.drop_take, Nat.add_sub_cancel_left, hdrop, List.take_left]

theorem drop_of_drop {found : Html} (hdrop : html.drop cursor = found ++ rest) :
    html.drop (cursor + found.length) = rest := by
  rw [← List.drop_drop, hdrop, List.drop_left]

theorem tagName_append {d : Char} (hd : (d.isAlphanum || d = '-') = false) :
    tagName (tag ++ d :: rest) = tagName tag := by
  have htake : ((tag ++ d :: rest).takeWhile fun c => c.isAlphanum || c = '-') =
      tag.takeWhile fun c => c.isAlphanum || c = '-' := by
    induction tag with
    | nil => exact List.takeWhile_cons_of_neg (by rw [hd]; exact Bool.false_ne_true)
    | cons c tag ih => rw [List.cons_append, List.takeWhile_cons, List.takeWhile_cons, ih]
  rw [tagName, tagName, htake]

theorem endsSelfClosing_concat {front : Html} {c : Char} (hclose : c ≠ '>')
    (hblank : isWhitespace c = false) (hslash : c ≠ '/') :
    endsSelfClosing (front ++ [c] ++ ['>']) = false := by
  unfold endsSelfClosing
  rw [List.rdropWhile_concat_pos _ _ _ (by decide),
    List.rdropWhile_concat_neg _ _ _ (by simpa using hclose),
    List.rdropWhile_concat_neg _ _ _ (by rw [hblank]; exact Bool.false_ne_true),
    List.getLast?_concat]
  simpa using hslash

theorem IsName.last (h : IsName name) :
    ∃ front c, name = front ++ [c] ∧ c ≠ '>' ∧ isWhitespace c = false ∧ c ≠ '/' := by
  obtain ⟨front, c, rfl⟩ := List.eq_nil_or_concat' name |>.resolve_left h.1
  obtain ⟨-, -, -, hclose, hslash, hblank⟩ := h.2 c (by simp)
  exact ⟨front, c, rfl, hclose, hblank, hslash⟩

theorem Attribute.last {attr : Attribute} (h : IsName attr.name) :
    ∃ front c, attr.html = front ++ [c] ∧ c ≠ '>' ∧ isWhitespace c = false ∧ c ≠ '/' := by
  unfold Attribute.html
  cases attr.value with
  | none =>
      obtain ⟨front, c, hname, hc⟩ := h.last
      exact ⟨' ' :: front, c, by rw [hname]; rfl, hc⟩
  | some value =>
      exact ⟨' ' :: (attr.name ++ '=' :: '"' :: escapeAttr value), '"', by simp, by decide⟩

theorem Named.last (h : Named tag attributes spelling) :
    ∃ front c, '<' :: (tag ++ renderAttrs attributes) = front ++ [c] ∧
      c ≠ '>' ∧ isWhitespace c = false ∧ c ≠ '/' := by
  rcases List.eq_nil_or_concat' attributes with rfl | ⟨front, attr, rfl⟩
  · obtain ⟨front, c, htag, hc⟩ := h.tag_name.last
    exact ⟨'<' :: front, c, by rw [htag]; simp [renderAttrs], hc⟩
  · obtain ⟨last, c, hattr, hc⟩ := Attribute.last (h.attribute_name attr (by simp))
    exact ⟨'<' :: (tag ++ (renderAttrs front ++ last)), c,
      by simp [renderAttrs, hattr], hc⟩

theorem endsSelfClosing_openTag (h : Named tag attributes spelling) (hvoid : isVoid tag = false) :
    endsSelfClosing (openTag tag attributes spelling) = false := by
  obtain ⟨front, c, hfront, hclose, hblank, hslash⟩ := h.last
  have hopen : openTag tag attributes spelling = front ++ [c] ++ ['>'] := by
    rw [← hfront, h.spelled hvoid, openTag]
    simp [Spelling.ending]
  rw [hopen, endsSelfClosing_concat hclose hblank hslash]

theorem Named.tagName_eq (h : Named tag attributes spelling) (rest : Html) :
    tagName (tag ++ (renderAttrs attributes ++ (spelling.ending ++ rest))) = tagName tag := by
  have hhead : ∃ d more, renderAttrs attributes ++ (spelling.ending ++ rest) = d :: more ∧
      (d.isAlphanum || d = '-') = false := by
    cases attributes with
    | nil => cases spelling <;> exact ⟨_, _, rfl, by decide⟩
    | cons attr attributes =>
        refine ⟨' ', ?_⟩
        unfold renderAttrs Attribute.html
        cases hvalue : attr.value <;>
          exact ⟨_, by simp only [List.flatMap_cons, hvalue, List.cons_append]; rfl, by decide⟩
  obtain ⟨d, more, happend, hd⟩ := hhead
  rw [happend, tagName_append hd]

theorem nextTag_at {c : Char} {after : Html} {length : ℕ} (hdrop : html.drop cursor = '<' :: after)
    (hhead : after.head? = some c) (hbang : c ≠ '!') (hquery : c ≠ '?')
    (hlength : tagLength none after = some length) :
    nextTag html cursor = some ⟨cursor, cursor + 1 + length,
      if c = '/' then if isVoidTag (tagName after.tail) then .ignorable else .closing
      else .opening (endsSelfClosing (slice html cursor (cursor + 1 + length)) ||
        isVoidTag (tagName after))⟩ := by
  obtain ⟨more, rfl⟩ : ∃ more, after = c :: more := by
    cases after with
    | nil => cases hhead
    | cons d more => exact ⟨more, by rw [Option.some.inj hhead]⟩
  have hstart : (html.drop cursor).findIdx? (fun c => decide (c = '<')) = some 0 := by
    rw [hdrop]
    rfl
  have hcomment : "<!--".toList.isPrefixOf ('<' :: c :: more) = false := by
    simp [List.isPrefixOf, Ne.symm hbang]
  have hmarkup : ("<!".toList.isPrefixOf ('<' :: c :: more) ||
      "<?".toList.isPrefixOf ('<' :: c :: more)) = false := by
    simp [List.isPrefixOf, Ne.symm hbang, Ne.symm hquery]
  have hclosing : "</".toList.isPrefixOf ('<' :: c :: more) = decide (c = '/') := by
    by_cases hc : c = '/'
    · simp [hc]
    · simp [List.isPrefixOf, hc, Ne.symm hc]
  unfold nextTag
  rw [hstart]
  simp only [Option.bind_eq_bind, Option.bind_some, Nat.add_zero, hdrop, hcomment, hmarkup,
    hclosing, List.drop_one, List.tail_cons, hlength, Bool.false_eq_true, if_false]
  by_cases hc : c = '/'
  · by_cases hvoid : isVoidTag (tagName more) = true <;> simp [hc, hvoid]
  · simp [hc]

theorem nextTag_openTag (h : Named tag attributes spelling)
    (hdrop : html.drop cursor = openTag tag attributes spelling ++ rest) :
    nextTag html cursor = some ⟨cursor, cursor + (openTag tag attributes spelling).length,
      .opening (isVoid tag)⟩ := by
  obtain ⟨c, more, htag⟩ := List.exists_cons_of_ne_nil h.tag_name.1
  have hfirst := h.first
  have hslash := (h.tag_name.2 c (by rw [htag]; exact List.mem_cons_self)).2.2.2.2.1
  rw [htag, List.head?_cons] at hfirst
  have hlength := tagLength_openTag rest h
  have hopen : openTag tag attributes spelling ++ rest =
      '<' :: (tag ++ (renderAttrs attributes ++ (spelling.ending ++ rest))) := by simp [openTag]
  have htail : (openTag tag attributes spelling).drop 1 ++ rest =
      tag ++ (renderAttrs attributes ++ (spelling.ending ++ rest)) := by simp [openTag]
  have hstop : 1 + ((openTag tag attributes spelling).drop 1).length =
      (openTag tag attributes spelling).length := by
    simp only [openTag, List.drop_one, List.tail_cons, List.length_cons]
    omega
  have hself := slice_of_drop hdrop
  have hhead : (tag ++ (renderAttrs attributes ++ (spelling.ending ++ rest))).head? = some c := by
    rw [htag]
    rfl
  rw [htail] at hlength
  rw [hopen] at hdrop
  rw [nextTag_at hdrop hhead (fun h => hfirst.1 (h ▸ rfl)) (fun h => hfirst.2 (h ▸ rfl)) hlength,
    if_neg hslash, Nat.add_assoc, hstop, hself, h.tagName_eq, h.read_as]
  cases hvoid : isVoid tag with
  | true => rw [Bool.or_true]
  | false => rw [endsSelfClosing_openTag h hvoid, Bool.or_false]

theorem nextTag_closeTag (h : Named tag attributes spelling)
    (hdrop : html.drop cursor = '<' :: '/' :: (tag ++ '>' :: rest)) :
    nextTag html cursor = some ⟨cursor, cursor + (tag.length + 3),
      if isVoid tag then .ignorable else .closing⟩ := by
  have hlength : tagLength none ('/' :: (tag ++ '>' :: rest)) = some (tag.length + 2) := by
    have hclose : tagLength none ('>' :: rest) = some 1 := by simp [tagLength, apostrophe]
    rw [tagLength, if_neg (by decide), if_neg (by decide), tagLength_append h.tag_name.unquoted,
      hclose]
    simp only [Option.map_some]
    congr 1
    omega
  rw [nextTag_at hdrop rfl (by decide) (by decide) hlength, if_pos rfl, List.tail_cons,
    tagName_append (by decide), h.read_as, Nat.add_assoc]
  congr 3
  omega

theorem nextTag_comment (h : ClosesOnce characters)
    (hdrop : html.drop cursor = commentHtml characters ++ rest) :
    nextTag html cursor =
      some ⟨cursor, cursor + (commentHtml characters).length, .ignorable⟩ := by
  have hfind : find "-->".toList (commentHtml characters ++ rest) =
      some ('<' :: '!' :: '-' :: '-' :: characters, "-->".toList ++ rest) := by
    have hsplit : commentHtml characters ++ rest =
        ('<' :: '!' :: '-' :: '-' :: characters) ++ ("-->".toList ++ rest) := by
      simp [commentHtml]
    rw [hsplit]
    exact find_first h
  have hstart : (html.drop cursor).findIdx? (fun c => decide (c = '<')) = some 0 := by
    rw [hdrop]
    rfl
  have hcomment : "<!--".toList.isPrefixOf (commentHtml characters ++ rest) = true := by
    simp [commentHtml]
  unfold nextTag
  rw [hstart]
  simp only [Option.bind_eq_bind, Option.bind_some, Nat.add_zero, hdrop, hcomment, if_true, hfind]
  simp [commentHtml]
  omega

/-! ### Keys -/

theorem suffix_of_not_mem {α : Type*} {a : α} {l before after : List α} (ha : a ∉ l)
    (h : l <:+ before ++ a :: after) : l <:+ after := by
  rcases List.suffix_or_suffix_of_suffix h (List.suffix_append before (a :: after)) with h | h
  · rcases List.suffix_cons_iff.mp h with rfl | h
    · exact absurd List.mem_cons_self ha
    · exact h
  · exact absurd (h.subset List.mem_cons_self) ha

theorem escapeChar_last (c : Char) :
    Forms.escapeChar c = [c] ∨ ∃ front, Forms.escapeChar c = front ++ [';'] := by
  unfold Forms.escapeChar
  split_ifs
  · exact .inr ⟨"&amp".toList, rfl⟩
  · exact .inr ⟨"&quot".toList, rfl⟩
  · exact .inr ⟨"&lt".toList, rfl⟩
  · exact .inr ⟨"&gt".toList, rfl⟩
  · exact .inl rfl

theorem suffix_of_escapeAttr {body : Html} (hbody : ';' ∉ body) (h : body <:+ escapeAttr value) :
    body <:+ value := by
  rw [escapeAttr_eq] at h
  induction value using List.reverseRecOn generalizing body with
  | nil => exact h
  | append_singleton value c ih =>
      rw [List.flatMap_append, List.flatMap_singleton] at h
      rcases escapeChar_last c with hc | ⟨front, hc⟩
      · rw [hc, List.suffix_concat_iff] at h
        refine List.suffix_concat_iff.mpr (h.imp_right ?_)
        rintro ⟨front, rfl, hfront⟩
        exact ⟨front, rfl, ih (fun hmem => hbody (List.mem_append_left _ hmem)) hfront⟩
      · rw [hc, ← List.append_assoc, List.suffix_concat_iff] at h
        rcases h with rfl | ⟨front, rfl, -⟩
        · exact List.nil_suffix
        · exact absurd (List.mem_append_right front List.mem_cons_self) hbody

def keySpelling : Html := rowKeyAttr.toList ++ ['=', '"']

theorem find_key (spelling : Spelling) {front : Html} (h : KeyFirst attributes)
    (hnames : ∀ attr ∈ attributes, IsName attr.name) (hfront : '"' ∉ front) :
    match attributes.find? (·.name = rowKeyAttr.toList) with
    | none => find keySpelling (front ++ (renderAttrs attributes ++ spelling.ending)) = none
    | some attr => ∃ value before after, attr.value = some value ∧
        find keySpelling (front ++ (renderAttrs attributes ++ spelling.ending)) =
          some (before, keySpelling ++ (escapeAttr value ++ '"' :: after)) := by
  induction attributes generalizing front with
  | nil =>
      refine find_eq_none fun hwithin => ?_
      have hquote : '"' ∈ front ++ (renderAttrs [] ++ spelling.ending) :=
        hwithin.subset (by decide)
      rw [List.mem_append] at hquote
      refine hquote.elim hfront ?_
      cases spelling <;> decide
  | cons attr attributes ih =>
      by_cases hkey : attr.name = rowKeyAttr.toList
      · rw [List.find?_cons_of_pos (by simpa using hkey)]
        obtain ⟨value, hvalue, -⟩ := h.valued attr (List.find?_cons_of_pos (by simpa using hkey))
        refine ⟨value, front ++ [' '], renderAttrs attributes ++ spelling.ending, hvalue, ?_⟩
        have hsplit : front ++ (renderAttrs (attr :: attributes) ++ spelling.ending) =
            (front ++ [' ']) ++ (keySpelling ++ (escapeAttr value ++
              '"' :: (renderAttrs attributes ++ spelling.ending))) := by
          simp [renderAttrs, Attribute.html, hvalue, hkey, keySpelling]
        rw [hsplit]
        refine find_first fun hwithin => ?_
        have hquote : '"' ∈ (front ++ [' ']) ++ keySpelling.dropLast := hwithin.subset (by decide)
        rw [List.mem_append, List.mem_append] at hquote
        rcases hquote with (hquote | hquote) | hquote
        · exact hfront hquote
        · exact absurd hquote (by decide)
        · exact absurd hquote (by decide)
      · have htail : KeyFirst attributes := {
          before := fun a ha => h.before a (by
            rw [List.takeWhile_cons_of_pos (by simpa using hkey)]
            exact List.mem_cons_of_mem attr ha)
          valued := fun a ha => h.valued a (by
            rw [List.find?_cons_of_neg (by simpa using hkey)]
            exact ha) }
        have hspells := h.before attr (by
          rw [List.takeWhile_cons_of_pos (by simpa using hkey)]
          exact List.mem_cons_self)
        have hname := hnames attr List.mem_cons_self
        have hnames' := fun a ha => hnames a (List.mem_cons_of_mem attr ha)
        have hnoquote : '"' ∉ front ++ ' ' :: attr.name := by
          rw [List.mem_append, List.mem_cons]
          rintro (hmem | hmem | hmem)
          · exact hfront hmem
          · exact absurd hmem (by decide)
          · exact (hname.2 _ hmem).1 rfl
        rw [List.find?_cons_of_neg (by simpa using hkey)]
        cases hvalue : attr.value with
        | none =>
            have hsplit : front ++ (renderAttrs (attr :: attributes) ++ spelling.ending) =
                (front ++ ' ' :: attr.name) ++ (renderAttrs attributes ++ spelling.ending) := by
              simp [renderAttrs, Attribute.html, hvalue]
            rw [hsplit]
            exact ih htail hnames' hnoquote
        | some value =>
            have hsplit : front ++ (renderAttrs (attr :: attributes) ++ spelling.ending) =
                (front ++ ' ' :: (attr.name ++ ['='])) ++ '"' :: (escapeAttr value ++ '"' ::
                  ([] ++ (renderAttrs attributes ++ spelling.ending))) := by
              simp [renderAttrs, Attribute.html, hvalue]
            have hbody : keySpelling = (rowKeyAttr.toList ++ ['=']) ++ ['"'] := by decide
            have hfirst : ¬ rowKeyAttr.toList ++ ['='] <:+
                front ++ ' ' :: (attr.name ++ ['=']) := by
              intro hsuffix
              have hends := suffix_of_not_mem (by decide) hsuffix
              exact hspells
                ⟨value, hvalue, .inl ((List.suffix_append_inj_of_length_eq rfl).mp hends).1⟩
            have hsecond : ¬ rowKeyAttr.toList ++ ['='] <:+ escapeAttr value := fun hsuffix =>
              hspells ⟨value, hvalue, .inr (suffix_of_escapeAttr (by decide) hsuffix)⟩
            have hquote : '"' ∉ front ++ ' ' :: (attr.name ++ ['=']) := by
              rw [← List.cons_append, ← List.append_assoc, List.mem_append]
              exact not_or.mpr ⟨hnoquote, by decide⟩
            have htail := ih htail hnames' (List.not_mem_nil : '"' ∉ ([] : Html))
            rw [hsplit, hbody, find_past_last (by decide) hquote hfirst,
              find_past_last (by decide) (not_mem_escapeAttr value).1 hsecond, ← hbody]
            cases hfind : attributes.find? (·.name = rowKeyAttr.toList) with
            | none =>
                rw [hfind] at htail
                simp only at htail ⊢
                rw [htail]
                rfl
            | some found =>
                rw [hfind] at htail
                obtain ⟨value', before, after, hvalue', hat⟩ := htail
                refine ⟨value', front ++ ' ' :: (attr.name ++ ['=']) ++ '"' ::
                  (escapeAttr value ++ '"' :: before), after, hvalue', ?_⟩
                rw [hat]
                rfl

theorem not_mem_renderAttrs (h : ∀ attr ∈ attributes, IsName attr.name) {d : Char}
    (hd : d = '<' ∨ d = '>') : d ∉ renderAttrs attributes := by
  rw [renderAttrs, List.mem_flatMap]
  rintro ⟨attr, hattr, hmem⟩
  have hname : d ∉ ' ' :: attr.name := by
    rw [List.mem_cons, not_or]
    refine ⟨by rcases hd with rfl | rfl <;> decide, fun hmem => ?_⟩
    obtain ⟨-, -, hlt, hgt, -⟩ := (h attr hattr).2 d hmem
    exact hd.elim hlt hgt
  unfold Attribute.html at hmem
  cases hvalue : attr.value with
  | none =>
      rw [hvalue] at hmem
      exact hname hmem
  | some value =>
      simp only [hvalue] at hmem
      rw [← List.cons_append, List.mem_append] at hmem
      refine hmem.elim hname fun hmem => ?_
      obtain ⟨-, hlt, hgt⟩ := not_mem_escapeAttr value
      rcases hd with rfl | rfl
      · simp [hlt] at hmem
      · simp [hgt] at hmem

theorem attrValue_openTag (after : Html) (h : Named tag attributes spelling)
    (hkey : KeyFirst attributes) :
    attrValue (openTag tag attributes spelling ++ after) rowKeyAttr =
      (getAttribute attributes rowKeyAttr).map String.ofList := by
  obtain ⟨front, hfront⟩ : ∃ front, spelling.ending = front ++ ['>'] ∧ '>' ∉ front := by
    cases spelling
    · exact ⟨[], rfl, by decide⟩
    · exact ⟨[' ', '/'], rfl, by decide⟩
    · exact ⟨[], rfl, by decide⟩
  obtain ⟨hending, hclose⟩ := hfront
  have hopen : openTag tag attributes spelling =
      '<' :: (tag ++ (renderAttrs attributes ++ front)) ++ ['>'] := by
    rw [openTag, hending]
    simp
  have hend : (openTag tag attributes spelling ++ after).findIdx? (· = '>') =
      some ('<' :: (tag ++ (renderAttrs attributes ++ front))).length := by
    rw [hopen, List.append_assoc, List.findIdx?_append, List.findIdx?_eq_none_iff.mpr]
    · simp [List.findIdx?_cons]
    · intro c hc
      rw [decide_eq_false_iff_not]
      rintro rfl
      rw [List.mem_cons, List.mem_append, List.mem_append] at hc
      rcases hc with hc | hc | hc | hc
      · cases hc
      · exact (h.tag_name.2 _ hc).2.2.2.1 rfl
      · exact not_mem_renderAttrs h.attribute_name (.inr rfl) hc
      · exact hclose hc
  have htake : (openTag tag attributes spelling ++ after).take
      (('<' :: (tag ++ (renderAttrs attributes ++ front))).length + 1) =
        ('<' :: tag) ++ (renderAttrs attributes ++ spelling.ending) := by
    have hlength : ('<' :: (tag ++ (renderAttrs attributes ++ front))).length + 1 =
        (openTag tag attributes spelling).length := by
      rw [hopen, List.length_append, List.length_singleton]
    rw [hlength, List.take_left]
    rfl
  have hquote : '"' ∉ '<' :: tag := by
    rw [List.mem_cons, not_or]
    exact ⟨by decide, fun hmem => (h.tag_name.2 _ hmem).1 rfl⟩
  have hfind := find_key spelling hkey h.attribute_name hquote
  unfold attrValue getAttribute
  rw [hend]
  simp only [Option.bind_eq_bind, Option.bind_some, htake]
  rw [show rowKeyAttr.toList ++ ['=', '"'] = keySpelling from rfl]
  cases hfound : attributes.find? (·.name = rowKeyAttr.toList) with
  | none =>
      rw [hfound] at hfind
      simp only at hfind
      rw [hfind]
      rfl
  | some attr =>
      rw [hfound] at hfind
      obtain ⟨value, before, rest, hvalue, hat⟩ := hfind
      obtain ⟨value', hvalue', hreturn, hnul⟩ := hkey.valued attr hfound
      rw [hvalue] at hvalue'
      obtain rfl := Option.some.inj hvalue'
      have hclosing : find ['"'] (escapeAttr value ++ '"' :: rest) =
          some (escapeAttr value, '"' :: rest) := by
        rw [find_append_of_not_mem (not_mem_escapeAttr value).1,
          find_at_start (show ['"'] <+: '"' :: rest from ⟨rest, rfl⟩)]
        simp
      rw [hat]
      simp only [Option.bind_some, List.drop_left, hclosing, Option.map_some, hvalue,
        Option.getD_some, unescapeAttrValue_escapeAttr, attributeText_escapeAttr hreturn hnul]
      rfl

theorem collectRow_outer (rows : RenderedRows) {outer after : Html} {start stop : ℕ}
    (h : Named tag attributes spelling) (hkey : KeyFirst attributes)
    (hslice : slice html start stop = outer)
    (houter : outer = openTag tag attributes spelling ++ after) (hne : String.ofList outer ≠ "") :
    collectRow html start stop rows =
      match getAttribute attributes rowKeyAttr with
      | none => rows
      | some key => rows.insert (String.ofList key) ⟨String.ofList outer, hne⟩ := by
  have hvalue := attrValue_openTag after h hkey
  unfold collectRow
  rw [hslice]
  subst houter
  simp only [hvalue]
  cases getAttribute attributes rowKeyAttr with
  | none => rfl
  | some key =>
      simp only [Option.map_some]
      rw [dif_pos hne]

end Albedo.Render
