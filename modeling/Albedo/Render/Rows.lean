import Albedo.Forge.Delta
import Albedo.Library.Separator
import Albedo.Library.Trim

/-!
# The keyed rows of a rendered page

The reader of what the list marker and the two renderers stamp: every direct
child of a topic's list anchor that carries a row key, with its outer HTML. It
scans tags of markup the renderers wrote, and reads either the whole list or
nothing.
-/
namespace Albedo.Render
open Forge Separator Trim

/-- The text is read by the positions of its characters. -/
abbrev Html := List Char

def slice (html : Html) (start stop : ℕ) : Html := (html.take stop).drop start

/-! ### Tags -/

inductive TagKind where
  | opening (voidOrSelfClosing : Bool)
  | closing
  | ignorable

structure Tag where
  start : ℕ
  stop : ℕ
  kind : TagKind

def htmlVoidElements : List String :=
  ["area", "base", "br", "col", "embed", "hr", "img", "input", "link", "meta", "param", "source",
    "track", "wbr"]

def isVoidTag (tag : String) : Bool := htmlVoidElements.contains tag

def tagName (afterBracket : Html) : String :=
  String.ofList ((afterBracket.takeWhile fun c => c.isAlphanum || c = '-').map Char.toLower)

def apostrophe : Char := Char.ofNat 39

/-- How many characters there are up to the bracket that ends a tag, quoted ones
not counted as brackets. -/
def tagLength : Option Char → Html → Option ℕ
  | _, [] => none
  | some quote, c :: rest => (tagLength (if c = quote then none else some quote) rest).map (· + 1)
  | none, c :: rest =>
    if c = '"' ∨ c = apostrophe then (tagLength (some c) rest).map (· + 1)
    else if c = '>' then some 1
    else (tagLength none rest).map (· + 1)

def endsSelfClosing (tag : Html) : Bool :=
  ((tag.rdropWhile (· = '>')).rdropWhile isWhitespace).getLast? = some '/'

def nextTag (html : Html) (cursor : ℕ) : Option Tag := do
  let start := cursor + (← (html.drop cursor).findIdx? (· = '<'))
  let rest := html.drop start
  if "<!--".toList.isPrefixOf rest then
    let comment ← find "-->".toList rest
    return ⟨start, start + comment.1.length + 3, .ignorable⟩
  else if "<!".toList.isPrefixOf rest || "<?".toList.isPrefixOf rest then
    let close ← rest.findIdx? (· = '>')
    return ⟨start, start + close + 1, .ignorable⟩
  else
    let stop := start + 1 + (← tagLength none (rest.drop 1))
    if "</".toList.isPrefixOf rest then
      -- a void element never went one deeper, so its closing tag does not come back
      return ⟨start, stop, if isVoidTag (tagName (rest.drop 2)) then .ignorable else .closing⟩
    else
      return ⟨start, stop,
        .opening (endsSelfClosing (slice html start stop) || isVoidTag (tagName (rest.drop 1)))⟩

/-! ### Attributes -/

def listSlotAttr : String := "data-albedo-list-slot"

def rowKeyAttr : String := "data-albedo-key"

/-- Every place the needle stands is written over, from the left. -/
def replaceText (needle replacement : String) : ℕ → Html → Html
  | 0, text => text
  | fuel + 1, text =>
    match find needle.toList text with
    | none => text
    | some (before, found) =>
      before ++ replacement.toList ++
        replaceText needle replacement fuel (found.drop needle.toList.length)

def replaceAll (text : Html) (needle replacement : String) : Html :=
  replaceText needle replacement text.length text

def escapeAttrValue (value : Html) : Html :=
  replaceAll (replaceAll (replaceAll (replaceAll value "&" "&amp;") "<" "&lt;") ">" "&gt;")
    (String.singleton '"') "&quot;"

def unescapeAttrValue (value : Html) : Html :=
  let quoted := replaceAll value "&quot;" (String.singleton '"')
  let hex := replaceAll quoted "&#x27;" (String.singleton apostrophe)
  let decimal := replaceAll hex "&#39;" (String.singleton apostrophe)
  replaceAll (replaceAll (replaceAll decimal "&lt;" "<") "&gt;" ">") "&amp;" "&"

def attrValue (outerHtml : Html) (name : String) : Option String := do
  let openingEnd ← outerHtml.findIdx? (· = '>')
  let opening := outerHtml.take (openingEnd + 1)
  let needle := name.toList ++ ['=', '"']
  let found ← find needle opening
  let value ← find ['"'] (found.2.drop needle.length)
  return String.ofList (unescapeAttrValue value.1)

def findAnchor (html : Html) (topic : String) : Option ℕ := do
  let needle := listSlotAttr.toList ++ ['=', '"'] ++ escapeAttrValue topic.toList ++ ['"']
  let hit := (← find needle html).1.length
  let start := hit - 1 - (← (html.take hit).reverse.findIdx? (· = '<'))
  let tag ← nextTag html start
  if tag.start = start ∧ tag.stop > hit then some tag.stop else none

/-! ### Rows -/

def collectRow (html : Html) (start stop : ℕ) (rows : RenderedRows) : RenderedRows :=
  let outer := slice html start stop
  match attrValue outer rowKeyAttr with
  | none => rows
  | some key =>
    if nonempty : String.ofList outer ≠ "" then rows.insert key ⟨String.ofList outer, nonempty⟩
    else rows

/-- The walk over the anchor's children: how deep it is and where the row it is in
began. Each tag takes it further, so the text's length is fuel enough. -/
def collectRows (html : Html) : ℕ → ℕ → ℕ → ℕ → RenderedRows → Option RenderedRows
  | 0, _, _, _, _ => none
  | fuel + 1, cursor, depth, rowStart, rows =>
    match nextTag html cursor with
    | none => none
    | some tag =>
      match tag.kind, depth with
      | .opening true, 0 =>
        collectRows html fuel tag.stop 0 rowStart (collectRow html tag.start tag.stop rows)
      | .opening false, 0 => collectRows html fuel tag.stop 1 tag.start rows
      | .opening true, depth + 1 => collectRows html fuel tag.stop (depth + 1) rowStart rows
      | .opening false, depth + 1 => collectRows html fuel tag.stop (depth + 2) rowStart rows
      | .closing, 0 => some rows
      | .closing, 1 =>
        collectRows html fuel tag.stop 0 rowStart (collectRow html rowStart tag.stop rows)
      | .closing, depth + 2 => collectRows html fuel tag.stop (depth + 1) rowStart rows
      | .ignorable, depth => collectRows html fuel tag.stop depth rowStart rows

/-- Every keyed child of a topic's anchor, or nothing where the anchor is missing
or is never closed. -/
def extractKeyedRows (html : Html) (topic : String) : Option RenderedRows :=
  (findAnchor html topic).bind fun cursor =>
    collectRows html (html.length + 1) cursor 0 0 RenderedRows.new

end Albedo.Render
