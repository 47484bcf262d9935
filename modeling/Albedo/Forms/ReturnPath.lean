import Albedo.Forms.Payload
import Albedo.Library.WhatwgUrl

/-!
# Where a submit sends the browser

A return path comes with the request, so it is parsed: a value of it is a rooted path of this
origin. That is decided byte by byte, and holds of what the browser makes of the text.
-/
namespace Albedo.Forms
open WhatwgUrl Separator

def returnFieldName : List Char := "_albedo_return".toList

def maxReturnPathBytes : ℕ := 2048

def isPathByte (c : Char) : Bool := 0x20 < c.toNat && c.toNat < 0x7F

/-- A rooted path on this origin. Neither `//` nor `/\` begins one. -/
def acceptsPath (raw : List Char) : Bool :=
  (Utf8.encode raw).length ≤ maxReturnPathBytes &&
    match raw with
    | '/' :: '/' :: _ | '/' :: '\\' :: _ => false
    | '/' :: _ => raw.all isPathByte
    | _ => false

structure ReturnPath where
  text : List Char
  accepted : acceptsPath text = true

def ReturnPath.root : ReturnPath := ⟨['/'], by decide⟩

def ReturnPath.parse (raw : List Char) : Option ReturnPath :=
  if h : acceptsPath raw = true then some ⟨raw, h⟩ else none

def ReturnPath.withoutFragment (path : ReturnPath) : List Char := path.text.takeWhile (· ≠ '#')

def ReturnPath.atAnchor (path : ReturnPath) (anchor : List Char) : ReturnPath :=
  (ReturnPath.parse (path.withoutFragment ++ '#' :: anchor)).getD path

def FormBody.get (body : FormBody) (name : List Char) : Option (List Char) :=
  (body.fields.find? fun field => field.1 = name).map Prod.snd

def FormBody.returnPath (body : FormBody) : ReturnPath :=
  ((body.get returnFieldName).bind ReturnPath.parse).getD .root

structure Response where
  status : ℕ
  headers : List (String × List Char)

def isHeaderValue (value : List Char) : Bool :=
  value.all fun c => 0x20 ≤ c.toNat && c.toNat < 0x7F || c = '\t'

/-- `303 See Other`. A value no header takes leaves an empty answer. -/
def seeOther (path : ReturnPath) : Response :=
  if isHeaderValue path.text then
    ⟨303, [("location", path.text), ("cache-control", "no-store".toList),
      ("vary", "Cookie".toList)]⟩
  else ⟨200, []⟩

/-! ### What is accepted -/

theorem acceptsPath_cases {raw : List Char} (h : acceptsPath raw = true) :
    ∃ rest, raw = '/' :: rest ∧ (∀ c ∈ rest.head?, isSlash c = false) ∧
      ∀ c ∈ raw, isPathByte c = true := by
  unfold acceptsPath at h
  rw [Bool.and_eq_true] at h
  obtain ⟨-, h⟩ := h
  split at h
  · cases h
  · cases h
  · rename_i rest hslash hbackslash
    refine ⟨rest, rfl, fun c hc => ?_, List.all_eq_true.mp h⟩
    obtain ⟨more, rfl⟩ := List.head?_eq_some_iff.mp hc
    unfold isSlash
    rw [Bool.or_eq_false_iff, decide_eq_false_iff_not, decide_eq_false_iff_not]
    constructor
    · rintro rfl
      exact hslash more rfl
    · rintro rfl
      exact hbackslash more rfl
  · cases h

theorem ReturnPath.parse_eq_some {raw : List Char} {path : ReturnPath}
    (h : ReturnPath.parse raw = some path) : path.text = raw := by
  unfold ReturnPath.parse at h
  split_ifs at h
  exact congrArg ReturnPath.text (Option.some.inj h).symm

theorem ReturnPath.clean_text (path : ReturnPath) : clean path.text = path.text := by
  obtain ⟨rest, -, -, hbytes⟩ := acceptsPath_cases path.accepted
  refine clean_eq_self fun c hc => ?_
  have hbyte := hbytes c hc
  unfold isPathByte at hbyte
  unfold isC0OrSpace
  rw [Bool.and_eq_true, decide_eq_true_eq] at hbyte
  exact decide_eq_false (not_le.mpr hbyte.1)

variable {Host : Type}

theorem ReturnPath.resolve_text (parseHost : List Char → Option Host) (page : Url Host)
    (path : ReturnPath) :
    resolve parseHost page path.text = some (.url (page.withPath [] path.text.tail)) := by
  obtain ⟨rest, htext, hrest, -⟩ := acceptsPath_cases path.accepted
  have hscheme : scheme? (clean path.text) = none := by
    refine scheme?_clean_of_slash ?_
    rw [htext]
    rfl
  have hspelled : spelledAuthority path.text = none := by
    rw [htext]
    exact spelledAuthority_eq_none hrest
  rw [resolve_of_schemeless hscheme, path.clean_text]
  unfold resolveRelative
  rw [hspelled, htext]
  rfl

theorem ReturnPath.withoutFragment_atAnchor (path : ReturnPath) (anchor : List Char) :
    (path.atAnchor anchor).withoutFragment = path.withoutFragment := by
  unfold ReturnPath.atAnchor
  cases hparse : ReturnPath.parse (path.withoutFragment ++ '#' :: anchor) with
  | none => rfl
  | some anchored =>
      have htext := ReturnPath.parse_eq_some hparse
      have hbefore : ∀ c ∈ path.withoutFragment, c ≠ '#' := fun c hc => by
        simpa using List.mem_takeWhile_imp hc
      rw [Option.getD_some]
      unfold ReturnPath.withoutFragment at hbefore htext ⊢
      rw [htext, List.takeWhile_append_of_pos (fun c hc => by simpa using hbefore c hc),
        List.takeWhile_cons_of_neg (by decide), List.append_nil]

theorem ReturnPath.takeWhile_tail (path : ReturnPath) :
    path.text.tail.takeWhile (· ≠ '#') = path.withoutFragment.tail := by
  obtain ⟨rest, htext, -, -⟩ := acceptsPath_cases path.accepted
  unfold ReturnPath.withoutFragment
  rw [htext, List.takeWhile_cons_of_pos (by decide)]
  rfl

/-- What a redirect to a path promises: it is to the app's own origin, and the header holds the
path, which neither ends nor divides it. -/
structure ReturnPath.Safe (parseHost : List Char → Option Host) (page : Url Host)
    (path : ReturnPath) : Prop where
  own : ∃ url, resolve parseHost page path.text = some (.url url) ∧ url.origin = page.origin
  bytes : ∀ c ∈ path.text, isPathByte c = true
  header : (seeOther path).status = 303 ∧
    (seeOther path).headers.lookup "location" = some path.text

/-- A path stays on its page's origin whichever way it was come by, and an anchor changes neither
its path nor its query. -/
theorem return_path_is_safe (parseHost : List Char → Option Host) (page : Url Host) :
    (∀ raw path, ReturnPath.parse raw = some path →
      path.text = raw ∧ path.Safe parseHost page) ∧
    (∀ body : FormBody, body.returnPath.Safe parseHost page) ∧
    ∀ (path : ReturnPath) (anchor : List Char), (path.atAnchor anchor).Safe parseHost page ∧
      (path.atAnchor anchor).withoutFragment = path.withoutFragment ∧
      ∃ url url', resolve parseHost page path.text = some (.url url) ∧
        resolve parseHost page (path.atAnchor anchor).text = some (.url url') ∧
        url'.path = url.path ∧ url'.query = url.query := by
  have hsafe : ∀ path : ReturnPath, path.Safe parseHost page := by
    intro path
    obtain ⟨rest, -, -, hbytes⟩ := acceptsPath_cases path.accepted
    have hheader : isHeaderValue path.text = true := by
      refine List.all_eq_true.mpr fun c hc => ?_
      have hbyte := hbytes c hc
      simp only [isPathByte, Bool.and_eq_true, decide_eq_true_eq] at hbyte
      simp only [Bool.or_eq_true, Bool.and_eq_true, decide_eq_true_eq]
      exact Or.inl ⟨hbyte.1.le, hbyte.2⟩
    have hanswer : seeOther path = ⟨303, [("location", path.text),
        ("cache-control", "no-store".toList), ("vary", "Cookie".toList)]⟩ := if_pos hheader
    refine ⟨⟨_, path.resolve_text parseHost page, origin_withPath ..⟩, hbytes, ?_⟩
    rw [hanswer]
    exact ⟨rfl, rfl⟩
  refine ⟨fun raw path h => ⟨ReturnPath.parse_eq_some h, hsafe path⟩, fun body => hsafe _,
    fun path anchor => ⟨hsafe _, path.withoutFragment_atAnchor anchor, ?_⟩⟩
  refine ⟨_, _, path.resolve_text parseHost page,
    (path.atAnchor anchor).resolve_text parseHost page, withPath_congr page [] ?_⟩
  rw [ReturnPath.takeWhile_tail, ReturnPath.takeWhile_tail, path.withoutFragment_atAnchor]

end Albedo.Forms
