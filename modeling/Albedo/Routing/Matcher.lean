import Albedo.Routing.Router

/-!
# The matcher of a middleware

Which requests enter a middleware is said by patterns. A pattern is compared with the decoded
path, cut at its slashes.
-/
namespace Albedo.Routing
open Percent Words

inductive Segment where
  | literal (text : Text)
  | param
  | optional
  | rest (atLeastOne : Bool)
  deriving DecidableEq

structure Pattern where
  source : Text
  segments : List Segment
  deriving DecidableEq

structure Matcher where
  patterns : Option (List Pattern)

def isSlash (c : Char) : Bool := c = '/'

abbrev pieces (path : Text) : List Text := words isSlash path

def regexSyntax (c : Char) : Bool :=
  ['(', ')', '[', ']', '{', '}', '\\', '|', '^', '$'].contains c

def refuse {α : Type} (source : Text) (why : String) : Except String α :=
  .error ("matcher \"" ++ String.ofList source ++ "\": " ++ why)

def paramKind (param : Text) : Text × Segment :=
  match param.getLast? with
  | some '*' => (param.dropLast, .rest false)
  | some '+' => (param.dropLast, .rest true)
  | some '?' => (param.dropLast, .optional)
  | _ => (param, .param)

def parseSegment (source part : Text) (last : Bool) : Except String Segment :=
  match part with
  | ':' :: param =>
      let (name, kind) := paramKind param
      if name = [] ∨ ¬ name.all nameChar then
        refuse source ("`:" ++ String.ofList param ++ "` is not a parameter — a name is letters, " ++
          "digits and `_`, optionally followed by one of `?`, `*` or `+`")
      else if ¬ last ∧ kind ≠ .param then
        refuse source ("`:" ++ String.ofList param ++ "` can only be the last segment — nothing " ++
          "after a variable-length segment could be matched unambiguously")
      else .ok kind
  | part =>
      match part.find? fun c => c = '*' || c = '+' || c = '?' || c = ':' with
      | some bad =>
          refuse source ("`" ++ bad.toString ++ "` inside the segment `" ++ String.ofList part ++
            "` is not supported. A wildcard is its own segment: write `/:path*` rather than `/*` " ++
          "or `/foo*`")
      | none =>
          if part = ['.'] ∨ part = ['.', '.'] then
            refuse source "`.` and `..` segments can never match a request path"
          else .ok (.literal part)

def parseSegments (source : Text) : List Text → Except String (List Segment)
  | [] => .ok []
  | part :: parts => do
      let segment ← parseSegment source part parts.isEmpty
      let segments ← parseSegments source parts
      return segment :: segments

def Pattern.parse (source : Text) : Except String Pattern :=
  if source.head? ≠ some '/' then refuse source "a pattern must start with `/`"
  else
    match source.find? regexSyntax with
    | some bad =>
        refuse source ("`" ++ bad.toString ++ "` is regex syntax, which is not supported. Use " ++
          "`:name` for one segment and `:name*` / `:name+` for the rest of the path")
    | none => (parseSegments source (pieces source)).map (Pattern.mk source)

def matchesSegments : List Segment → List Text → Bool
  | [], path => path.isEmpty
  | .literal text :: segments, path =>
      match path with
      | [] => false
      | piece :: path => piece = text && matchesSegments segments path
  | .param :: segments, path =>
      match path with
      | [] => false
      | _ :: path => matchesSegments segments path
  | .optional :: _, path => path.length ≤ 1
  | .rest atLeastOne :: _, path => !atLeastOne || 0 < path.length

/-- Whether a request for a path, still percent-encoded, enters the middleware. -/
def Matcher.admits (matcher : Matcher) (rawPath : Text) : Bool :=
  match matcher.patterns with
  | none => true
  | some patterns =>
      patterns.any fun pattern => matchesSegments pattern.segments (pieces (percentDecodePath rawPath))

/-! ### Decoded paths -/

theorem neutral_slash : Neutral '/' := ⟨by decide, by decide⟩

def spelled (raw : Text) : List Text := pieces (percentDecodePath raw)

@[simp] theorem spelled_nil : spelled [] = [] := rfl

theorem spelled_append (s t : Text) : spelled (s ++ '/' :: t) = spelled s ++ spelled t := by
  unfold spelled
  rw [percentDecodePath_append neutral_slash]
  exact words_append _ rfl

theorem spelled_cons (t : Text) : spelled ('/' :: t) = spelled t := spelled_append [] t

theorem spelled_segment {segment rest : Text} (hrest : rest = [] ∨ ∃ rest', rest = '/' :: rest') :
    spelled (segment ++ rest) = spelled segment ++ spelled rest := by
  rcases hrest with rfl | ⟨rest', rfl⟩
  · rw [List.append_nil, spelled_nil, List.append_nil]
  · rw [spelled_append, spelled_cons]

theorem pieces_plain {text : Text} (hne : text ≠ []) (hslash : '/' ∉ text) : pieces text = [text] := by
  refine words_plain ⟨hne, fun c hc => ?_⟩
  simp only [isSlash, decide_eq_false_iff_not]
  rintro rfl
  exact hslash hc

theorem spelled_literal {text : Text} (hne : text ≠ []) (hslash : '/' ∉ text)
    (hself : percentDecodePath text = text) : spelled text = [text] := by
  unfold spelled
  rw [hself, pieces_plain hne hslash]

end Albedo.Routing
