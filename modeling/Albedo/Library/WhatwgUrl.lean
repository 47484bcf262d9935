import Albedo.Library.Percent
import Albedo.Library.Separator
import Albedo.Library.Trim

/-!
# How a browser reads a URL

A reference is cleaned before it is read: blanks and control characters at its ends and every tab
and line break are dropped, and a backslash is as good as a slash. It then names a URL relative to
the page it is on. Two slashes at its start introduce an authority, and with it another origin.

Only URLs whose origin is a scheme, a host and a port are told apart further. The rules for a host
are a parameter.
-/
namespace Albedo.WhatwgUrl
open Percent Separator

/-! ### Cleaning -/

def isC0OrSpace (c : Char) : Bool := c.toNat ≤ 0x20

def isTabOrNewline (c : Char) : Bool := c = '\t' || c = '\n' || c = '\r'

def clean (input : List Char) : List Char :=
  ((input.dropWhile isC0OrSpace).rdropWhile isC0OrSpace).filter fun c => !isTabOrNewline c

def isSlash (c : Char) : Bool := c = '/' || c = '\\'

/-! ### Schemes -/

def isSchemeChar (c : Char) : Bool := c.isAlphanum || c = '+' || c = '-' || c = '.'

/-- The scheme a cleaned reference begins with, in lower case, and what follows the colon. -/
def scheme? : List Char → Option (List Char × List Char)
  | [] => none
  | c :: rest =>
      if c.isAlpha then
        match (c :: rest).dropWhile isSchemeChar with
        | ':' :: after => some (((c :: rest).takeWhile isSchemeChar).map Char.toLower, after)
        | _ => none
      else none

/-- The port of a scheme whose URLs have a scheme, a host and a port as their origin. -/
def defaultPort (scheme : List Char) : Option ℕ :=
  if scheme = "http".toList ∨ scheme = "ws".toList then some 80
  else if scheme = "https".toList ∨ scheme = "wss".toList then some 443
  else if scheme = "ftp".toList then some 21
  else none

/-! ### Paths -/

def plain (escaped : List Char) (c : Char) : Bool :=
  0x20 < c.toNat && c.toNat < 0x7F && !escaped.contains c

def pathSafe : Char → Bool := plain "\"#<>?^`\x7b\x7d".toList

def querySafe : Char → Bool := plain "\"#<>'".toList

def fragmentSafe : Char → Bool := plain "\"<>`".toList

def isSingleDot (segment : List Char) : Bool :=
  segment.map Char.toLower ∈ [".".toList, "%2e".toList]

def isDoubleDot (segment : List Char) : Bool :=
  segment.map Char.toLower ∈ ["..".toList, ".%2e".toList, "%2e.".toList, "%2e%2e".toList]

/-- Append segments to a path. A path always has a last segment, which may be empty. -/
def extendPath (path : List (List Char)) : List (List Char) → List (List Char)
  | [] => path
  | [last] =>
      if isDoubleDot last then path.dropLast ++ [[]]
      else if isSingleDot last then path ++ [[]]
      else path ++ [percentEncode pathSafe last]
  | segment :: segments =>
      if isDoubleDot segment then extendPath path.dropLast segments
      else if isSingleDot segment then extendPath path segments
      else extendPath (path ++ [percentEncode pathSafe segment]) segments

def cut (mark : Char) (text : List Char) : List Char × Option (List Char) :=
  match splitOnce mark text with
  | some (before, after) => (before, some after)
  | none => (text, none)

/-! ### URLs -/

variable {Host : Type}

structure Url (Host : Type) where
  scheme : List Char
  host : Host
  port : Option ℕ
  path : List (List Char)
  query : Option (List Char)
  fragment : Option (List Char)
  deriving DecidableEq

inductive Address (Host : Type) where
  | url (named : Url Host)
  | other (scheme rest : List Char)
  deriving DecidableEq

def Url.origin (url : Url Host) : List Char × Host × Option ℕ := (url.scheme, url.host, url.port)

def Address.IsOf (page : Url Host) : Address Host → Prop
  | .url named => named.origin = page.origin
  | .other _ _ => False

def Url.withPath (url : Url Host) (path : List (List Char)) (text : List Char) : Url Host :=
  let (text, fragment) := cut '#' text
  let (text, query) := cut '?' text
  { url with
    path := extendPath path (text.splitOnP isSlash)
    query := query.map (percentEncode querySafe)
    fragment := fragment.map (percentEncode fragmentSafe) }

/-- A reference that begins with no slash: the page's own path, or one beside it. -/
def Url.beside (page : Url Host) (text : List Char) : Url Host :=
  match text with
  | [] => { page with fragment := none }
  | '#' :: fragment => { page with fragment := some (percentEncode fragmentSafe fragment) }
  | '?' :: _ =>
      let (text, fragment) := cut '#' text
      { page with
        query := some (percentEncode querySafe text.tail)
        fragment := fragment.map (percentEncode fragmentSafe) }
  | _ => page.withPath page.path.dropLast text

/-! ### Authorities -/

def endsAuthority (c : Char) : Bool := isSlash c || c = '?' || c = '#'

/-- A host and what follows its colon, if it has one. A colon between brackets is the host's. -/
def hostAndPort (bracketed : Bool) : List Char → List Char × Option (List Char)
  | [] => ([], none)
  | c :: rest =>
      if c = ':' && !bracketed then ([], some rest)
      else
        let bracketed := if c = '[' then true else if c = ']' then false else bracketed
        let parts := hostAndPort bracketed rest
        (c :: parts.1, parts.2)

def readPort (scheme digits : List Char) : Option (Option ℕ) :=
  if digits.all Char.isDigit then
    let port := digits.foldl (fun n c => 10 * n + (c.toNat - 48)) 0
    if digits = [] then some none
    else if 65535 < port then none
    else some (if defaultPort scheme = some port then none else some port)
  else none

def readAuthority (parseHost : List Char → Option Host) (scheme text : List Char) :
    Option (Host × Option ℕ) :=
  let named := match rsplitOnce '@' text with
    | some (_, named) => named
    | none => text
  let (host, port) := hostAndPort false named
  if host = [] then none
  else do
    let host ← parseHost host
    let port ← match port with
      | none => some none
      | some digits => readPort scheme digits
    return (host, port)

def withAuthority (parseHost : List Char → Option Host) (scheme text : List Char) :
    Option (Url Host) := do
  let (host, port) ← readAuthority parseHost scheme (text.takeWhile fun c => !endsAuthority c)
  let after := text.dropWhile fun c => !endsAuthority c
  let path := match after with
    | c :: rest => if isSlash c then rest else after
    | [] => []
  return Url.withPath ⟨scheme, host, port, [], none, none⟩ [] path

/-! ### References -/

/-- What an authority is read from, where a reference without a scheme begins with one. -/
def spelledAuthority : List Char → Option (List Char)
  | c :: d :: rest => if isSlash c && isSlash d then some (rest.dropWhile isSlash) else none
  | _ => none

def resolveRelative (parseHost : List Char → Option Host) (page : Url Host) (text : List Char) :
    Option (Url Host) :=
  match spelledAuthority text with
  | some rest => withAuthority parseHost page.scheme rest
  | none =>
      match text with
      | c :: rest => some (if isSlash c then page.withPath [] rest else page.beside text)
      | [] => some (page.beside [])

/-- What a reference on a page names. Without a result it names nothing. -/
def resolve (parseHost : List Char → Option Host) (page : Url Host) (input : List Char) :
    Option (Address Host) :=
  match scheme? (clean input) with
  | none => (resolveRelative parseHost page (clean input)).map .url
  | some (scheme, rest) =>
      if (defaultPort scheme).isSome then
        if scheme = page.scheme && !(['/', '/'] <+: rest) then
          (resolveRelative parseHost page rest).map .url
        else (withAuthority parseHost scheme (rest.dropWhile isSlash)).map .url
      else some (.other scheme rest)

/-- All that a reference on a page names is of the page's own origin. -/
def Stays (parseHost : List Char → Option Host) (page : Url Host) (input : List Char) : Prop :=
  ∀ address, resolve parseHost page input = some address → address.IsOf page

def OwnAuthority (parseHost : List Char → Option Host) (page : Url Host) (rest : List Char) :
    Prop :=
  ∀ named, readAuthority parseHost page.scheme (rest.takeWhile fun c => !endsAuthority c) =
    some named → named = (page.host, page.port)

variable {parseHost : List Char → Option Host} {page : Url Host} {input text rest : List Char}

theorem cut_fst (mark : Char) (text : List Char) :
    (cut mark text).1 = text.takeWhile (· ≠ mark) := by
  induction text with
  | nil => rfl
  | cons c text ih =>
      unfold cut at ih ⊢
      unfold splitOnce
      by_cases hc : c = mark
      · rw [if_pos hc, List.takeWhile_cons_of_neg (by simpa using hc)]
      · rw [if_neg hc, List.takeWhile_cons_of_pos (by simpa using hc), ← ih]
        cases splitOnce mark text <;> rfl

theorem withPath_congr (url : Url Host) (path : List (List Char)) {text text' : List Char}
    (h : text.takeWhile (· ≠ '#') = text'.takeWhile (· ≠ '#')) :
    (url.withPath path text).path = (url.withPath path text').path ∧
      (url.withPath path text).query = (url.withPath path text').query := by
  have hcut : (cut '#' text).1 = (cut '#' text').1 := by rw [cut_fst, cut_fst, h]
  unfold Url.withPath
  dsimp only
  rw [hcut]
  exact ⟨rfl, rfl⟩

theorem spelledAuthority_eq_none {c : Char} (h : ∀ d ∈ rest.head?, isSlash d = false) :
    spelledAuthority (c :: rest) = none := by
  cases rest with
  | nil => rfl
  | cons d rest =>
      have hd := h d rfl
      unfold spelledAuthority
      dsimp only
      rw [hd, Bool.and_false]
      rfl

@[simp] theorem origin_withPath (url : Url Host) (path : List (List Char)) (text : List Char) :
    (url.withPath path text).origin = url.origin := rfl

@[simp] theorem origin_beside (page : Url Host) (text : List Char) :
    (page.beside text).origin = page.origin := by
  unfold Url.beside
  split <;> rfl

theorem withAuthority_eq_some {scheme : List Char} {url : Url Host}
    (h : withAuthority parseHost scheme text = some url) : ∃ named,
      readAuthority parseHost scheme (text.takeWhile fun c => !endsAuthority c) = some named ∧
      url.origin = (scheme, named) := by
  obtain ⟨named, hread, hurl⟩ := Option.bind_eq_some_iff.mp h
  obtain rfl := Option.some.inj hurl
  exact ⟨named, hread, rfl⟩

theorem exists_withAuthority {scheme : List Char} {named : Host × Option ℕ}
    (h : readAuthority parseHost scheme (text.takeWhile fun c => !endsAuthority c) = some named) :
    ∃ url, withAuthority parseHost scheme text = some url ∧ url.origin = (scheme, named) :=
  ⟨_, Option.bind_eq_some_iff.mpr ⟨named, h, rfl⟩, rfl⟩

theorem resolve_of_schemeless (hscheme : scheme? (clean input) = none) :
    resolve parseHost page input = (resolveRelative parseHost page (clean input)).map .url := by
  unfold resolve
  rw [hscheme]

theorem resolveRelative_spelled (h : spelledAuthority text = some rest) :
    resolveRelative parseHost page text = withAuthority parseHost page.scheme rest := by
  unfold resolveRelative
  rw [h]

theorem resolveRelative_own (h : spelledAuthority text = none) :
    ∃ url, resolveRelative parseHost page text = some url ∧ url.origin = page.origin := by
  unfold resolveRelative
  rw [h]
  cases text with
  | nil => exact ⟨_, rfl, origin_beside page []⟩
  | cons c rest =>
      refine ⟨_, rfl, ?_⟩
      split_ifs
      · exact origin_withPath page [] rest
      · exact origin_beside page (c :: rest)

theorem resolve_own (hscheme : scheme? (clean input) = none)
    (hauthority : spelledAuthority (clean input) = none) :
    ∃ url, resolve parseHost page input = some (.url url) ∧ url.origin = page.origin := by
  obtain ⟨url, hurl, horigin⟩ := @resolveRelative_own _ parseHost page _ hauthority
  refine ⟨url, ?_, horigin⟩
  rw [resolve_of_schemeless hscheme, hurl]
  rfl

/-- A reference without a scheme stays on the page's origin just when it spells no authority, or
one that is refused or the page's own. -/
theorem stays_iff (hscheme : scheme? (clean input) = none) : Stays parseHost page input ↔
    ∀ rest, spelledAuthority (clean input) = some rest → OwnAuthority parseHost page rest := by
  constructor
  · intro h rest hspelled named hread
    obtain ⟨url, hurl, horigin⟩ := exists_withAuthority hread
    have hresolve : resolve parseHost page input = some (.url url) := by
      rw [resolve_of_schemeless hscheme, resolveRelative_spelled hspelled, hurl]
      rfl
    have hown : url.origin = page.origin := h _ hresolve
    rw [horigin] at hown
    exact (Prod.mk.inj hown).2
  · intro h address hresolve
    cases hspelled : spelledAuthority (clean input) with
    | none =>
        obtain ⟨url, hurl, horigin⟩ := @resolve_own _ parseHost page _ hscheme hspelled
        obtain rfl := Option.some.inj (hurl.symm.trans hresolve)
        exact horigin
    | some rest =>
        rw [resolve_of_schemeless hscheme, resolveRelative_spelled hspelled] at hresolve
        obtain ⟨url, hurl, rfl⟩ := Option.map_eq_some_iff.mp hresolve
        obtain ⟨named, hread, horigin⟩ := withAuthority_eq_some hurl
        rw [h rest hspelled named hread] at horigin
        exact horigin

/-! ### What cleaning leaves at the start -/

theorem scheme?_eq_none (h : ∀ c ∈ text.head?, c.isAlpha = false) : scheme? text = none := by
  cases text with
  | nil => rfl
  | cons c rest =>
      have hc := h c rfl
      unfold scheme?
      dsimp only
      rw [hc]
      rfl

theorem not_isTabOrNewline {c : Char} (h : isC0OrSpace c = false) : isTabOrNewline c = false := by
  by_contra htab
  rw [Bool.not_eq_false] at htab
  simp only [isTabOrNewline, Bool.or_eq_true, decide_eq_true_eq] at htab
  rcases htab with (rfl | rfl) | rfl <;> cases h

theorem head?_clean (input : List Char) :
    (clean input).head? = (input.dropWhile isC0OrSpace).head? := by
  unfold clean
  rw [← Trim.head?_rdropWhile_dropWhile isC0OrSpace input]
  cases hleft : (input.dropWhile isC0OrSpace).rdropWhile isC0OrSpace with
  | nil => rfl
  | cons c rest =>
      have hhead := List.head?_dropWhile_not isC0OrSpace input
      rw [← Trim.head?_rdropWhile_dropWhile, hleft] at hhead
      have hkept := not_isTabOrNewline (c := c) (by simpa using hhead)
      rw [List.filter_cons_of_pos (by rw [hkept]; rfl)]
      rfl

theorem scheme?_clean_of_slash (h : input.head? = some '/') : scheme? (clean input) = none := by
  refine scheme?_eq_none fun c hc => ?_
  obtain ⟨rest, rfl⟩ := List.head?_eq_some_iff.mp h
  rw [head?_clean, List.dropWhile_cons_of_neg (by decide)] at hc
  obtain rfl := Option.some.inj hc
  rfl

theorem clean_eq_self (h : ∀ c ∈ input, isC0OrSpace c = false) : clean input = input := by
  have hdrop : input.dropWhile isC0OrSpace = input := by
    cases input with
    | nil => rfl
    | cons c rest => exact List.dropWhile_cons_of_neg (by rw [h c List.mem_cons_self]; decide)
  have hrdrop : input.rdropWhile isC0OrSpace = input := by
    rw [List.rdropWhile_eq_self_iff]
    intro hne hlast
    rw [h _ (List.getLast_mem hne)] at hlast
    cases hlast
  unfold clean
  rw [hdrop, hrdrop, List.filter_eq_self]
  intro c hc
  rw [not_isTabOrNewline (h c hc)]
  rfl

end Albedo.WhatwgUrl
