import Albedo.Library.KeyedList
import Albedo.Library.Separator
import Albedo.Library.Words
import Albedo.Runtime.Broadcast
import Mathlib.Data.Option.Basic

/-!
# Declared sources

A `sources` block names routes of other servers. Lowering it checks the names and reads the
path templates, and a lowered route turns the parameters of a request into an address and a
topic. Budgets, credentials, refresh windows and methods only refuse more declarations; none
of them reaches a topic.
-/
namespace Albedo.Aperture
open Broadcast KeyedList Separator

inductive SourceSchemaError where
  | invalidBase (source reason : String)
  | baseHasQueryOrFragment (source : String)
  | invalidName (kind name : String)
  | invalidPath (source route reason : String)
  | duplicateParam (source route param : String)
  deriving DecidableEq

inductive PathSegment where
  | literal (text : String)
  | param (name : String)

def isIdentifier (name : String) : Bool :=
  match name.toList with
  | [] => false
  | first :: rest =>
      (first.isAlpha || first = '_' || first = '$') &&
        rest.all fun c => c.isAlphanum || c = '_' || c = '$'

def isPlaceholder (name : String) : Bool :=
  name ≠ "" && name.toList.all fun c => c.isAlphanum || c = '_'

/-! ### Path templates -/

def literalSegment (text : List Char) : List PathSegment :=
  if text.isEmpty then [] else [.literal (String.ofList text)]

def lowerSegments (source route : String) (segments : List PathSegment) (params : List String)
    (rest : List Char) : Except SourceSchemaError (List PathSegment × List String) :=
  match _hopen : splitOnce '\x7b' rest with
  | none =>
      if '\x7d' ∈ rest then .error (.invalidPath source route "unmatched `\x7d`")
      else .ok (segments ++ literalSegment rest, params)
  | some (literal, after) =>
      match _hclose : splitOnce '\x7d' after with
      | none => .error (.invalidPath source route "unclosed `\x7b`")
      | some (name, rest') =>
          if name = [] then .error (.invalidPath source route "empty `\x7b\x7d` placeholder")
          else if !isPlaceholder (String.ofList name) then
            .error (.invalidPath source route
              ("placeholder `\x7b" ++ String.ofList name ++ "\x7d` must be alphanumeric or `_`"))
          else if String.ofList name ∈ params then
            .error (.duplicateParam source route (String.ofList name))
          else
            lowerSegments source route
              (segments ++ literalSegment literal ++ [.param (String.ofList name)])
              (params ++ [String.ofList name]) rest'
  termination_by rest.length
  decreasing_by exact (length_lt_of_splitOnce _hclose).trans (length_lt_of_splitOnce _hopen)

/-- Whether `needle` stands somewhere in `text`. -/
def containsText (needle text : List Char) : Bool := text.tails.any needle.isPrefixOf

def lowerPath (source route path : String) :
    Except SourceSchemaError (List PathSegment × List String) :=
  if path.toList.head? ≠ some '/' then .error (.invalidPath source route "must start with `/`")
  else if containsText ['/', '/'] path.toList then
    .error (.invalidPath source route "contains an empty path segment (`//`)")
  else if (path.toList.splitOn '/').any (· = ['.', '.']) then
    .error (.invalidPath source route "contains `..`")
  else lowerSegments source route [] [] path.toList

theorem mem_literalSegment {text : List Char} {segment : PathSegment}
    (h : segment ∈ literalSegment text) : ∃ literal, segment = .literal literal := by
  rw [literalSegment] at h
  split_ifs at h
  · exact absurd h List.not_mem_nil
  · exact ⟨_, List.mem_singleton.mp h⟩

theorem lowerSegments_placeholders {source route : String} {rest : List Char}
    {segments : List PathSegment} {params : List String} {lowered : List PathSegment × List String}
    (h : lowerSegments source route segments params rest = .ok lowered)
    (hsegments : ∀ name, .param name ∈ segments → isPlaceholder name = true) :
    ∀ name, .param name ∈ lowered.1 → isPlaceholder name = true := by
  fun_induction lowerSegments source route segments params rest with
  | case1 segments params rest hopen hclosed => cases h
  | case2 segments params rest hopen hclosed =>
      obtain rfl := Except.ok.inj h
      intro name hmem
      rcases List.mem_append.mp hmem with hold | hliteral
      · exact hsegments name hold
      · obtain ⟨literal, hliteral⟩ := mem_literalSegment hliteral
        cases hliteral
  | case3 => cases h
  | case4 => cases h
  | case5 => cases h
  | case6 => cases h
  | case7 segments params rest literal after hopen name rest' hclose hempty hplaceholder hfresh ih =>
      refine ih h fun other hmem => ?_
      rcases List.mem_append.mp hmem with hold | hnew
      · rcases List.mem_append.mp hold with hold | hliteral
        · exact hsegments other hold
        · obtain ⟨text, hliteral⟩ := mem_literalSegment hliteral
          cases hliteral
      · cases List.mem_singleton.mp hnew
        simpa using hplaceholder

theorem lowerPath_placeholders {source route path : String} {lowered : List PathSegment × List String}
    (h : lowerPath source route path = .ok lowered) :
    ∀ name, .param name ∈ lowered.1 → isPlaceholder name = true := by
  unfold lowerPath at h
  split_ifs at h
  exact lowerSegments_placeholders h fun _ hmem => absurd hmem List.not_mem_nil

/-! ### Lowered routes -/

abbrev Identifier := {name : String // isIdentifier name = true}

/-- A lowered route: what turns a set of parameters into an address and a topic. -/
structure SourceRoute where
  source : Identifier
  route : Identifier
  base : String
  segments : List PathSegment
  params : List String
  placeholders : ∀ name, .param name ∈ segments → isPlaceholder name = true

structure ResolvedSource where
  topic : String
  url : String
  source : String
  route : String

/-- One bound parameter as a topic spells it. -/
def assignment (p : String × String) : String := p.1 ++ "=" ++ p.2

def sourceTopicName (source route : String) (bound : List (String × String)) : Option String :=
  if bound.all fun p => isValidPartitionKey p.2 then
    if bound.isEmpty then some ("aperture:" ++ source ++ "." ++ route)
    else some ("aperture:" ++ source ++ "." ++ route ++ ":" ++ ",".intercalate (bound.map assignment))
  else none

/-- Fill the holes of a template: the path, and what was bound in the order of the template. -/
def bindSegments (param : String → Option String) :
    List PathSegment → Option (String × List (String × String))
  | [] => some ("", [])
  | .literal text :: rest => do
      let (path, bound) ← bindSegments param rest
      return (text ++ path, bound)
  | .param name :: rest => do
      let value ← param name
      guard (isValidPartitionKey value)
      let (path, bound) ← bindSegments param rest
      return (value ++ path, (name, value) :: bound)

def SourceRoute.resolve (r : SourceRoute) (param : String → Option String) :
    Option ResolvedSource := do
  let (path, bound) ← bindSegments param r.segments
  let topic ← sourceTopicName r.source r.route bound
  return { topic, url := r.base ++ path, source := r.source, route := r.route }

def SourceRoute.qualifiedName (r : SourceRoute) : String := r.source ++ "." ++ r.route

structure SourceRegistry where
  routes : List (String × SourceRoute)
  qualified : ∀ e ∈ routes, e.1 = e.2.qualifiedName

def SourceRegistry.get (registry : SourceRegistry) (source route : String) : Option SourceRoute :=
  registry.routes.lookup (source ++ "." ++ route)

def SourceRegistry.empty : SourceRegistry := ⟨[], by simp⟩

def SourceRegistry.insert (registry : SourceRegistry) (r : SourceRoute) : SourceRegistry where
  routes := put r.qualifiedName r registry.routes
  qualified := by
    intro e he
    rcases mem_of_mem_put he with rfl | hold
    · rfl
    · exact registry.qualified e hold

/-! ### Lowering a block -/

structure RouteDecl where
  path : String

structure SourceDecl where
  base : String
  routes : List (String × RouteDecl)

def requireIdentifier (kind name : String) : Except SourceSchemaError Identifier :=
  if h : isIdentifier name = true then .ok ⟨name, h⟩ else .error (.invalidName kind name)

def lowerRoute (source : Identifier) (base name : String) (decl : RouteDecl) :
    Except SourceSchemaError SourceRoute := do
  let route ← requireIdentifier "route" name
  match h : lowerPath source name decl.path with
  | .error e => .error e
  | .ok (segments, params) =>
      return { source, route, base, segments, params, placeholders := lowerPath_placeholders h }

def SourceRegistry.fromDeclarations
    (lowerBase : String → String → Except SourceSchemaError String)
    (declarations : List (String × SourceDecl)) : Except SourceSchemaError SourceRegistry :=
  declarations.foldlM (fun registry (e : String × SourceDecl) => do
    let source ← requireIdentifier "source" e.1
    let base ← lowerBase source e.2.base
    e.2.routes.foldlM (fun registry (r : String × RouteDecl) => do
      return registry.insert (← lowerRoute source base r.1 r.2)) registry) .empty

/-! ### What a topic spells -/

section Spelling

variable {name key source route : String} {bound : List (String × String)} {c : Char}

theorem not_mem_key (h : isValidPartitionKey key = true)
    (hc : (c.isAlphanum || c = '_' || c = '-') = false) : c ∉ key.toList := by
  intro hmem
  simp only [isValidPartitionKey, Bool.and_eq_true, List.all_eq_true] at h
  rw [h.2 c hmem] at hc
  cases hc

theorem not_mem_identifier (h : isIdentifier name = true)
    (hc : (c.isAlphanum || c = '_' || c = '$') = false) : c ∉ name.toList := by
  intro hmem
  rw [isIdentifier] at h
  cases hname : name.toList with
  | nil => rw [hname] at hmem; cases hmem
  | cons first rest =>
      rw [hname] at h hmem
      simp only [Bool.and_eq_true, List.all_eq_true] at h
      rcases List.mem_cons.mp hmem with rfl | hrest
      · have hletter : (c.isAlpha || c = '_' || c = '$') = true := h.1
        rw [Char.isAlphanum] at hc
        simp_all
      · rw [h.2 c hrest] at hc
        cases hc

theorem not_mem_placeholder (h : isPlaceholder name = true)
    (hc : (c.isAlphanum || c = '_') = false) : c ∉ name.toList := by
  intro hmem
  simp only [isPlaceholder, Bool.and_eq_true, List.all_eq_true] at h
  rw [h.2 c hmem] at hc
  cases hc

/-- A parameter list whose names may stand in a template and whose values may be keys. -/
def Bound (bound : List (String × String)) : Prop :=
  ∀ p ∈ bound, isPlaceholder p.1 = true ∧ isValidPartitionKey p.2 = true

@[simp] theorem assignment_toList (p : String × String) :
    (assignment p).toList = p.1.toList ++ '=' :: p.2.toList := by
  simp [assignment]

theorem not_mem_assignment {p : String × String} (hname : isPlaceholder p.1 = true)
    (hvalue : isValidPartitionKey p.2 = true)
    (hc : (c.isAlphanum || c = '_' || c = '-' || c = '=') = false) : c ∉ (assignment p).toList := by
  simp only [Bool.or_eq_false_iff] at hc
  obtain ⟨⟨⟨halphanum, hlow⟩, hdash⟩, hequals⟩ := hc
  have hfirst := not_mem_placeholder (c := c) hname (by rw [halphanum, hlow]; rfl)
  have hsecond := not_mem_key (c := c) hvalue (by rw [halphanum, hlow, hdash]; rfl)
  have hseparator : c ≠ '=' := by simpa using hequals
  simp [hfirst, hsecond, hseparator]

theorem assignments_inj {bound' : List (String × String)} (h : Bound bound) (h' : Bound bound')
    (heq : bound.map assignment = bound'.map assignment) : bound = bound' := by
  induction bound generalizing bound' with
  | nil => exact (List.map_eq_nil_iff.mp heq.symm).symm
  | cons p bound ih =>
      cases bound' with
      | nil => cases heq
      | cons q bound' =>
          obtain ⟨hhead, htail⟩ := List.cons.inj heq
          have hp : p = q := by
            have hspelled := congrArg String.toList hhead
            rw [assignment_toList, assignment_toList] at hspelled
            have hname := not_mem_placeholder (c := '=') (h p List.mem_cons_self).1 (by decide)
            have hname' := not_mem_placeholder (c := '=') (h' q List.mem_cons_self).1 (by decide)
            obtain ⟨hfirst, hsecond⟩ := append_separator_inj hname hname' hspelled
            exact Prod.ext (String.toList_inj.mp hfirst) (String.toList_inj.mp hsecond)
          rw [hp, ih (fun r hr => h r (List.mem_cons_of_mem _ hr))
            (fun r hr => h' r (List.mem_cons_of_mem _ hr)) htail]

/-- What a topic says of the parameters, after the name of the route. -/
def boundText (bound : List (String × String)) : List Char :=
  [','].intercalate ((bound.map assignment).map String.toList)

theorem not_mem_boundText (h : Bound bound)
    (hc : (c.isAlphanum || c = '_' || c = '-' || c = '=' || c = ',') = false) : c ∉ boundText bound := by
  simp only [Bool.or_eq_false_iff] at hc
  have hcomma : c ≠ ',' := by simpa using hc.2
  have hnot : ∀ p ∈ bound, c ∉ (assignment p).toList := fun p hp =>
    not_mem_assignment (h p hp).1 (h p hp).2 (by simp only [Bool.or_eq_false_iff]; exact hc.1)
  intro hmem
  rcases Words.mem_intercalate hmem with hseparator | ⟨part, hpart, hmem⟩
  · exact hcomma hseparator
  · simp only [List.map_map, List.mem_map, Function.comp_apply] at hpart
    obtain ⟨p, hp, rfl⟩ := hpart
    exact hnot p hp hmem

theorem boundText_inj {bound' : List (String × String)} (h : Bound bound) (h' : Bound bound')
    (hne : bound ≠ []) (hne' : bound' ≠ []) (heq : boundText bound = boundText bound') :
    bound = bound' := by
  have hparts : ∀ {bound : List (String × String)}, Bound bound → bound ≠ [] →
      (boundText bound).splitOn ',' = (bound.map assignment).map String.toList := by
    intro bound h hne
    refine List.splitOn_intercalate ',' ?_ (by simpa using hne)
    intro part hpart
    simp only [List.map_map, List.mem_map, Function.comp_apply] at hpart
    obtain ⟨p, hp, rfl⟩ := hpart
    exact not_mem_assignment (h p hp).1 (h p hp).2 (by decide)
  have hsplit := hparts h hne
  rw [heq, hparts h' hne'] at hsplit
  exact assignments_inj h h' (List.map_injective_iff.mpr (fun _ _ => String.toList_inj.mp) hsplit.symm)

theorem sourceTopicName_eq {topic : String} (h : sourceTopicName source route bound = some topic) :
    (∀ p ∈ bound, isValidPartitionKey p.2 = true) ∧
      topic.toList = "aperture".toList ++ ':' :: (source.toList ++ '.' :: (route.toList ++
        if bound = [] then [] else ':' :: boundText bound)) := by
  unfold sourceTopicName at h
  split_ifs at h with hvalid hempty
  · refine ⟨fun p hp => List.all_eq_true.mp hvalid p hp, ?_⟩
    rw [if_pos (List.isEmpty_iff.mp hempty), ← Option.some.inj h]
    simp
  · refine ⟨fun p hp => List.all_eq_true.mp hvalid p hp, ?_⟩
    rw [if_neg (by simpa using hempty), ← Option.some.inj h]
    simp [boundText, String.toList_intercalate]

theorem sourceTopicName_inj {source' route' topic : String} {bound' : List (String × String)}
    (hsource : isIdentifier source = true) (hsource' : isIdentifier source' = true)
    (hroute : isIdentifier route = true) (hroute' : isIdentifier route' = true)
    (hnames : ∀ p ∈ bound, isPlaceholder p.1 = true)
    (hnames' : ∀ p ∈ bound', isPlaceholder p.1 = true)
    (h : sourceTopicName source route bound = some topic)
    (h' : sourceTopicName source' route' bound' = some topic) :
    source = source' ∧ route = route' ∧ bound = bound' := by
  obtain ⟨hvalid, hspelled⟩ := sourceTopicName_eq h
  obtain ⟨hvalid', hspelled'⟩ := sourceTopicName_eq h'
  have hb : Bound bound := fun p hp => ⟨hnames p hp, hvalid p hp⟩
  have hb' : Bound bound' := fun p hp => ⟨hnames' p hp, hvalid' p hp⟩
  have hdot : ∀ {name : String}, isIdentifier name = true → '.' ∉ name.toList := fun hname =>
    not_mem_identifier hname (by decide)
  have hcolon : ∀ {name : String}, isIdentifier name = true → ':' ∉ name.toList := fun hname =>
    not_mem_identifier hname (by decide)
  obtain ⟨hs, hrest⟩ := append_separator_inj (hdot hsource) (hdot hsource')
    (List.cons.inj (List.append_cancel_left (hspelled.symm.trans hspelled'))).2
  refine ⟨String.toList_inj.mp hs, ?_⟩
  by_cases hempty : bound = [] <;> by_cases hempty' : bound' = []
  · rw [if_pos hempty, if_pos hempty', List.append_nil, List.append_nil] at hrest
    exact ⟨String.toList_inj.mp hrest, hempty.trans hempty'.symm⟩
  · rw [if_pos hempty, if_neg hempty', List.append_nil] at hrest
    exact absurd (hrest ▸ by simp) (hcolon hroute)
  · rw [if_neg hempty, if_pos hempty', List.append_nil] at hrest
    exact absurd (hrest ▸ by simp) (hcolon hroute')
  · rw [if_neg hempty, if_neg hempty'] at hrest
    obtain ⟨hr, htext⟩ := append_separator_inj (hcolon hroute) (hcolon hroute') hrest
    exact ⟨String.toList_inj.mp hr, boundText_inj hb hb' hempty hempty' htext⟩

end Spelling

theorem bindSegments_bound {param : String → Option String} {segments : List PathSegment}
    {path : String} {bound : List (String × String)}
    (h : bindSegments param segments = some (path, bound))
    (hsegments : ∀ name, .param name ∈ segments → isPlaceholder name = true) :
    ∀ p ∈ bound, isPlaceholder p.1 = true := by
  induction segments generalizing path bound with
  | nil =>
      obtain ⟨-, rfl⟩ := Prod.mk.inj (Option.some.inj h)
      exact fun p hp => absurd hp List.not_mem_nil
  | cons segment rest ih =>
      have hrest : ∀ name, .param name ∈ rest → isPlaceholder name = true := fun name hmem =>
        hsegments name (List.mem_cons_of_mem _ hmem)
      cases segment with
      | literal text =>
          rw [bindSegments, Option.bind_eq_bind, Option.bind_eq_some_iff] at h
          obtain ⟨⟨path', bound'⟩, htail, heq⟩ := h
          obtain ⟨-, rfl⟩ := Prod.mk.inj (Option.some.inj heq)
          exact ih htail hrest
      | param name =>
          simp only [bindSegments, Option.bind_eq_bind, Option.bind_eq_some_iff] at h
          obtain ⟨value, -, -, -, ⟨path', bound'⟩, htail, heq⟩ := h
          obtain ⟨-, rfl⟩ := Prod.mk.inj (Option.some.inj heq)
          intro p hp
          rcases List.mem_cons.mp hp with rfl | hp
          · exact hsegments _ List.mem_cons_self
          · exact ih htail hrest p hp

/-- Every lookup that answers answers the same under the second one. -/
def Extends (param param' : String → Option String) : Prop :=
  ∀ name value, param name = some value → param' name = some value

theorem bindSegments_extends {param param' : String → Option String} (hparam : Extends param param')
    {segments : List PathSegment} {filled : String × List (String × String)}
    (h : bindSegments param segments = some filled) : bindSegments param' segments = some filled := by
  induction segments generalizing filled with
  | nil => exact h
  | cons segment rest ih =>
      cases segment with
      | literal text =>
          rw [bindSegments, Option.bind_eq_bind, Option.bind_eq_some_iff] at h ⊢
          obtain ⟨tail, htail, heq⟩ := h
          exact ⟨tail, ih htail, heq⟩
      | param name =>
          simp only [bindSegments, Option.bind_eq_bind, Option.bind_eq_some_iff] at h ⊢
          obtain ⟨value, hvalue, hguard, hvalid, tail, htail, heq⟩ := h
          exact ⟨value, hparam name value hvalue, hguard, hvalid, tail, ih htail, heq⟩

theorem SourceRoute.resolve_extends {r : SourceRoute} {param param' : String → Option String}
    (hparam : Extends param param') {resolved : ResolvedSource}
    (h : r.resolve param = some resolved) : r.resolve param' = some resolved := by
  rw [SourceRoute.resolve, Option.bind_eq_bind, Option.bind_eq_some_iff] at h ⊢
  obtain ⟨filled, hfilled, hrest⟩ := h
  exact ⟨filled, bindSegments_extends hparam hfilled, hrest⟩

theorem SourceRoute.resolve_minted {r : SourceRoute} {param : String → Option String}
    {resolved : ResolvedSource} (h : r.resolve param = some resolved) :
    resolved.source = r.source ∧ resolved.route = r.route ∧
      ∃ bound, (∀ p ∈ bound, isPlaceholder p.1 = true) ∧
        sourceTopicName r.source r.route bound = some resolved.topic := by
  simp only [SourceRoute.resolve, Option.bind_eq_bind, Option.bind_eq_some_iff] at h
  obtain ⟨⟨path, bound⟩, hbound, topic, htopic, heq⟩ := h
  obtain rfl := Option.some.inj heq
  exact ⟨rfl, rfl, bound, bindSegments_bound hbound r.placeholders, htopic⟩

end Albedo.Aperture
