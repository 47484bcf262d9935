import Mathlib.Data.List.MinMax
import Mathlib.Data.List.Lex
import Albedo.Library.Fallible
import Albedo.Routing.Router

/-!
# The matching tree

What the router relies on of the tree that matches its paths: what it finds captures the
path, it finds something whenever one of its paths does, and of several it takes the most
specific, where text goes before a parameter and a parameter before a catch-all.
-/
namespace Albedo.Routing
open Fallible

def RoutePart.rank : RoutePart → ℕ
  | .literal _ => 0
  | .param _ => 1
  | .rest _ => 2

def RoutePart.shape : RoutePart → RoutePart
  | .literal text => .literal text
  | .param _ => .param []
  | .rest _ => .rest []

/-- At the first part where they differ in more than a name, one path is more specific. -/
inductive MoreSpecific : Template → Template → Prop
  | here {p q : RoutePart} {ps qs : Template} : p.rank < q.rank → MoreSpecific (p :: ps) (q :: qs)
  | later {p q : RoutePart} {ps qs : Template} : p.shape = q.shape → MoreSpecific ps qs →
      MoreSpecific (p :: ps) (q :: qs)

/-- The tree does what its documentation says, and takes the lowered paths of a lone route. -/
structure MatchIt.Documented (m : MatchIt) : Prop where
  find_captures : ∀ ts path i captured, m.insertAll [] ts = .ok () →
    m.find ts path = some (i, captured) → ∃ t, ts[i]? = some t ∧ capture t path = some captured
  find_best : ∀ ts path t captured, m.insertAll [] ts = .ok () → t ∈ ts →
    capture t path = some captured → ∃ i found t', m.find ts path = some (i, found) ∧
      ts[i]? = some t' ∧ (t' = t ∨ MoreSpecific t' t)
  insert_route : ∀ path ts ts', normalizeRoutePaths path = .ok ts → ts'.Perm ts →
    m.insertAll [] ts' = .ok ()

/-! ### Paths that capture the same -/

def Plain (text : Text) : Prop := text ≠ [] ∧ '/' ∉ text

instance (text : Text) : Decidable (Plain text) := inferInstanceAs (Decidable (_ ∧ _))

def RoutePart.Valid : RoutePart → Prop
  | .literal text => Plain text
  | _ => True

instance : DecidablePred RoutePart.Valid := fun p =>
  match p with
  | .literal text => inferInstanceAs (Decidable (Plain text))
  | .param _ => inferInstanceAs (Decidable True)
  | .rest _ => inferInstanceAs (Decidable True)

def Template.Valid (t : Template) : Prop := ∀ p ∈ t, p.Valid

instance (t : Template) : Decidable t.Valid := inferInstanceAs (Decidable (∀ p ∈ t, p.Valid))

variable {t t' : Template} {path : Text} {captured captured' : List (Text × Text)}

inductive Captures : Template → Text → List (Text × Text) → Prop
  | nil : Captures [] [] []
  | literal {text path : Text} {parts : Template} {captured : List (Text × Text)} :
      Captures parts path captured → Captures (.literal text :: parts) ('/' :: (text ++ path)) captured
  | param {name value path : Text} {parts : Template} {captured : List (Text × Text)} :
      Plain value → Captures parts path captured →
      Captures (.param name :: parts) ('/' :: (value ++ path)) ((name, value) :: captured)
  | rest {name value : Text} : value ≠ [] → Captures [.rest name] ('/' :: value) [(name, value)]

theorem Captures.head (h : Captures t path captured) : path = [] ∨ ∃ rest, path = '/' :: rest := by
  cases h with
  | nil => exact Or.inl rfl
  | literal _ => exact Or.inr ⟨_, rfl⟩
  | param _ _ => exact Or.inr ⟨_, rfl⟩
  | rest _ => exact Or.inr ⟨_, rfl⟩

theorem takeWhile_segment {value rest : Text} (hvalue : '/' ∉ value)
    (hrest : rest = [] ∨ ∃ rest', rest = '/' :: rest') :
    (value ++ rest).takeWhile (· ≠ '/') = value := by
  have hall : ∀ c ∈ value, decide (c ≠ '/') = true := by
    intro c hc
    simp only [decide_eq_true_eq]
    rintro rfl
    exact hvalue hc
  rw [List.takeWhile_append_of_pos hall]
  rcases hrest with rfl | ⟨rest', rfl⟩
  · simp
  · simp

theorem captures_of_captureParts (h : captureParts t path = some captured) :
    Captures t path captured := by
  fun_induction captureParts t path generalizing captured with
  | case1 =>
      cases h
      exact .nil
  | case2 text parts path hprefix ih =>
      obtain ⟨rest, rfl⟩ := List.isPrefixOf_iff_prefix.mp hprefix
      rw [List.drop_left] at ih h
      exact .literal (ih h)
  | case3 => cases h
  | case4 => cases h
  | case5 name parts path value hvalue =>
      rename_i ih
      obtain ⟨captured', hrest, rfl⟩ := Option.map_eq_some_iff.mp h
      have hcut : value ++ path.drop value.length = path :=
        List.prefix_iff_eq_append.mp (List.takeWhile_prefix _)
      have hplain : Plain value := by
        refine ⟨hvalue, fun hmem => ?_⟩
        have hne := List.all_eq_true.mp List.all_takeWhile '/' hmem
        simp at hne
      have hcaptures := @Captures.param name _ _ _ _ hplain (ih hrest)
      rwa [hcut] at hcaptures
  | case6 => cases h
  | case7 name path hpath =>
      cases h
      exact .rest hpath
  | case8 => cases h

theorem captureParts_of_captures (h : Captures t path captured) :
    captureParts t path = some captured := by
  induction h with
  | nil => rfl
  | @literal text path parts captured hrest ih =>
      have hprefix : startsWith text (text ++ path) = true :=
        List.isPrefixOf_iff_prefix.mpr (List.prefix_append text path)
      rw [captureParts, if_pos hprefix, List.drop_left, ih]
  | @param name value path parts captured hplain hrest ih =>
      rw [captureParts, takeWhile_segment hplain.2 hrest.head]
      simp only [if_neg hplain.1, List.drop_left, ih, Option.map_some]
  | @rest name value hvalue => rw [captureParts, if_neg hvalue]

theorem capture_eq_some : capture t path = some captured ↔
    (t = [] ∧ path = ['/'] ∧ captured = []) ∨ (t ≠ [] ∧ Captures t path captured) := by
  unfold capture
  split_ifs with ht hpath
  · simp [ht, hpath, eq_comm]
  · simp [ht, hpath]
  · simp only [ht, false_and, ne_eq, not_false_iff, true_and, false_or]
    exact ⟨captures_of_captureParts, captureParts_of_captures⟩

theorem segment_eq {value value' rest rest' : Text} (hvalue : '/' ∉ value) (hvalue' : '/' ∉ value')
    (hrest : rest = [] ∨ ∃ r, rest = '/' :: r) (hrest' : rest' = [] ∨ ∃ r, rest' = '/' :: r)
    (h : value ++ rest = value' ++ rest') : value = value' ∧ rest = rest' := by
  have hsame : value = value' := by
    rw [← takeWhile_segment hvalue hrest, h, takeWhile_segment hvalue' hrest']
  subst hsame
  exact ⟨rfl, List.append_cancel_left h⟩

theorem Captures.compare (h : Captures t path captured) (h' : Captures t' path captured')
    (ht : t.Valid) (ht' : t'.Valid) :
    t.map RoutePart.shape = t'.map RoutePart.shape ∨ MoreSpecific t t' ∨ MoreSpecific t' t := by
  induction h generalizing t' captured' with
  | nil =>
      cases h'
      exact Or.inl rfl
  | @literal text path parts captured hrest ih =>
      have htext : Plain text := ht _ List.mem_cons_self
      generalize hpath : '/' :: (text ++ path) = whole at h'
      cases h' with
      | nil => cases hpath
      | @literal text' path' parts' captured' hrest' =>
          have htext' : Plain text' := ht' _ List.mem_cons_self
          obtain ⟨rfl, rfl⟩ := segment_eq htext.2 htext'.2 hrest.head hrest'.head (List.cons.inj hpath).2
          rcases ih hrest' (fun p hp => ht p (List.mem_cons_of_mem _ hp))
            (fun p hp => ht' p (List.mem_cons_of_mem _ hp)) with hsame | hless | hgreater
          · exact Or.inl (congrArg (RoutePart.literal text :: ·) hsame)
          · exact Or.inr (Or.inl (.later rfl hless))
          · exact Or.inr (Or.inr (.later rfl hgreater))
      | param _ _ => exact Or.inr (Or.inl (.here (by simp [RoutePart.rank])))
      | rest _ => exact Or.inr (Or.inl (.here (by simp [RoutePart.rank])))
  | @param name value path parts captured hplain hrest ih =>
      generalize hpath : '/' :: (value ++ path) = whole at h'
      cases h' with
      | nil => cases hpath
      | literal _ => exact Or.inr (Or.inr (.here (by simp [RoutePart.rank])))
      | @param name' value' path' parts' captured' hplain' hrest' =>
          obtain ⟨rfl, rfl⟩ := segment_eq hplain.2 hplain'.2 hrest.head hrest'.head
            (List.cons.inj hpath).2
          rcases ih hrest' (fun p hp => ht p (List.mem_cons_of_mem _ hp))
            (fun p hp => ht' p (List.mem_cons_of_mem _ hp)) with hsame | hless | hgreater
          · exact Or.inl (congrArg (RoutePart.param [] :: ·) hsame)
          · exact Or.inr (Or.inl (.later rfl hless))
          · exact Or.inr (Or.inr (.later rfl hgreater))
      | rest _ => exact Or.inr (Or.inl (.here (by simp [RoutePart.rank])))
  | @rest name value hvalue =>
      generalize hpath : '/' :: value = whole at h'
      cases h' with
      | nil => cases hpath
      | literal _ => exact Or.inr (Or.inr (.here (by simp [RoutePart.rank])))
      | param _ _ => exact Or.inr (Or.inr (.here (by simp [RoutePart.rank])))
      | rest _ => exact Or.inl rfl

theorem not_captures_root (ht : t.Valid) (hne : t ≠ []) : ¬ Captures t ['/'] captured := by
  intro h
  generalize hpath : ['/'] = path at h
  cases h with
  | nil => exact hne rfl
  | @literal text path _ _ _ =>
      have htext : Plain text := ht _ List.mem_cons_self
      exact htext.1 (List.append_eq_nil_iff.mp (List.cons.inj hpath).2.symm).1
  | @param _ value path _ _ hplain _ =>
      exact hplain.1 (List.append_eq_nil_iff.mp (List.cons.inj hpath).2.symm).1
  | rest hvalue => exact hvalue (List.cons.inj hpath).2.symm

theorem capture_compare (h : capture t path = some captured) (h' : capture t' path = some captured')
    (ht : t.Valid) (ht' : t'.Valid) :
    t.map RoutePart.shape = t'.map RoutePart.shape ∨ MoreSpecific t t' ∨ MoreSpecific t' t := by
  rcases capture_eq_some.mp h with ⟨rfl, rfl, -⟩ | ⟨hne, hcaptures⟩
  · rcases capture_eq_some.mp h' with ⟨rfl, -, -⟩ | ⟨hne', hcaptures'⟩
    · exact Or.inl rfl
    · exact absurd hcaptures' (not_captures_root ht' hne')
  · rcases capture_eq_some.mp h' with ⟨rfl, rfl, -⟩ | ⟨hne', hcaptures'⟩
    · exact absurd hcaptures (not_captures_root ht hne)
    · exact hcaptures.compare hcaptures' ht ht'

/-! ### Lowered paths -/

theorem normalizeSegment_literal {segment text : Text} {isLast : Bool}
    (h : normalizeSegment path segment isLast = .ok (.part (.literal text))) :
    text = segment ∧ segment ≠ [] := by
  unfold normalizeSegment at h
  split_ifs at h with _ _ _ _ _ hne
  · obtain ⟨_, _, h⟩ := bind_eq_ok.mp h
    obtain ⟨_, _, h⟩ := bind_eq_ok.mp h
    cases h
  · obtain ⟨_, _, h⟩ := bind_eq_ok.mp h
    obtain ⟨_, _, h⟩ := bind_eq_ok.mp h
    cases h
  · obtain ⟨_, _, h⟩ := bind_eq_ok.mp h
    split_ifs at h
    cases h
  · dsimp only at h
    split at h
    · obtain ⟨_, _, h⟩ := bind_eq_ok.mp h
      obtain ⟨_, _, h⟩ := bind_eq_ok.mp h
      cases h
    · obtain ⟨_, _, h⟩ := bind_eq_ok.mp h
      cases h
  · cases h
    exact ⟨rfl, hne⟩

theorem mustBeFinal_ok {kind : String} {isLast : Bool} {u : Unit}
    (h : mustBeFinal path kind isLast = .ok u) : isLast = true := by
  cases isLast with
  | true => rfl
  | false => cases h

theorem normalizeSegment_last {segment : Text} {isLast : Bool} {lowered : RouteSegment}
    (h : normalizeSegment path segment isLast = .ok lowered)
    (hrest : ∃ name, lowered = .part (.rest name) ∨ lowered = .optionalCatchAll name) :
    isLast = true := by
  unfold normalizeSegment at h
  split_ifs at h with _ _ _ _ _ hne
  · obtain ⟨_, _, h⟩ := bind_eq_ok.mp h
    obtain ⟨_, hfinal, h⟩ := bind_eq_ok.mp h
    exact mustBeFinal_ok hfinal
  · obtain ⟨_, _, h⟩ := bind_eq_ok.mp h
    obtain ⟨_, hfinal, h⟩ := bind_eq_ok.mp h
    exact mustBeFinal_ok hfinal
  · obtain ⟨_, _, h⟩ := bind_eq_ok.mp h
    split_ifs at h
    cases h
    simp at hrest
  · dsimp only at h
    split at h
    · obtain ⟨_, _, h⟩ := bind_eq_ok.mp h
      obtain ⟨_, hfinal, h⟩ := bind_eq_ok.mp h
      exact mustBeFinal_ok hfinal
    · obtain ⟨_, _, h⟩ := bind_eq_ok.mp h
      cases h
      simp at hrest
  · cases h
    simp at hrest

theorem normalizeSegments_cons {segment : Text} {segments : List Text} {parts : Template}
    {catchAll : Option Text}
    (h : normalizeSegments path (segment :: segments) = .ok (parts, catchAll)) :
    ∃ lowered parts' catchAll', normalizeSegment path segment segments.isEmpty = .ok lowered ∧
      normalizeSegments path segments = .ok (parts', catchAll') ∧
      ((∃ part, lowered = .part part ∧ parts = part :: parts' ∧ catchAll = catchAll') ∨
        ∃ name, lowered = .optionalCatchAll name ∧ parts = parts' ∧ catchAll = some name) := by
  obtain ⟨lowered, hlowered, h⟩ := bind_eq_ok.mp h
  obtain ⟨⟨parts', catchAll'⟩, hrest, h⟩ := bind_eq_ok.mp h
  refine ⟨lowered, parts', catchAll', hlowered, hrest, ?_⟩
  cases lowered with
  | part part =>
      cases h
      exact Or.inl ⟨part, rfl, rfl, rfl⟩
  | optionalCatchAll name =>
      cases h
      exact Or.inr ⟨name, rfl, rfl, rfl⟩

theorem normalizeSegments_valid {segments : List Text} {parts : Template} {catchAll : Option Text}
    (hsegments : ∀ segment ∈ segments, '/' ∉ segment)
    (h : normalizeSegments path segments = .ok (parts, catchAll)) : Template.Valid parts := by
  induction segments generalizing parts catchAll with
  | nil =>
      cases h
      exact fun p hp => absurd hp List.not_mem_nil
  | cons segment segments ih =>
      obtain ⟨lowered, parts', catchAll', hlowered, hrest, hcase⟩ := normalizeSegments_cons h
      have hvalid := ih (fun s hs => hsegments s (List.mem_cons_of_mem segment hs)) hrest
      rcases hcase with ⟨part, rfl, rfl, -⟩ | ⟨name, -, rfl, -⟩
      · intro p hp
        rcases List.mem_cons.mp hp with rfl | hmem
        · cases p with
          | literal text =>
              obtain ⟨rfl, hne⟩ := normalizeSegment_literal hlowered
              exact ⟨hne, hsegments _ List.mem_cons_self⟩
          | param | rest => trivial
        · exact hvalid p hmem
      · exact hvalid

def RestLast (t : Template) : Prop := ∀ name parts' parts, t = parts' ++ .rest name :: parts → parts = []

theorem normalizeSegments_restLast {segments : List Text} {parts : Template} {catchAll : Option Text}
    (h : normalizeSegments path segments = .ok (parts, catchAll)) :
    RestLast (parts ++ catchAll.toList.map .rest) := by
  induction segments generalizing parts catchAll with
  | nil =>
      cases h
      intro name parts' parts'' heq
      simp at heq
  | cons segment segments ih =>
      obtain ⟨lowered, parts', catchAll', hlowered, hrest, hcase⟩ := normalizeSegments_cons h
      have hend : segments.isEmpty = true → parts' = [] ∧ catchAll' = none := by
        intro hempty
        rw [List.isEmpty_iff.mp hempty] at hrest
        cases hrest
        exact ⟨rfl, rfl⟩
      rcases hcase with ⟨part, rfl, rfl, rfl⟩ | ⟨name, rfl, rfl, rfl⟩
      · intro name before after heq
        cases before with
        | nil =>
            obtain ⟨rfl, rfl⟩ := List.cons.inj heq
            obtain ⟨rfl, rfl⟩ := hend (normalizeSegment_last hlowered ⟨name, Or.inl rfl⟩)
            rfl
        | cons first before => exact ih hrest name before after (List.cons.inj heq).2
      · obtain ⟨rfl, -⟩ := hend (normalizeSegment_last hlowered ⟨name, Or.inr rfl⟩)
        intro name' before after heq
        cases before with
        | nil => exact (List.cons.inj heq).2.symm
        | cons first before => simp at heq

theorem parseRoutePath_restLast {parts : Template} {catchAll : Option Text}
    (h : parseRoutePath path = .ok (parts, catchAll)) :
    RestLast (parts ++ catchAll.toList.map .rest) := by
  obtain ⟨_, -, h⟩ := bind_eq_ok.mp h
  split_ifs at h
  · cases h
    intro name parts' parts'' heq
    simp at heq
  · exact normalizeSegments_restLast h

theorem parseRoutePath_valid {parts : Template} {catchAll : Option Text}
    (h : parseRoutePath path = .ok (parts, catchAll)) : Template.Valid parts := by
  obtain ⟨_, -, h⟩ := bind_eq_ok.mp h
  split_ifs at h
  · cases h
    exact fun p hp => absurd hp List.not_mem_nil
  · refine normalizeSegments_valid (fun segment hmem => ?_) h
    rw [List.splitOn_eq_splitOnP] at hmem
    intro hslash
    have hfree := Words.not_mem_of_mem_splitOnP hmem '/' hslash
    simp at hfree

theorem normalizeRoutePaths_ok {ts : List Template} (h : normalizeRoutePaths path = .ok ts) :
    ∃ parts catchAll, parseRoutePath path = .ok (parts, catchAll) ∧ ts = expand (parts, catchAll) := by
  unfold normalizeRoutePaths at h
  cases hparse : parseRoutePath path with
  | error e =>
      rw [hparse] at h
      cases h
  | ok parsed =>
      rw [hparse] at h
      cases h
      exact ⟨parsed.1, parsed.2, rfl, rfl⟩

theorem Template.Valid.append_rest {parts : Template} (h : parts.Valid) (name : Text) :
    Template.Valid (parts ++ [.rest name]) := by
  intro p hp
  rcases List.mem_append.mp hp with hmem | hmem
  · exact h p hmem
  · obtain rfl := List.mem_singleton.mp hmem
    trivial

theorem normalizeRoutePaths_valid {ts : List Template} (h : normalizeRoutePaths path = .ok ts)
    (ht : t ∈ ts) : t.Valid := by
  obtain ⟨parts, catchAll, hparse, rfl⟩ := normalizeRoutePaths_ok h
  have hvalid := parseRoutePath_valid hparse
  cases catchAll with
  | none =>
      obtain rfl := List.mem_singleton.mp ht
      exact hvalid
  | some name =>
      rcases List.mem_cons.mp ht with rfl | hmem
      · exact hvalid
      · obtain rfl := List.mem_singleton.mp hmem
        exact hvalid.append_rest name

/-! ### A tree that does as documented -/

def shapeOf (t : Template) : Template := t.map RoutePart.shape

/-- The paths that capture a request path, each with its place and what it captures. -/
def candidates (ts : List Template) (path : Text) : List (ℕ × Template × List (Text × Text)) :=
  ts.zipIdx.filterMap fun e => (capture e.1 path).map fun captured => (e.2, e.1, captured)

/-- Paths are tried all at once, and the most specific of those that match is taken. No two may
differ in names only. -/
def allAtOnce : MatchIt where
  insert before t :=
    if ¬ t.Valid then some "invalid segment"
    else if before.any fun t' => shapeOf t' = shapeOf t then some "conflict with another route"
    else none
  find ts path :=
    ((candidates ts path).argmin fun e => e.2.1.map RoutePart.rank).map fun e => (e.1, e.2.2)

theorem MoreSpecific.rank_lt {t t' : Template} (h : MoreSpecific t t') :
    t.map RoutePart.rank < t'.map RoutePart.rank := by
  induction h with
  | here hrank => exact List.Lex.rel hrank
  | @later p q ps qs hshape _ ih =>
      have hrank : p.rank = q.rank := by
        cases p <;> cases q <;> first | rfl | cases hshape
      rw [List.map_cons, List.map_cons, hrank]
      exact List.Lex.cons ih

theorem allAtOnce_built {before ts : List Template} (h : allAtOnce.insertAll before ts = .ok ()) :
    (∀ t ∈ ts, t.Valid) ∧ (∀ t ∈ before, ∀ t' ∈ ts, shapeOf t ≠ shapeOf t') ∧
      ts.Pairwise fun t t' => shapeOf t ≠ shapeOf t' := by
  induction ts generalizing before with
  | nil => simp
  | cons t ts ih =>
      rw [MatchIt.insertAll] at h
      cases hinsert : allAtOnce.insert before t with
      | some message =>
          rw [hinsert] at h
          cases h
      | none =>
          rw [hinsert] at h
          obtain ⟨hvalid, hbefore, hpairs⟩ := ih h
          change (if ¬ t.Valid then some "invalid segment"
            else if before.any fun t' => shapeOf t' = shapeOf t then
              some "conflict with another route" else none) = none at hinsert
          split_ifs at hinsert with ht hany
          simp only [List.any_eq_true, decide_eq_true_eq, not_exists, not_and] at hany
          refine ⟨?_, ?_, ?_⟩
          · intro t' ht'
            rcases List.mem_cons.mp ht' with rfl | hmem
            · exact ht
            · exact hvalid t' hmem
          · intro t' ht' t'' ht''
            rcases List.mem_cons.mp ht'' with rfl | hmem
            · exact hany t' ht'
            · exact hbefore t' (List.mem_append_left _ ht') t'' hmem
          · refine List.pairwise_cons.mpr ⟨fun t' ht' => ?_, hpairs⟩
            exact hbefore t (List.mem_append_right _ (List.mem_singleton.mpr rfl)) t' ht'

theorem allAtOnce_insertAll {before ts : List Template} (hvalid : ∀ t ∈ ts, t.Valid)
    (hbefore : ∀ t ∈ before, ∀ t' ∈ ts, shapeOf t ≠ shapeOf t')
    (hpairs : ts.Pairwise fun t t' => shapeOf t ≠ shapeOf t') :
    allAtOnce.insertAll before ts = .ok () := by
  induction ts generalizing before with
  | nil => rfl
  | cons t ts ih =>
      obtain ⟨hfirst, hpairs⟩ := List.pairwise_cons.mp hpairs
      have hnone : allAtOnce.insert before t = none := by
        change (if ¬ t.Valid then some "invalid segment"
          else if before.any fun t' => shapeOf t' = shapeOf t then
            some "conflict with another route" else none) = none
        rw [if_neg (not_not.mpr (hvalid t List.mem_cons_self)), if_neg]
        simp only [List.any_eq_true, decide_eq_true_eq, not_exists, not_and]
        exact fun t' ht' => hbefore t' ht' t List.mem_cons_self
      rw [MatchIt.insertAll, hnone]
      refine ih (fun t' ht' => hvalid t' (List.mem_cons_of_mem t ht')) ?_ hpairs
      intro t' ht' t'' ht''
      rcases List.mem_append.mp ht' with hmem | hmem
      · exact hbefore t' hmem t'' (List.mem_cons_of_mem t ht'')
      · obtain rfl := List.mem_singleton.mp hmem
        exact hfirst t'' ht''

theorem mem_candidates {ts : List Template} {i : ℕ} :
    (i, t, captured) ∈ candidates ts path ↔ ts[i]? = some t ∧ capture t path = some captured := by
  unfold candidates
  rw [List.mem_filterMap]
  constructor
  · rintro ⟨⟨t', j⟩, hmem, hsome⟩
    obtain ⟨captured', hcapture, heq⟩ := Option.map_eq_some_iff.mp hsome
    cases heq
    exact ⟨List.mem_zipIdx_iff_getElem?.mp hmem, hcapture⟩
  · rintro ⟨hget, hcapture⟩
    exact ⟨(t, i), List.mem_zipIdx_iff_getElem?.mpr hget, by simp [hcapture]⟩

theorem allAtOnce_documented : allAtOnce.Documented where
  find_captures := by
    intro ts path i captured _ hfind
    obtain ⟨⟨i', t, captured'⟩, hmin, heq⟩ := Option.map_eq_some_iff.mp hfind
    cases heq
    exact ⟨t, mem_candidates.mp (List.argmin_mem hmin)⟩
  find_best := by
    intro ts path t captured hbuilt ht hcapture
    obtain ⟨hvalid, -, hpairs⟩ := allAtOnce_built hbuilt
    obtain ⟨i, hi⟩ := List.mem_iff_getElem?.mp ht
    have hmem : (i, t, captured) ∈ candidates ts path := mem_candidates.mpr ⟨hi, hcapture⟩
    cases hmin : (candidates ts path).argmin fun e => e.2.1.map RoutePart.rank with
    | none =>
        rw [List.argmin_eq_none.mp hmin] at hmem
        cases hmem
    | some best =>
        obtain ⟨j, t', found⟩ := best
        obtain ⟨hj, hfound⟩ := mem_candidates.mp (List.argmin_mem hmin)
        refine ⟨j, found, t', by simp [allAtOnce, hmin], hj, ?_⟩
        have hle := List.not_lt_of_mem_argmin hmem hmin
        rcases capture_compare hfound hcapture (hvalid t' (List.mem_of_getElem? hj))
          (hvalid t ht) with hshape | hless | hgreater
        · obtain ⟨hilt, hgeti⟩ := List.getElem?_eq_some_iff.mp hi
          obtain ⟨hjlt, hgetj⟩ := List.getElem?_eq_some_iff.mp hj
          have hdistinct := List.pairwise_iff_getElem.mp hpairs
          rcases Nat.lt_trichotomy i j with hlt | rfl | hgt
          · have hne := hdistinct i j hilt hjlt hlt
            rw [hgeti, hgetj] at hne
            exact absurd hshape.symm hne
          · exact Or.inl (hgetj.symm.trans hgeti)
          · have hne := hdistinct j i hjlt hilt hgt
            rw [hgeti, hgetj] at hne
            exact absurd hshape hne
        · exact Or.inr hless
        · exact absurd hgreater.rank_lt hle
  insert_route := by
    intro path ts ts' hok hperm
    refine allAtOnce_insertAll (fun t ht => normalizeRoutePaths_valid hok (hperm.mem_iff.mp ht))
      (fun t ht => absurd ht List.not_mem_nil) ?_
    refine (hperm.pairwise_iff fun h => h.symm).mpr ?_
    obtain ⟨parts, catchAll, -, rfl⟩ := normalizeRoutePaths_ok hok
    cases catchAll with
    | none => exact List.pairwise_singleton _ _
    | some name =>
        refine List.pairwise_pair.mpr fun hshape => ?_
        have hlength := congrArg List.length hshape
        simp [shapeOf] at hlength

end Albedo.Routing
