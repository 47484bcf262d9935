import Albedo.Forge.Migration
import Albedo.Library.Ascii
import Albedo.Library.Fallible
import Albedo.Library.Places
import Albedo.Library.Trim

/-!
# Orderings read out of a query

The ordering of a query is read back from its text: after the last `order by`, up to whatever may
follow the clause. The end of the clause is searched for inside words as well, so a column that has
`limit` in its name is read only up to there.
-/
namespace Albedo.Forge
open Fallible Places Words

/-- What can follow an ordering, in lower case. -/
def trailing : List (List Char) := ["limit".toList, "offset".toList, [';'], [')']]

def lowerCase (text : List Char) : List Char := text.map Char.toLower

def parseTerm (term : List Char) : Option SortKey :=
  match words Trim.isWhitespace term with
  | [column] =>
      if isSafeIdentifier (String.ofList column) then some ⟨String.ofList column, .asc⟩ else none
  | [column, dir] =>
      if isSafeIdentifier (String.ofList column) then
        if lowerCase dir = "asc".toList then some ⟨String.ofList column, .asc⟩
        else if lowerCase dir = "desc".toList then some ⟨String.ofList column, .desc⟩
        else none
      else none
  | _ => none

/-- The part of a query after `order by` that is the ordering. -/
def orderClause (tail : List Char) : List Char :=
  Trim.trim (tail.take (endPlace trailing (lowerCase tail)))

/-- The terms of an ordering, or none at all. -/
def parseClause (clause : List Char) : List SortKey :=
  if clause = [] then [] else ((clause.splitOn ',').mapM parseTerm).getD []

/-- Extract the structured ordering from a query's `ORDER BY` clause. -/
def parseOrderBy (query : List Char) : List SortKey :=
  match lastPlace "order by".toList (lowerCase query) with
  | none => []
  | some place => parseClause (orderClause (query.drop (place + "order by".toList.length)))

/-- How an ordering's term is written: ascending is what SQL takes it to be. -/
def SortKey.text (k : SortKey) : List Char :=
  match k.dir with
  | .asc => k.column.toList
  | .desc => k.column.toList ++ " DESC".toList

def orderText (keys : List SortKey) : List Char := ", ".toList.intercalate (keys.map SortKey.text)

/-- A column that is read whole: what can follow an ordering is not in its name. -/
structure ReadWhole (column : String) : Prop where
  safe : isSafeIdentifier column = true
  whole : ∀ w ∈ trailing, ¬ w <:+: lowerCase column.toList

section Identifiers

variable {name : String} {c : Char}

theorem ident_of_mem (h : isSafeIdentifier name = true) (hc : c ∈ name.toList) :
    (c.isAlphanum || c = '_') = true := by
  simp only [isSafeIdentifier, Bool.and_eq_true, List.all_eq_true] at h
  exact h.2 c hc

theorem ident_bounds (h : (c.isAlphanum || c = '_') = true) :
    48 ≤ c.toNat ∧ c.toNat ≤ 57 ∨ 65 ≤ c.toNat ∧ c.toNat ≤ 90 ∨ c.toNat = 95 ∨
      97 ≤ c.toNat ∧ c.toNat ≤ 122 := by
  rw [Bool.or_eq_true, decide_eq_true_eq] at h
  rcases h with halnum | rfl
  · rw [Ascii.isAlphanum_iff, Ascii.isAlpha_iff, Ascii.isDigit_iff] at halnum
    omega
  · decide

theorem not_blank_of_ident (h : (c.isAlphanum || c = '_') = true) : Trim.isWhitespace c = false := by
  have hbounds := ident_bounds h
  simp only [Trim.isWhitespace, decide_eq_false_iff_not]
  omega

theorem plain_column (h : isSafeIdentifier name = true) : Plain Trim.isWhitespace name.toList where
  not_empty := (plain_of_safe h).not_empty
  no_blank _ hc := not_blank_of_ident (ident_of_mem h hc)

theorem not_mem_lowerCase {text : List Char} (hc : c ∉ text) (hlow : c.toNat < 97) :
    c ∉ lowerCase text := by
  intro hmem
  obtain ⟨d, hd, hlower⟩ := List.mem_map.mp hmem
  exact hc (Ascii.eq_of_toLower hlower hlow ▸ hd)

theorem safe_start {w : List Char} (h : isSafeIdentifier name = true) (hw : w <+: name.toList)
    (hne : w ≠ []) : isSafeIdentifier (String.ofList w) = true := by
  obtain ⟨rest, heq⟩ := hw
  simp only [isSafeIdentifier, ← heq, Bool.and_eq_true, decide_eq_true_eq, List.all_append,
    List.length_append] at h
  obtain ⟨⟨⟨-, hlength⟩, hhead⟩, hall, -⟩ := h
  have hshort : w.length ≤ 64 := by omega
  rw [List.head?_append_of_ne_nil w hne] at hhead
  simp [isSafeIdentifier, hne, hshort, hhead, hall]

end Identifiers

/-! ### What a query's text says -/

section Text

variable {keys : List SortKey} {k : SortKey} {column : String} {head tail text w : List Char}

theorem lowerCase_append (text rest : List Char) :
    lowerCase (text ++ rest) = lowerCase text ++ lowerCase rest :=
  List.map_append

theorem orderText_cons_cons (k l : SortKey) (keys : List SortKey) :
    orderText (k :: l :: keys) = k.text ++ ',' :: ' ' :: orderText (l :: keys) := by
  rw [orderText, List.map_cons, List.map_cons, List.intercalate_cons_cons]
  simp [orderText]

theorem lowerCase_text (k : SortKey) :
    lowerCase k.text = lowerCase k.column.toList ∨
      lowerCase k.text = lowerCase k.column.toList ++ ' ' :: "desc".toList := by
  unfold SortKey.text
  cases k.dir with
  | asc => exact Or.inl rfl
  | desc =>
      rw [lowerCase_append]
      exact Or.inr rfl

theorem not_mem_column (h : isSafeIdentifier column = true) {c : Char}
    (hc : (c.isAlphanum || c = '_') = false) (hlow : c.toNat < 97) :
    c ∉ lowerCase column.toList :=
  not_mem_lowerCase (not_mem_of_safe h hc) hlow

theorem trailing_letters :
    ∀ w ∈ trailing, ',' ∉ w ∧ ' ' ∉ w ∧ w ≠ [] ∧ ¬ w <:+: "desc".toList := by
  decide

theorem infix_orderText (hcomma : ',' ∉ w) (hspace : ' ' ∉ w)
    (h : w <:+: lowerCase (orderText keys)) :
    w <:+: "desc".toList ∨ w = [] ∨ ∃ k ∈ keys, w <:+: lowerCase k.column.toList := by
  have hterm : ∀ k : SortKey, w <:+: lowerCase k.text →
      w <:+: "desc".toList ∨ w <:+: lowerCase k.column.toList := by
    intro k hk
    rcases lowerCase_text k with htext | htext
    · exact Or.inr (htext ▸ hk)
    · exact (infix_append_cons hspace (htext ▸ hk)).symm
  induction keys with
  | nil => exact Or.inr (Or.inl (List.infix_nil.mp h))
  | cons k keys ih =>
      cases keys with
      | nil =>
          rw [orderText, List.map_cons, List.map_nil, List.intercalate_singleton] at h
          exact (hterm k h).imp_right fun hk => Or.inr ⟨k, List.mem_cons_self, hk⟩
      | cons l keys =>
          rw [orderText_cons_cons, lowerCase_append] at h
          rcases infix_append_cons hcomma h with hk | hrest
          · exact (hterm k hk).imp_right fun hk => Or.inr ⟨k, List.mem_cons_self, hk⟩
          · rcases infix_append_cons (a := []) hspace hrest with hnil | hlater
            · exact Or.inr (Or.inl (List.infix_nil.mp hnil))
            · exact (ih hlater).imp_right (Or.imp_right fun ⟨m, hm, hw⟩ =>
                ⟨m, List.mem_cons_of_mem k hm, hw⟩)

theorem orderBy_absent (hsafe : ∀ k ∈ keys, isSafeIdentifier k.column = true) :
    ¬ "order by".toList <:+: lowerCase (orderText keys) := by
  have hneedle : "order by".toList = "order".toList ++ ' ' :: "by".toList := by decide
  have hterm : ∀ k ∈ keys, ¬ "order by".toList <:+: lowerCase k.text := by
    intro k hk h
    have hfree : ' ' ∉ lowerCase k.column.toList :=
      not_mem_column (hsafe k hk) (by decide) (by decide)
    rcases lowerCase_text k with htext | htext
    · exact hfree ((htext ▸ h).subset (by decide))
    · rw [htext, hneedle] at h
      rcases infix_across (by decide) hfree h with ⟨-, hdesc⟩ | hdesc
      · exact absurd hdesc (by decide)
      · exact absurd hdesc (by decide)
  induction keys with
  | nil => decide
  | cons k keys ih =>
      cases keys with
      | nil =>
          rw [orderText, List.map_cons, List.map_nil, List.intercalate_singleton]
          exact hterm k List.mem_cons_self
      | cons l keys =>
          intro h
          rw [orderText_cons_cons, lowerCase_append] at h
          rcases infix_append_cons (by decide) h with hk | hrest
          · exact hterm k List.mem_cons_self hk
          · rw [hneedle] at hrest
            rcases infix_across (s := []) (by decide) List.not_mem_nil hrest with ⟨hord, -⟩ | hlater
            · exact absurd (List.suffix_nil.mp hord) (by decide)
            · exact ih (fun m hm => hsafe m (List.mem_cons_of_mem k hm))
                (fun m hm => hterm m (List.mem_cons_of_mem k hm)) hlater

theorem parseOrderBy_append (head : List Char)
    (h : ¬ "order by".toList <:+: lowerCase text) :
    parseOrderBy (head ++ (" ORDER BY ".toList ++ text)) =
      parseClause (orderClause (' ' :: text)) := by
  have hneedle : "order by".toList = "order".toList ++ ' ' :: "by".toList := by decide
  have hlater : ¬ 'o' :: "rder by".toList <:+: "rder by".toList ++ ' ' :: lowerCase text := by
    intro hin
    have hfirst : "rder by".toList ++ ' ' :: lowerCase text =
        "rder".toList ++ ' ' :: ("by".toList ++ ' ' :: lowerCase text) := by
      rw [show "rder by".toList = "rder".toList ++ ' ' :: "by".toList from by decide]
      simp
    rw [hfirst, show 'o' :: "rder by".toList = "order".toList ++ ' ' :: "by".toList from hneedle] at hin
    rcases infix_across (by decide) (by decide) hin with ⟨hord, -⟩ | hin
    · exact absurd hord (by decide)
    · rcases infix_across (by decide) (by decide) hin with ⟨hord, -⟩ | hin
      · exact absurd hord (by decide)
      · exact h (hneedle ▸ hin)
  have hlower : lowerCase (head ++ (" ORDER BY ".toList ++ text)) =
      lowerCase (head ++ [' ']) ++ ('o' :: "rder by".toList ++ ' ' :: lowerCase text) := by
    simp [lowerCase]
  have hplace : lastPlace "order by".toList (lowerCase (head ++ (" ORDER BY ".toList ++ text))) =
      some (head.length + 1) := by
    rw [hlower, show "order by".toList = 'o' :: "rder by".toList from by decide,
      lastPlace_eq 'o' "rder by".toList _ _ hlater]
    simp [lowerCase]
  have hdrop : (head ++ (" ORDER BY ".toList ++ text)).drop
      (head.length + 1 + "order by".toList.length) = ' ' :: text := by
    rw [Nat.add_assoc, List.drop_append]
    simp
  rw [parseOrderBy, hplace]
  simp only [hdrop]

theorem text_plain (h : isSafeIdentifier k.column = true) :
    words Trim.isWhitespace k.text = [k.column.toList] ∧ k.dir = .asc ∨
      words Trim.isWhitespace k.text = [k.column.toList, "DESC".toList] ∧ k.dir = .desc := by
  have hplain := plain_column h
  unfold SortKey.text
  cases k.dir with
  | asc => exact Or.inl ⟨words_plain hplain, rfl⟩
  | desc =>
      refine Or.inr ⟨?_, rfl⟩
      change words Trim.isWhitespace (k.column.toList ++ ' ' :: "DESC".toList) = _
      rw [words_append_blank hplain (by decide)]
      rfl

theorem parseTerm_of_words {dir : SortDir} {term : List Char} (h : isSafeIdentifier column = true)
    (hterm : words Trim.isWhitespace term = [column.toList] ∧ dir = .asc ∨
      words Trim.isWhitespace term = [column.toList, "DESC".toList] ∧ dir = .desc) :
    parseTerm term = some ⟨column, dir⟩ := by
  have hdesc : lowerCase "DESC".toList = "desc".toList := by decide
  have hasc : "desc".toList ≠ "asc".toList := by decide
  rcases hterm with ⟨hwords, rfl⟩ | ⟨hwords, rfl⟩
  · simp [parseTerm, hwords, h]
  · simp only [parseTerm, hwords, String.ofList_toList, h, hdesc, if_neg hasc, if_true]

theorem parseTerm_some {term : List Char} (h : parseTerm term = some k) :
    ∃ column ∈ words Trim.isWhitespace term, isSafeIdentifier (String.ofList column) = true ∧
      k.column = String.ofList column := by
  unfold parseTerm at h
  split at h
  next column hwords =>
    split_ifs at h with hsafe
    obtain rfl := Option.some.inj h
    exact ⟨column, hwords ▸ List.mem_cons_self, hsafe, rfl⟩
  next column dir hwords =>
    have hmem : column ∈ words Trim.isWhitespace term := hwords ▸ List.mem_cons_self
    split_ifs at h with hsafe hasc hdesc
    · obtain rfl := Option.some.inj h
      exact ⟨column, hmem, hsafe, rfl⟩
    · obtain rfl := Option.some.inj h
      exact ⟨column, hmem, hsafe, rfl⟩
  next => cases h

theorem not_mem_text (h : isSafeIdentifier k.column = true) {c : Char}
    (hc : (c.isAlphanum || c = '_') = false) (hspace : c ≠ ' ') : c ∉ k.text := by
  have hcolumn := not_mem_of_safe h hc
  have hdesc : c ∉ " DESC".toList := by
    intro hmem
    have hall : " DESC".toList.all (fun x => x = ' ' || (x.isAlphanum || x = '_')) = true := by decide
    have hkind := List.all_eq_true.mp hall c hmem
    rw [hc] at hkind
    exact hspace (by simpa using hkind)
  unfold SortKey.text
  cases k.dir with
  | asc => exact hcolumn
  | desc => exact fun hmem => (List.mem_append.mp hmem).elim hcolumn hdesc

theorem mapM_parseTerm_orderText (hsafe : ∀ k ∈ keys, isSafeIdentifier k.column = true)
    (hne : keys ≠ []) :
    ((orderText keys).splitOn ',').mapM parseTerm = some keys ∧
      ((' ' :: orderText keys).splitOn ',').mapM parseTerm = some keys := by
  have hblank : Trim.isWhitespace ' ' = true := by decide
  have hread : ∀ k : SortKey, isSafeIdentifier k.column = true →
      parseTerm k.text = some k ∧ parseTerm (' ' :: k.text) = some k := by
    intro k hk
    refine ⟨parseTerm_of_words hk (text_plain hk), parseTerm_of_words hk ?_⟩
    rw [words_blank hblank]
    exact text_plain hk
  have hcomma : ∀ k : SortKey, isSafeIdentifier k.column = true →
      ',' ∉ k.text ∧ ',' ∉ ' ' :: k.text := by
    intro k hk
    have hfree : ',' ∉ k.text := not_mem_text hk (by decide) (by decide)
    refine ⟨hfree, fun hmem => ?_⟩
    rcases List.mem_cons.mp hmem with heq | hmem
    · exact absurd heq (by decide)
    · exact hfree hmem
  induction keys with
  | nil => exact absurd rfl hne
  | cons k keys ih =>
      have hk := hsafe k List.mem_cons_self
      cases keys with
      | nil =>
          have htext : orderText [k] = k.text := by
            rw [orderText, List.map_cons, List.map_nil, List.intercalate_singleton]
          rw [htext, List.splitOn_eq_singleton (hcomma k hk).1, List.splitOn_eq_singleton (hcomma k hk).2]
          constructor
          · simp [(hread k hk).1]
          · simp [(hread k hk).2]
      | cons l keys =>
          obtain ⟨-, hrest⟩ := ih (fun m hm => hsafe m (List.mem_cons_of_mem k hm))
            (List.cons_ne_nil l keys)
          have hfirst : ∀ first : List Char, ',' ∉ first → parseTerm first = some k →
              ((first ++ ',' :: ' ' :: orderText (l :: keys)).splitOn ',').mapM parseTerm =
                some (k :: l :: keys) := by
            intro first hfree hparse
            rw [List.splitOn_append_cons_self_of_not_mem hfree, List.mapM_cons, hparse, hrest]
            rfl
          rw [orderText_cons_cons]
          exact ⟨hfirst k.text (hcomma k hk).1 (hread k hk).1,
            hfirst (' ' :: k.text) (hcomma k hk).2 (hread k hk).2⟩

theorem ends_orderText (hsafe : ∀ k ∈ keys, isSafeIdentifier k.column = true) (hne : keys ≠ []) :
    (∀ c ∈ (orderText keys).head?, Trim.isWhitespace c = false) ∧
      (∀ c ∈ (orderText keys).getLast?, Trim.isWhitespace c = false) ∧ orderText keys ≠ [] := by
  have hterm : ∀ k : SortKey, isSafeIdentifier k.column = true → k.text ≠ [] ∧
      (∀ c ∈ k.text.head?, Trim.isWhitespace c = false) ∧
        ∀ c ∈ k.text.getLast?, Trim.isWhitespace c = false := by
    intro k hk
    have hplain := plain_column hk
    have hhead : ∀ c ∈ k.column.toList.head?, Trim.isWhitespace c = false :=
      fun c hc => hplain.no_blank c (List.mem_of_head? hc)
    unfold SortKey.text
    cases k.dir with
    | asc => exact ⟨hplain.not_empty, hhead, fun c hc =>
        hplain.no_blank c (List.mem_of_getLast? hc)⟩
    | desc =>
        refine ⟨List.append_ne_nil_of_left_ne_nil hplain.not_empty _, ?_, ?_⟩
        · rw [List.head?_append_of_ne_nil _ hplain.not_empty]
          exact hhead
        · intro c hc
          rw [List.getLast?_append_of_ne_nil _ (by decide)] at hc
          obtain rfl : 'C' = c := by simpa using hc
          decide
  induction keys with
  | nil => exact absurd rfl hne
  | cons k keys ih =>
      obtain ⟨hkne, hkhead, hklast⟩ := hterm k (hsafe k List.mem_cons_self)
      cases keys with
      | nil =>
          rw [orderText, List.map_cons, List.map_nil, List.intercalate_singleton]
          exact ⟨hkhead, hklast, hkne⟩
      | cons l keys =>
          obtain ⟨-, hlast, hrest⟩ := ih (fun m hm => hsafe m (List.mem_cons_of_mem k hm))
            (List.cons_ne_nil l keys)
          rw [orderText_cons_cons]
          refine ⟨?_, ?_, List.append_ne_nil_of_left_ne_nil hkne _⟩
          · rw [List.head?_append_of_ne_nil _ hkne]
            exact hkhead
          · rw [List.getLast?_append_of_ne_nil _ (List.cons_ne_nil _ _),
              List.getLast?_cons_of_ne_nil (List.cons_ne_nil _ _), List.getLast?_cons_of_ne_nil hrest]
            exact hlast

theorem parseOrderBy_orderText (head : List Char) (hkeys : ∀ k ∈ keys, ReadWhole k.column)
    (hne : keys ≠ []) :
    parseOrderBy (head ++ (" ORDER BY ".toList ++ orderText keys)) = keys := by
  have hsafe : ∀ k ∈ keys, isSafeIdentifier k.column = true := fun k hk => (hkeys k hk).safe
  have hend : endPlace trailing (lowerCase (' ' :: orderText keys)) =
      (lowerCase (' ' :: orderText keys)).length := by
    refine endPlace_eq_length fun w hw h => ?_
    obtain ⟨hcomma, hspace, hwne, hdesc⟩ := trailing_letters w hw
    have hin : w <:+: lowerCase (orderText keys) := by
      rcases infix_append_cons (a := []) hspace h with hnil | hin
      · exact absurd (List.infix_nil.mp hnil) hwne
      · exact hin
    rcases infix_orderText hcomma hspace hin with h | h | ⟨k, hk, h⟩
    · exact hdesc h
    · exact hwne h
    · exact (hkeys k hk).whole w hw h
  obtain ⟨hhead, hlast, htext⟩ := ends_orderText hsafe hne
  have hclause : orderClause (' ' :: orderText keys) = orderText keys := by
    rw [orderClause, hend, lowerCase, List.length_map, List.take_length]
    exact Trim.trim_blank_cons (by decide) hhead hlast
  rw [parseOrderBy_append head (orderBy_absent hsafe), hclause, parseClause, if_neg htext,
    (mapM_parseTerm_orderText hsafe hne).1]
  rfl

theorem readWhole_of_mem_parseOrderBy {query : List Char} (h : k ∈ parseOrderBy query) :
    ReadWhole k.column := by
  unfold parseOrderBy at h
  cases hplace : lastPlace "order by".toList (lowerCase query) with
  | none =>
      rw [hplace] at h
      exact absurd h List.not_mem_nil
  | some place =>
      rw [hplace] at h
      set tail := query.drop (place + "order by".toList.length)
      replace h : k ∈ parseClause (orderClause tail) := h
      unfold parseClause at h
      split_ifs at h with hempty
      · exact absurd h List.not_mem_nil
      · cases hparse : ((orderClause tail).splitOn ',').mapM parseTerm with
        | none =>
            rw [hparse] at h
            exact absurd h List.not_mem_nil
        | some keys =>
            rw [hparse] at h
            obtain ⟨term, hterm, hk⟩ := exists_of_mem (mapM_eq_some.mp hparse) h
            obtain ⟨column, hcolumn, hsafe, hname⟩ := parseTerm_some hk
            refine ⟨hname ▸ hsafe, fun w hw hin => ?_⟩
            rw [hname, String.toList_ofList] at hin
            have hclause : column <:+: tail.take (endPlace trailing (lowerCase tail)) :=
              (infix_of_mem_splitOnP (List.mem_of_mem_filter hcolumn)).trans
                ((infix_of_mem_splitOnP hterm).trans (Trim.trim_within _))
            have hlower : lowerCase column <:+:
                (lowerCase tail).take (endPlace trailing (lowerCase tail)) := by
              rw [lowerCase, lowerCase, ← List.map_take]
              exact hclause.map Char.toLower
            exact not_infix_take_endPlace hw (trailing_letters w hw).2.2.1 (hin.trans hlower)

/-- The part of a column that is read where the column is an ordering by itself. -/
def readPart (column : String) : String :=
  String.ofList (column.toList.take (endPlace trailing (lowerCase column.toList)))

def readBack (column : String) : List SortKey :=
  if (readPart column).toList = [] then [] else [⟨readPart column, .asc⟩]

theorem parseOrderBy_column (head : List Char) (hsafe : isSafeIdentifier column = true) :
    parseOrderBy (head ++ (" ORDER BY ".toList ++ column.toList)) = readBack column := by
  have hneedle : ¬ "order by".toList <:+: lowerCase column.toList := fun h =>
    not_mem_column (c := ' ') hsafe rfl (by simp)
      (h.subset (show ' ' ∈ "order by".toList by simp))
  have hend : endPlace trailing (lowerCase (' ' :: column.toList)) =
      endPlace trailing (lowerCase column.toList) + 1 := by
    refine endPlace_cons (fun w hw a ha => ?_) fun w hw => (trailing_letters w hw).2.2.1
    obtain ⟨-, hspace, -⟩ := trailing_letters w hw
    exact ne_of_mem_of_not_mem (List.mem_of_head? ha) hspace
  have hpart : ∀ c ∈ (readPart column).toList, Trim.isWhitespace c = false := by
    intro c hc
    rw [readPart, String.toList_ofList] at hc
    exact (plain_column hsafe).no_blank c (List.mem_of_mem_take hc)
  have hclause : orderClause (' ' :: column.toList) = (readPart column).toList := by
    rw [orderClause, hend, List.take_succ_cons, readPart, String.toList_ofList]
    rw [readPart, String.toList_ofList] at hpart
    exact Trim.trim_blank_cons (by decide) (fun c hc => hpart c (List.mem_of_head? hc))
      fun c hc => hpart c (List.mem_of_getLast? hc)
  rw [parseOrderBy_append head hneedle, hclause, parseClause, readBack]
  split_ifs with hempty
  · rfl
  · have hprefix : (readPart column).toList <+: column.toList := by
      rw [readPart, String.toList_ofList]
      exact List.take_prefix _ _
    have hread : isSafeIdentifier (readPart column) = true := by
      have hkept := safe_start hsafe hprefix hempty
      rwa [String.ofList_toList] at hkept
    have hterm : parseTerm (readPart column).toList = some ⟨readPart column, .asc⟩ :=
      parseTerm_of_words hread (Or.inl ⟨words_plain ⟨hempty, hpart⟩, rfl⟩)
    rw [List.splitOn_eq_singleton (not_mem_of_safe hread (by decide))]
    simp [hterm]

end Text

end Albedo.Forge
