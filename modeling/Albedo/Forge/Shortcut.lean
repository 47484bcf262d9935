import Albedo.Forge.RowUpdate

/-!
# The shortcut and the diff

The shortcut compares two rendered arrays by their texts, and keys only the rows behind the
shared part. The diff indexes every row on both sides. They agree where the keys of the next
value identify its rows; a row that was there before can lack a key, or spell it otherwise, and
the shortcut does not see it.
-/
namespace Albedo.Forge
open Json Broadcast KeyedList

variable {previous next tail : List Value} {keyColumn : String} {appended : Keyed}

/-- The text of a field, as the shortcut looks for it. -/
def fragment (keyColumn : String) (keyValue : Value) : List Char :=
  encodeString keyColumn ++ ':' :: keyValue.encode

/-- Every row has a key, and no two have the same one after it is made a string. -/
structure Identified (rows : List Value) (keyColumn : String) : Prop where
  keyed : ∀ row ∈ rows, ∃ key, recordKey keyColumn row = some key
  distinct : (rows.map (recordKey keyColumn)).Nodup

/-- Rows that the shortcut takes for appended ones: they can be read, they are identified among
themselves, and no text of a key of theirs stands in the previous value. -/
structure Offered (previous tail : List Value) (keyColumn : String) : Prop where
  readable : tail ≠ [] → (Value.array tail).depth ≤ recursionLimit
  identified : Identified tail keyColumn
  absent : ∀ row ∈ tail, ∀ keyValue, row.get keyColumn = some keyValue →
    containsText (Value.array previous).encode (fragment keyColumn keyValue) = false

structure Agrees (previous next : List Value) (keyColumn : String) (rows : Keyed) : Prop where
  tailAppend : isTailAppend (.array previous) (.array next) keyColumn = true
  changes : diffRecords (.array previous) (.array next) keyColumn =
    some (rows.map fun row => ⟨1, row.1, row.2⟩)

/-! ### Texts that are prefixes of others -/

theorem encodeItems_append_cases {xs ys : List Value} {rest : List Char}
    (h : encodeItems xs ++ rest = encodeItems ys ++ [']']) :
    (∃ zs, ys = xs ++ zs) ∨ ∃ c ∈ rest.head?, isNumberChar c = true := by
  induction xs generalizing ys with
  | nil => exact Or.inl ⟨ys, rfl⟩
  | cons x xs ih =>
      cases ys with
      | nil => simp [encodeItems] at h
      | cons y ys =>
          simp only [encodeItems, List.cons_append, List.append_assoc, List.cons.injEq,
            true_and] at h
          by_cases hends : x.EndsBefore (encodeItems xs ++ rest)
          · obtain ⟨rfl, hrest⟩ := encode_append_inj hends
              (y.endsBefore_of_stops (stops_encodeItems ys [])) h
            rcases ih hrest with ⟨zs, rfl⟩ | hnumber
            · exact Or.inl ⟨zs, rfl⟩
            · exact Or.inr hnumber
          · right
            unfold Value.EndsBefore Stops at hends
            push Not at hends
            obtain ⟨n, -, c, hc, hchar⟩ := hends
            cases xs with
            | nil => exact ⟨c, hc, by simpa using hchar⟩
            | cons x' xs =>
                obtain rfl : ',' = c := by simpa [encodeItems] using hc
                exact absurd hchar (by decide)

theorem encode_array_append_cases {xs ys : List Value} {rest : List Char}
    (h : '[' :: (joined xs ++ rest) = (Value.array ys).encode) :
    (∃ zs, ys = xs ++ zs) ∨ ∃ c ∈ rest.head?, isNumberChar c = true := by
  rw [encode_array, List.cons.injEq] at h
  cases xs with
  | nil => exact Or.inl ⟨ys, rfl⟩
  | cons x xs =>
      cases ys with
      | nil =>
          obtain ⟨c, r, hc, hclose, -⟩ := x.encode_head
          simp [joined, hc, hclose] at h
      | cons y ys =>
          have hitems : encodeItems (x :: xs) ++ rest = encodeItems (y :: ys) ++ [']'] := by
            rw [encodeItems_eq_cons (List.cons_ne_nil x xs),
              encodeItems_eq_cons (List.cons_ne_nil y ys), List.cons_append, List.cons_append,
              h.2]
          exact encodeItems_append_cases hitems

theorem fromSlice_number {c : Char} {text : List Char} {records : List Value}
    (hc : isNumberChar c = true) (h : fromSlice ('[' :: c :: text) = some (.array records)) :
    ∃ n rest, records = .number n :: rest := by
  have hclose : c ≠ ']' := by
    rintro rfl
    exact absurd hc (by decide)
  obtain ⟨hdecode, -⟩ := Option.filter_eq_some_iff.mp h
  unfold decode at hdecode
  cases hvalue : decodeValue (('[' :: c :: text).length + 1) ('[' :: c :: text) with
  | none => rw [hvalue] at hdecode; cases hdecode
  | some read =>
      obtain ⟨v, rest⟩ := read
      rw [hvalue] at hdecode
      obtain rfl : v = .array records := by
        cases rest with
        | nil => exact Option.some.inj hdecode
        | cons d rest => cases hdecode
      have hopen : isNumberChar '[' = false := by decide
      rw [List.length_cons, List.length_cons, decodeValue, hopen] at hvalue
      simp only [Bool.false_eq_true, if_false, Char.reduceEq, if_true, List.head?_cons,
        Option.some.injEq, hclose, decodeValue, hc] at hvalue
      generalize (c :: text).span isNumberChar = split at hvalue
      obtain ⟨digits, behind⟩ := split
      dsimp only at hvalue
      cases hread : readNumber digits with
      | none => simp [hread] at hvalue
      | some n =>
          simp only [hread, Option.map_some, Option.bind_eq_bind, Option.bind_some] at hvalue
          obtain ⟨⟨vs, r⟩, -, hvalue⟩ := Option.bind_eq_some_iff.mp hvalue
          obtain ⟨harray, -⟩ := Prod.mk.inj (Option.some.inj hvalue)
          exact ⟨n, vs, (Value.array.inj harray).symm⟩

theorem behind_comma (previous : List Value) (htail : tail ≠ []) :
    ∃ c text, (if previous = [] then joined tail else encodeItems tail) = c :: text ∧
      (if c = ',' then text else c :: text) = joined tail := by
  by_cases hprevious : previous = []
  · cases tail with
    | nil => exact absurd rfl htail
    | cons value tail =>
        obtain ⟨c, text, hc, -, -, hcomma⟩ := value.encode_head
        exact ⟨c, text ++ encodeItems tail, by simp [hprevious, joined, hc],
          by simp [hcomma, joined, hc]⟩
  · exact ⟨',', joined tail, by simp [hprevious, encodeItems_eq_cons htail], by simp⟩

theorem appendedRows_cases {rows : Keyed}
    (h : appendedRows (Value.array previous).encode (Value.array next).encode keyColumn =
      some rows) :
    ∃ tail, next = previous ++ tail ∧ (tail ≠ [] → (Value.array tail).depth ≤ recursionLimit) ∧
      keyAppended (Value.array previous).encode keyColumn [] tail = some rows := by
  unfold appendedRows at h
  split_ifs at h with hbrackets hopen
  have hopening : (Value.array previous).encode.dropLast = '[' :: joined previous := by
    rw [encode_array, ← List.cons_append, List.dropLast_concat]
  have hprefix : '[' :: joined previous <+: (Value.array next).encode := by
    have hprefix' : (Value.array previous).encode.dropLast <+: (Value.array next).encode := by
      simpa using hopen
    rwa [hopening] at hprefix'
  obtain ⟨rest, hrest⟩ := hprefix
  rcases encode_array_append_cases hrest with ⟨tail, rfl⟩ | ⟨c, hc, hnumber⟩
  · refine ⟨tail, rfl, ?_⟩
    rw [drop_joined] at h
    by_cases htail : tail = []
    · subst htail
      refine ⟨fun hne => absurd rfl hne, ?_⟩
      obtain rfl : rows = [] := by
        by_cases hx : previous = [] <;> simpa [hx, joined, encodeItems, eq_comm] using h
      rfl
    · obtain ⟨c, text, htext, hjoined⟩ := behind_comma previous htail
      rw [htext] at h
      simp only [hjoined, ← encode_array] at h
      rw [fromSlice, decodeWithin_encode] at h
      split_ifs at h with hdepth
      exact ⟨fun _ => hdepth, h⟩
  · -- the text goes on inside a number, so the first row that is read has no key
    exfalso
    obtain ⟨text, rfl⟩ : ∃ text, rest = c :: text := by
      cases rest with
      | nil => cases hc
      | cons d text => exact ⟨text, by rw [Option.some.inj hc]⟩
    have hcomma : c ≠ ',' := by
      rintro rfl
      exact absurd hnumber (by decide)
    have htail : ((Value.array next).encode.drop
        (Value.array previous).encode.dropLast.length).dropLast = (c :: text).dropLast := by
      rw [hopening, ← hrest, List.cons_append, ← List.cons_append, List.drop_left]
    have hlast : (c :: text).getLast? = some ']' := by
      have hend : (Value.array next).encode.getLast? = some ']' := by
        rw [encode_array, ← List.cons_append, List.getLast?_concat]
      rw [← hrest, List.getLast?_append_of_ne_nil _ (List.cons_ne_nil c text)] at hend
      exact hend
    cases text with
    | nil =>
        obtain rfl : c = ']' := by simpa using hlast
        exact absurd hnumber (by decide)
    | cons d text =>
        rw [htail, List.dropLast_cons_cons] at h
        dsimp only at h
        rw [if_neg hcomma, List.cons_append] at h
        cases hread : fromSlice ('[' :: c :: ((d :: text).dropLast ++ [']'])) with
        | none => rw [hread] at h; cases h
        | some v =>
            rw [hread] at h
            cases v with
            | array records =>
                obtain ⟨n, records, rfl⟩ := fromSlice_number hnumber hread
                simp [keyAppended, Value.get] at h
            | _ => cases h

theorem appendedRows_append (previous : List Value) (keyColumn : String)
    (hdepth : tail ≠ [] → (Value.array tail).depth ≤ recursionLimit) :
    appendedRows (Value.array previous).encode (Value.array (previous ++ tail)).encode keyColumn =
      keyAppended (Value.array previous).encode keyColumn [] tail := by
  have hends : ∀ rows : List Value, (Value.array rows).encode.getLast? = some ']' := fun rows => by
    rw [encode_array, ← List.cons_append, List.getLast?_concat]
  have hlength : ¬ (Value.array previous).encode.length < 2 := by
    rw [encode_array]
    simp
  have hhead : (Value.array previous).encode.head? = some '[' := by
    rw [encode_array]
    rfl
  have hstarts : (Value.array previous).encode.dropLast.isPrefixOf
      (Value.array (previous ++ tail)).encode = true := by
    rw [List.isPrefixOf_iff_prefix, encode_array, ← List.cons_append, List.dropLast_concat,
      encode_array, List.cons_prefix_cons]
    refine ⟨rfl, ?_⟩
    by_cases hprevious : previous = []
    · rw [hprevious]
      exact List.nil_prefix
    · rw [joined_append hprevious, List.append_assoc]
      exact List.prefix_append _ _
  unfold appendedRows
  rw [if_neg (by simp [hlength, hhead, hends]), if_neg (by simp [hstarts]), drop_joined]
  by_cases htail : tail = []
  · subst htail
    by_cases hprevious : previous = [] <;> simp [hprevious, joined, encodeItems, keyAppended]
  · obtain ⟨c, text, htext, hjoined⟩ := behind_comma previous htail
    rw [htext]
    dsimp only
    rw [hjoined, ← encode_array, fromSlice, decodeWithin_encode, if_pos (hdepth htail)]

/-! ### Keys -/

theorem keyAppended_offered {text : List Char} {seen : List String} {rows : Keyed}
    (h : keyAppended text keyColumn seen tail = some rows) :
    Identified tail keyColumn ∧
      (∀ row ∈ tail, ∀ key, recordKey keyColumn row = some key → key ∉ seen) ∧
      ∀ row ∈ tail, ∀ keyValue, row.get keyColumn = some keyValue →
        containsText text (fragment keyColumn keyValue) = false := by
  induction tail generalizing seen rows with
  | nil => exact ⟨⟨by simp, List.nodup_nil⟩, by simp, by simp⟩
  | cons row tail ih =>
      rw [keyAppended] at h
      obtain ⟨keyValue, hvalue, h⟩ := Option.bind_eq_some_iff.mp h
      obtain ⟨key, hkey, h⟩ := Option.bind_eq_some_iff.mp h
      split_ifs at h with hseen htext
      obtain ⟨rest, hrest, -⟩ := Option.bind_eq_some_iff.mp h
      obtain ⟨hidentified, hfresh, habsent⟩ := ih hrest
      have hrow : recordKey keyColumn row = some key := by rw [recordKey, hvalue, Option.bind_some, hkey]
      refine ⟨⟨?_, ?_⟩, ?_, ?_⟩
      · exact List.forall_mem_cons.mpr ⟨⟨key, hrow⟩, hidentified.keyed⟩
      · rw [List.map_cons, List.nodup_cons, hrow]
        refine ⟨fun hmem => ?_, hidentified.distinct⟩
        obtain ⟨row', hrow', hsame⟩ := List.mem_map.mp hmem
        exact hfresh row' hrow' key hsame List.mem_cons_self
      · refine List.forall_mem_cons.mpr ⟨fun key' hkey' => ?_, fun row' hrow' key' hkey' => ?_⟩
        · rwa [Option.some.inj (hkey'.symm.trans hrow)]
        · exact fun hmem => hfresh row' hrow' key' hkey' (List.mem_cons_of_mem key hmem)
      · refine List.forall_mem_cons.mpr ⟨fun keyValue' hvalue' => ?_, habsent⟩
        obtain rfl := Option.some.inj (hvalue'.symm.trans hvalue)
        simpa [fragment] using htext

theorem keyAppended_of_offered {text : List Char} {seen : List String}
    (hidentified : Identified tail keyColumn)
    (hfresh : ∀ row ∈ tail, ∀ key, recordKey keyColumn row = some key → key ∉ seen)
    (habsent : ∀ row ∈ tail, ∀ keyValue, row.get keyColumn = some keyValue →
      containsText text (fragment keyColumn keyValue) = false) :
    ∃ rows, keyAppended text keyColumn seen tail = some rows := by
  induction tail generalizing seen with
  | nil => exact ⟨[], rfl⟩
  | cons row tail ih =>
      obtain ⟨key, hrow⟩ := hidentified.keyed row List.mem_cons_self
      obtain ⟨keyValue, hvalue, hkey⟩ := Option.bind_eq_some_iff.mp hrow
      obtain ⟨hfirst, hrest⟩ := List.nodup_cons.mp hidentified.distinct
      obtain ⟨rows, hrows⟩ := @ih (key :: seen)
        ⟨fun row' hrow' => hidentified.keyed row' (List.mem_cons_of_mem row hrow'), hrest⟩
        (fun row' hrow' key' hkey' hmem => by
          rcases List.mem_cons.mp hmem with rfl | hmem
          · exact hfirst (List.mem_map.mpr ⟨row', hrow', hkey'.trans hrow.symm⟩)
          · exact hfresh row' (List.mem_cons_of_mem row hrow') key' hkey' hmem)
        fun row' hrow' => habsent row' (List.mem_cons_of_mem row hrow')
      have htext := habsent row List.mem_cons_self keyValue hvalue
      refine ⟨(key, row) :: rows, ?_⟩
      unfold fragment at htext
      simp [keyAppended, hvalue, hkey, hfresh row List.mem_cons_self key hrow, htext, hrows]

theorem indexFrom_of_identified {rows : List Value} {seen : List String}
    (h : Identified rows keyColumn)
    (hfresh : ∀ row ∈ rows, ∀ key, recordKey keyColumn row = some key → key ∉ seen) :
    ∃ index, indexFrom keyColumn seen rows = some index := by
  induction rows generalizing seen with
  | nil => exact ⟨[], rfl⟩
  | cons row rows ih =>
      obtain ⟨key, hrow⟩ := h.keyed row List.mem_cons_self
      obtain ⟨hfirst, hrest⟩ := List.nodup_cons.mp h.distinct
      obtain ⟨index, hindex⟩ := @ih (key :: seen)
        ⟨fun row' hrow' => h.keyed row' (List.mem_cons_of_mem row hrow'), hrest⟩
        fun row' hrow' key' hkey' hmem => by
          rcases List.mem_cons.mp hmem with rfl | hmem
          · exact hfirst (List.mem_map.mpr ⟨row', hrow', hkey'.trans hrow.symm⟩)
          · exact hfresh row' (List.mem_cons_of_mem row hrow') key' hkey' hmem
      refine ⟨(key, row) :: index, ?_⟩
      simp [indexFrom, hrow, hfresh row List.mem_cons_self key hrow, hindex]

theorem indexByKey_iff_identified {rows : List Value} :
    (∃ index, indexByKey rows keyColumn = some index) ↔ Identified rows keyColumn := by
  constructor
  · rintro ⟨index, hindex⟩
    obtain ⟨hrows, hnodup, hkeys⟩ := indexByKey_spec hindex
    have hmap : rows.map (recordKey keyColumn) = (keys index).map some := by
      rw [← hrows, List.map_map, keys, List.map_map]
      exact List.map_congr_left fun row hrow => hkeys row hrow
    refine ⟨fun row hrow => ?_, hmap ▸ hnodup.map (Option.some_injective _)⟩
    rw [← hrows] at hrow
    obtain ⟨entry, hentry, rfl⟩ := List.mem_map.mp hrow
    exact ⟨entry.1, hkeys entry hentry⟩
  · exact fun h => indexFrom_of_identified h fun _ _ _ _ => List.not_mem_nil

theorem Identified.of_append (h : Identified (previous ++ tail) keyColumn) :
    Identified previous keyColumn := by
  refine ⟨fun row hrow => h.keyed row (List.mem_append_left tail hrow), ?_⟩
  have hdistinct := h.distinct
  rw [List.map_append] at hdistinct
  exact (List.nodup_append.mp hdistinct).1

/-! ### The diff of an append -/

theorem changesAt_same {P : Keyed} {row : String × Value} (hP : (keys P).Nodup) (hrow : row ∈ P) :
    changesAt P row = [] := by
  obtain ⟨key, record⟩ := row
  rw [changesAt, lookup_of_mem hP hrow]
  simp [Value.same_refl]

theorem changesAt_new {P : Keyed} {row : String × Value} (hrow : row.1 ∉ keys P) :
    changesAt P row = [⟨1, row.1, row.2⟩] := by
  rw [changesAt, lookup_eq_none.mpr hrow]

theorem diffKeyed_append {P : Keyed} (hnodup : (keys (P ++ appended)).Nodup) :
    diffKeyed P (P ++ appended) = appended.map fun row => ⟨1, row.1, row.2⟩ := by
  have hparts := hnodup
  rw [keys_append, List.nodup_append] at hparts
  obtain ⟨hP, -, hfresh⟩ := hparts
  have hkept : (P.filter fun row => row.1 ∉ keys (P ++ appended)) = [] := by
    refine List.filter_eq_nil_iff.mpr fun row hrow => ?_
    have hmem : row.1 ∈ keys (P ++ appended) := by
      rw [keys_append]
      exact List.mem_append_left _ (mem_keys.mpr ⟨row.2, hrow⟩)
    rw [decide_eq_true_eq]
    exact fun hnot => hnot hmem
  have hsame : P.flatMap (changesAt P) = [] :=
    List.flatMap_eq_nil_iff.mpr fun row hrow => changesAt_same hP hrow
  have hnew : appended.flatMap (changesAt P) = appended.map fun row => ⟨1, row.1, row.2⟩ := by
    rw [← List.flatMap_singleton' (appended.map _), List.flatMap_map]
    refine List.flatMap_congr fun row hrow => changesAt_new fun hmem => ?_
    exact hfresh row.1 hmem row.1 (mem_keys.mpr ⟨row.2, hrow⟩) rfl
  rw [diffKeyed, hkept, List.flatMap_append, hsame, hnew]
  rfl

theorem insertsLast_append {ps ks : List String} (hps : ∀ key ∈ ps, key ∈ ks)
    {fresh : List String} (hfresh : ∀ key ∈ fresh, key ∉ ks) (seenInsert : Bool)
    (hseen : ps ≠ [] → seenInsert = false) : insertsLast ks seenInsert (ps ++ fresh) = true := by
  induction ps generalizing seenInsert with
  | nil =>
      induction fresh generalizing seenInsert with
      | nil => rfl
      | cons key fresh ih =>
          rw [List.nil_append, insertsLast, if_neg (hfresh key List.mem_cons_self)]
          exact ih (fun k hk => hfresh k (List.mem_cons_of_mem key hk)) true
            fun hne => absurd rfl hne
  | cons key ps ih =>
      obtain rfl := hseen (List.cons_ne_nil key ps)
      rw [List.cons_append, insertsLast, if_pos (hps key List.mem_cons_self)]
      exact ih (fun k hk => hps k (List.mem_cons_of_mem key hk)) false fun _ => rfl

theorem agrees_append {P : Keyed} (hP : indexByKey previous keyColumn = some P)
    (hN : indexByKey next keyColumn = some (P ++ appended)) :
    Agrees previous next keyColumn appended := by
  obtain ⟨-, hnodup, -⟩ := indexByKey_spec hN
  have hparts := hnodup
  rw [keys_append, List.nodup_append] at hparts
  obtain ⟨-, -, hfresh⟩ := hparts
  refine ⟨?_, ?_⟩
  · have hkept : (keys P).filter (· ∈ keys (P ++ appended)) = keys P :=
      List.filter_eq_self.mpr fun key hkey => by simp [keys_append, hkey]
    have hback : (keys (P ++ appended)).filter (· ∈ keys P) = keys P := by
      rw [keys_append, List.filter_append, List.filter_eq_self.mpr fun key hkey => by simpa using hkey,
        List.filter_eq_nil_iff.mpr fun key hkey => by
          simpa using fun hmem => hfresh key hmem key hkey rfl, List.append_nil]
    have hlast : insertsLast (keys P) false (keys (P ++ appended)) = true := by
      rw [keys_append]
      exact insertsLast_append (fun _ h => h) (fun key hkey hmem => hfresh key hmem key hkey rfl)
        false fun _ => rfl
    simp only [isTailAppend, Value.asArray, hP, hN, hkept, hback, hlast, decide_true, Bool.and_self]
  · simp only [diffRecords, Value.asArray, hP, hN, Option.bind_eq_bind, Option.bind_some]
    exact congrArg some (diffKeyed_append hnodup)

/-- The shortcut says what the diff says, just when the rows it takes for appended ones come
behind rows that keys identify, and have other keys. -/
theorem shortcut_agrees_iff (previous next : List Value) (keyColumn : String) :
    (∀ rows, appendedRows (Value.array previous).encode (Value.array next).encode keyColumn =
        some rows → Agrees previous next keyColumn rows) ↔
      ∀ tail, next = previous ++ tail → Offered previous tail keyColumn →
        Identified next keyColumn := by
  constructor
  · rintro hagrees tail rfl hoffered
    obtain ⟨rows, hrows⟩ := keyAppended_of_offered hoffered.identified
      (fun _ _ _ _ => List.not_mem_nil) hoffered.absent
    rw [← appendedRows_append previous keyColumn hoffered.readable] at hrows
    have hchanges := (hagrees rows hrows).changes
    unfold diffRecords at hchanges
    obtain ⟨_, -, hchanges⟩ := Option.bind_eq_some_iff.mp hchanges
    obtain ⟨_, -, hchanges⟩ := Option.bind_eq_some_iff.mp hchanges
    obtain ⟨_, harray, hchanges⟩ := Option.bind_eq_some_iff.mp hchanges
    obtain ⟨N, hN, -⟩ := Option.bind_eq_some_iff.mp hchanges
    obtain rfl := Option.some.inj harray
    exact indexByKey_iff_identified.mp ⟨N, hN⟩
  · intro hidentified rows hrows
    obtain ⟨tail, rfl, hdepth, hkeyed⟩ := appendedRows_cases hrows
    obtain ⟨htail, -, habsent⟩ := keyAppended_offered hkeyed
    have hnext := hidentified tail rfl ⟨hdepth, htail, habsent⟩
    obtain ⟨N, hN⟩ := indexByKey_iff_identified.mpr hnext
    obtain ⟨P, hP⟩ := indexByKey_iff_identified.mpr hnext.of_append
    obtain ⟨hP₁, -, hP₂⟩ := indexByKey_spec hP
    obtain ⟨hN₁, -, hN₂⟩ := indexByKey_spec hN
    obtain ⟨hrows₁, hrows₂⟩ := keyAppended_spec hkeyed
    have hsplit : N = P ++ rows := by
      refine index_unique (by rw [hN₁, List.map_append, hP₁, hrows₁]) hN₂ fun row hrow => ?_
      rcases List.mem_append.mp hrow with hrow | hrow
      · exact hP₂ row hrow
      · exact hrows₂ row hrow
    exact agrees_append hP (hsplit ▸ hN)

/-- Two rows whose keys are `1` and `"1"`: the shortcut takes the second for a new row. -/
theorem same_key_is_appended :
    ¬ ∀ (previous next : List Value) (keyColumn : String) (rows : Keyed),
      appendedRows (Value.array previous).encode (Value.array next).encode keyColumn =
        some rows → Agrees previous next keyColumn rows := by
  intro h
  have hshort : appendedRows
      (Value.array [.object [("id", .number (.int 1))]]).encode
      (Value.array [.object [("id", .number (.int 1))], .object [("id", .string "1")]]).encode
      "id" = some [("1", .object [("id", .string "1")])] := by
    decide +kernel
  have hchanges := (h _ _ _ _ hshort).changes
  have hrefused : diffRecords (.array [.object [("id", .number (.int 1))]])
      (.array [.object [("id", .number (.int 1))], .object [("id", .string "1")]]) "id" = none := by
    decide +kernel
  rw [hrefused] at hchanges
  cases hchanges

end Albedo.Forge
