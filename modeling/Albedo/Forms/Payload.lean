import Albedo.Library.FormUrlencoded
import Mathlib.Algebra.Order.BigOperators.Group.List
import Mathlib.Algebra.Order.Group.Nat
import Mathlib.Logic.Function.Basic

/-!
# What a form submits

A form's controls as a browser submits them itself, in a form-encoded body that the server makes
an object of, and as the page's script submits them, in an object it makes of the controls. A
name that comes up once has one value in the object, a name that comes up again has a list.
-/
namespace Albedo.Forms

inductive Leaf
  | text (value : List Char)
  | yes
  deriving DecidableEq

inductive FieldValue
  | one (value : Leaf)
  | many (values : List Leaf)
  deriving DecidableEq

abbrev Payload := List Char → Option FieldValue

/-! ### The controls of a form -/

structure Choice where
  value : List Char
  disabled : Bool

inductive Kind
  /-- Inputs that hold text, and text areas. -/
  | text (hidden : Bool) (value : List Char)
  /-- Check boxes and radio buttons. -/
  | tick (checked : Bool) (value : List Char)
  | button (submits pressed : Bool) (value : List Char)
  /-- The option that is selected, if one is. -/
  | select (choice : Option Choice)
  /-- The options that are selected. -/
  | selectMultiple (chosen : List Choice)

structure Control where
  name : List Char
  /-- By an attribute of its own. -/
  disabled : Bool
  inDisabledFieldset : Bool
  kind : Kind

def onValue : List Char := "on".toList

def charsetField : List Char := "_charset_".toList

def charsetName : List Char := "UTF-8".toList

/-! ### The script -/

def appendField (target : Payload) (name : List Char) (value : Leaf) : Payload :=
  match target name with
  | some (.many existing) => Function.update target name (some (.many (existing ++ [value])))
  | some (.one existing) => Function.update target name (some (.many [existing, value]))
  | none => Function.update target name (some (.one value))

/-- The loop's body in `serializeFormToJson`. -/
def serializeControl (out : Payload) (el : Control) : Payload :=
  if el.name = [] then out
  else if el.disabled then out
  else match el.kind with
    | .button submits pressed value =>
        if submits && pressed then appendField out el.name (.text value) else out
    | .tick checked value =>
        if !checked then out
        else appendField out el.name (if value = onValue ∨ value = [] then .yes else .text value)
    | .selectMultiple chosen =>
        Function.update out el.name (some (.many (chosen.map fun o => .text o.value)))
    | .select choice => appendField out el.name (.text ((choice.map Choice.value).getD []))
    | .text _ value => appendField out el.name (.text value)

def intentField : List Char := "_albedo_intent".toList

def serializeFormToJson (form : List Control) (intentToken : List Char) : Payload :=
  let out := form.foldl serializeControl fun _ => none
  if intentToken = [] then out
  else Function.update out intentField (some (.one (.text intentToken)))

/-! ### The browser -/

/-- Every line end of a name or a value is a carriage return and a line feed. -/
def crlf : List Char → List Char
  | '\r' :: '\n' :: s => '\r' :: '\n' :: crlf s
  | '\r' :: s => '\r' :: '\n' :: crlf s
  | '\n' :: s => '\r' :: '\n' :: crlf s
  | c :: s => c :: crlf s
  | [] => []

def Control.values (el : Control) : List (List Char) :=
  match el.kind with
  | .button submits pressed value => if submits && pressed then [value] else []
  | .tick checked value => if checked then [value] else []
  | .selectMultiple chosen => (chosen.filter fun o => !o.disabled).map Choice.value
  | .select choice => (choice.toList.filter fun o => !o.disabled).map Choice.value
  | .text hidden value =>
      if hidden && el.name.map Char.toLower = charsetField then [charsetName] else [value]

def Control.sent (el : Control) : List (List Char) :=
  if el.name = [] ∨ el.disabled ∨ el.inDisabledFieldset then [] else el.values.map crlf

def entryList (form : List Control) : List (List Char × List Char) :=
  form.flatMap fun el => el.sent.map fun value => (crlf el.name, value)

def submission (form : List Control) : List Char := FormUrlencoded.serialize (entryList form)

/-! ### The server -/

structure FormBody where
  fields : List (List Char × List Char)

def FormBody.parse (body : List Char) : FormBody := ⟨FormUrlencoded.parse body⟩

/-- The loop's body in `to_action_payload`. -/
def insertField (object : Payload) (field : List Char × List Char) : Payload :=
  match object field.1 with
  | none => Function.update object field.1 (some (.one (.text field.2)))
  | some (.many existing) =>
      Function.update object field.1 (some (.many (existing ++ [.text field.2])))
  | some (.one first) => Function.update object field.1 (some (.many [first, .text field.2]))

def FormBody.toActionPayload (body : FormBody) : Payload :=
  body.fields.foldl insertField fun _ => none

/-! ### What is under one name -/

def coalesce : List Leaf → Option FieldValue
  | [] => none
  | [value] => some (.one value)
  | values => some (.many values)

def underName (listed : Bool) (values : List Leaf) : Option FieldValue :=
  if listed then some (.many values) else coalesce values

theorem appendField_other {target : Payload} {name other : List Char} {value : Leaf}
    (h : other ≠ name) : appendField target name value other = target other := by
  unfold appendField
  cases target name with
  | none => exact Function.update_of_ne h _ _
  | some existing => cases existing <;> exact Function.update_of_ne h _ _

theorem appendField_self {target : Payload} {name : List Char} {listed : Bool} {values : List Leaf}
    (value : Leaf) (h : target name = underName listed values) :
    appendField target name value name = underName listed (values ++ [value]) := by
  unfold appendField
  rw [h]
  cases listed with
  | true => exact Function.update_self _ _ _
  | false =>
      match values with
      | [] => exact Function.update_self _ _ _
      | [first] => exact Function.update_self _ _ _
      | first :: second :: values => exact Function.update_self _ _ _

theorem insertField_eq (object : Payload) (field : List Char × List Char) :
    insertField object field = appendField object field.1 (.text field.2) := by
  unfold insertField appendField
  cases object field.1 with
  | none => rfl
  | some value => cases value <;> rfl

theorem underName_inj {listed : Bool} {values values' : List Leaf} :
    underName listed values = underName false values' ↔
      values = values' ∧ (listed = true → 2 ≤ values'.length) := by
  cases listed with
  | true =>
      match values' with
      | [] => simp [underName, coalesce]
      | [value] => simp [underName, coalesce]
      | first :: second :: rest => simp [underName, coalesce]
  | false =>
      match values, values' with
      | [], [] => simp [underName, coalesce]
      | [], [value] => simp [underName, coalesce]
      | [], first :: second :: rest => simp [underName, coalesce]
      | [value], [] => simp [underName, coalesce]
      | [value], [value'] => simp [underName, coalesce]
      | [value], first :: second :: rest => simp [underName, coalesce]
      | first :: second :: rest, [] => simp [underName, coalesce]
      | first :: second :: rest, [value] => simp [underName, coalesce]
      | first :: second :: rest, first' :: second' :: rest' => simp [underName, coalesce]

def valuesUnder (name : List Char) (fields : List (List Char × List Char)) : List Leaf :=
  (fields.filter fun field => field.1 = name).map fun field => .text field.2

theorem toActionPayload_apply (body : FormBody) (name : List Char) :
    body.toActionPayload name = coalesce (valuesUnder name body.fields) := by
  have hrun : ∀ (fields : List (List Char × List Char)) (object : Payload) (values : List Leaf),
      object name = underName false values →
      fields.foldl insertField object name = underName false (values ++ valuesUnder name fields) := by
    intro fields
    induction fields with
    | nil =>
        intro object values h
        rw [valuesUnder, List.filter_nil, List.map_nil, List.append_nil]
        exact h
    | cons field fields ih =>
        intro object values h
        rw [List.foldl_cons, insertField_eq]
        by_cases hname : field.1 = name
        · subst hname
          rw [ih _ _ (appendField_self _ h)]
          simp [valuesUnder]
        · rw [ih _ values ((appendField_other (Ne.symm hname)).trans h)]
          simp [valuesUnder, hname]
  exact hrun body.fields _ [] rfl

/-! ### What the script reads -/

def Kind.multiple : Kind → Bool
  | .selectMultiple _ => true
  | _ => false

def Control.heard (el : Control) : List Leaf :=
  if el.name = [] ∨ el.disabled then []
  else match el.kind with
    | .button submits pressed value => if submits && pressed then [.text value] else []
    | .tick checked value =>
        if !checked then [] else [if value = onValue ∨ value = [] then .yes else .text value]
    | .selectMultiple chosen => chosen.map fun o => .text o.value
    | .select choice => [.text ((choice.map Choice.value).getD [])]
    | .text _ value => [.text value]

def Control.lists (el : Control) : Bool := el.name ≠ [] && !el.disabled && el.kind.multiple

/-- What a name has once one more control is read, and whether it is a list in any case. -/
def hear (name : List Char) (had : Bool × List Leaf) (el : Control) : Bool × List Leaf :=
  if el.name ≠ name then had
  else if el.lists then (true, el.heard)
  else (had.1, had.2 ++ el.heard)

def read (name : List Char) (form : List Control) : Bool × List Leaf :=
  form.foldl (hear name) (false, [])

theorem hear_other {name : List Char} {el : Control} (h : el.name ≠ name)
    (had : Bool × List Leaf) : hear name had el = had := if_pos h

theorem hear_append {el : Control} (h : el.lists = false) (had : Bool × List Leaf) :
    hear el.name had el = (had.1, had.2 ++ el.heard) := by
  rw [hear, if_neg (not_not_intro rfl), h]
  exact if_neg Bool.false_ne_true

theorem hear_list {el : Control} (h : el.lists = true) (had : Bool × List Leaf) :
    hear el.name had el = (true, el.heard) := by
  rw [hear, if_neg (not_not_intro rfl), if_pos h]

theorem serializeControl_other {name : List Char} {el : Control} (h : el.name ≠ name)
    (out : Payload) : serializeControl out el name = out name := by
  have hname : name ≠ el.name := Ne.symm h
  unfold serializeControl
  split_ifs
  · rfl
  · rfl
  · cases el.kind with
    | text hidden value => exact appendField_other hname
    | tick checked value =>
        cases checked with
        | false => rfl
        | true => exact appendField_other hname
    | button submits pressed value =>
        by_cases hpressed : (submits && pressed) = true
        · simp only [if_pos hpressed]
          exact appendField_other hname
        · simp only [if_neg hpressed]
    | select choice => exact appendField_other hname
    | selectMultiple chosen => exact Function.update_of_ne hname _ _

theorem serializeControl_apply {out : Payload} {name : List Char} {had : Bool × List Leaf}
    (h : out name = underName had.1 had.2) (el : Control) :
    serializeControl out el name = underName (hear name had el).1 (hear name had el).2 := by
  by_cases hname : el.name = name
  swap
  · rw [hear_other hname, serializeControl_other hname, h]
  subst hname
  by_cases hskipped : el.name = [] ∨ el.disabled = true
  · have hheard : el.heard = [] := by rw [Control.heard, if_pos hskipped]
    have hlists : el.lists = false := by
      rcases hskipped with hempty | hdisabled
      · simp [Control.lists, hempty]
      · simp [Control.lists, hdisabled]
    have hout : serializeControl out el = out := by
      unfold serializeControl
      rcases hskipped with hempty | hdisabled
      · rw [if_pos hempty]
      · split_ifs
        · rfl
        · rfl
    rw [hear_append hlists, hheard, List.append_nil, hout, h]
  · rw [not_or] at hskipped
    obtain ⟨hempty, hdisabled⟩ := hskipped
    have hlive : ¬ (el.name = [] ∨ el.disabled = true) := not_or.mpr ⟨hempty, hdisabled⟩
    have hlists : el.lists = el.kind.multiple := by simp [Control.lists, hempty, hdisabled]
    rw [serializeControl, if_neg hempty, if_neg hdisabled]
    cases hkind : el.kind with
    | text hidden value =>
        rw [hear_append (hlists.trans (by rw [hkind]; rfl)), Control.heard, if_neg hlive, hkind]
        exact appendField_self _ h
    | tick checked value =>
        rw [hear_append (hlists.trans (by rw [hkind]; rfl)), Control.heard, if_neg hlive, hkind]
        cases checked with
        | false =>
            change out el.name = underName had.1 (had.2 ++ [])
            rw [List.append_nil, h]
        | true => exact appendField_self _ h
    | button submits pressed value =>
        rw [hear_append (hlists.trans (by rw [hkind]; rfl)), Control.heard, if_neg hlive, hkind]
        by_cases hpressed : (submits && pressed) = true
        · simp only [if_pos hpressed]
          exact appendField_self _ h
        · simp only [if_neg hpressed, List.append_nil]
          exact h
    | select choice =>
        rw [hear_append (hlists.trans (by rw [hkind]; rfl)), Control.heard, if_neg hlive, hkind]
        exact appendField_self _ h
    | selectMultiple chosen =>
        rw [hear_list (hlists.trans (by rw [hkind]; rfl)), Control.heard, if_neg hlive, hkind]
        exact Function.update_self _ _ _

theorem serializeFormToJson_apply {name : List Char} (hname : name ≠ intentField)
    (form : List Control) (intentToken : List Char) :
    serializeFormToJson form intentToken name = underName (read name form).1 (read name form).2 := by
  have hrun : ∀ (form : List Control) (out : Payload) (had : Bool × List Leaf),
      out name = underName had.1 had.2 → form.foldl serializeControl out name =
        underName (form.foldl (hear name) had).1 (form.foldl (hear name) had).2 := by
    intro form
    induction form with
    | nil => exact fun _ _ h => h
    | cons el form ih => exact fun out had h => ih _ _ (serializeControl_apply h el)
  have hform := hrun form (fun _ => none) (false, []) rfl
  unfold serializeFormToJson
  by_cases htoken : intentToken = []
  · simp only [if_pos htoken]
    exact hform
  · simp only [if_neg htoken, Function.update_of_ne hname]
    exact hform

/-! ### What the browser sends -/

theorem length_sent_le (el : Control) : el.sent.length ≤ el.heard.length := by
  unfold Control.sent Control.heard Control.values
  by_cases hskipped : el.name = [] ∨ el.disabled = true
  · rw [if_pos (hskipped.imp_right Or.inl)]
    exact Nat.zero_le _
  rw [if_neg hskipped]
  split_ifs
  · exact Nat.zero_le _
  rw [List.length_map]
  cases el.kind with
  | text hidden value =>
      dsimp only
      split_ifs <;> exact Nat.le_refl _
  | tick checked value => cases checked <;> exact Nat.le_refl _
  | button submits pressed value =>
      dsimp only
      split_ifs <;> exact Nat.le_refl _
  | select choice =>
      dsimp only
      rw [List.length_map]
      have hone : choice.toList.length ≤ 1 := by cases choice <;> simp
      exact Nat.le_trans (List.length_filter_le _ _) hone
  | selectMultiple chosen =>
      dsimp only
      rw [List.length_map, List.length_map]
      exact List.length_filter_le _ _

theorem crlf_crlf (s : List Char) : crlf (crlf s) = crlf s := by
  fun_induction crlf s with
  | case1 s ih => rw [crlf, ih]
  | case2 s hnext ih => rw [crlf, ih]
  | case3 s ih => rw [crlf, ih]
  | case4 c s hpair hreturn hfeed ih =>
      have hr : c ≠ '\r' := fun heq => hreturn heq
      have hn : c ≠ '\n' := fun heq => hfeed heq
      rw [crlf, ih]
      all_goals first | exact fun heq => absurd heq hr | exact fun heq => absurd heq hn | exact fun _ heq _ => absurd heq hr
  | case5 => rfl

/-- The values a browser sends under a name, as the controls of that name have them. -/
def sentUnder (name : List Char) (form : List Control) : List Leaf :=
  form.flatMap fun el => if el.name = name then el.sent.map Leaf.text else []

def NamesKept (form : List Control) : Prop :=
  ∀ el ∈ form, el.heard ≠ [] ∨ el.lists = true → crlf el.name = el.name

theorem valuesUnder_entryList {form : List Control} (hnames : NamesKept form) (name : List Char) :
    valuesUnder name (entryList form) = sentUnder name form := by
  induction form with
  | nil => rfl
  | cons el form ih =>
      have hrest : NamesKept form := fun el hel => hnames el (List.mem_cons_of_mem _ hel)
      have hhead : valuesUnder name (el.sent.map fun value => (crlf el.name, value)) =
          if el.name = name then el.sent.map Leaf.text else [] := by
        by_cases hsent : el.sent = []
        · simp [hsent, valuesUnder]
        · have hheard : el.heard ≠ [] := by
            intro hnone
            have hlength := length_sent_le el
            rw [hnone] at hlength
            exact hsent (List.eq_nil_of_length_eq_zero (Nat.le_zero.mp hlength))
          rw [hnames el List.mem_cons_self (Or.inl hheard)]
          by_cases hname : el.name = name
          · simp [valuesUnder, hname, List.filter_map, Function.comp_def]
          · simp [valuesUnder, hname, List.filter_map, Function.comp_def]
      have hsplit : valuesUnder name (entryList (el :: form)) =
          valuesUnder name (el.sent.map fun value => (crlf el.name, value)) ++
            valuesUnder name (entryList form) := by
        simp [valuesUnder, entryList, List.filter_append]
      rw [hsplit, hhead, ih hrest, sentUnder, sentUnder, List.flatMap_cons]

/-! ### The same input both ways -/

/-- A control of which the script reads what the browser sends: nothing that its fieldset or an
option's own attribute disables, no value the script takes for a yes, a choice where one is due,
and no line ends but the browser's. -/
def Control.ReadsAlike (el : Control) : Prop :=
  el.name = [] ∨ el.disabled = true ∨ match el.kind with
    | .text hidden value => el.inDisabledFieldset = false ∧ crlf value = value ∧
        (hidden = true ∧ el.name.map Char.toLower = charsetField → value = charsetName)
    | .tick checked value => checked = true → el.inDisabledFieldset = false ∧ crlf value = value ∧
        value ≠ onValue ∧ value ≠ []
    | .button submits pressed value => submits = true ∧ pressed = true →
        el.inDisabledFieldset = false ∧ crlf value = value
    | .select choice => el.inDisabledFieldset = false ∧
        ∃ o, choice = some o ∧ o.disabled = false ∧ crlf o.value = o.value
    | .selectMultiple chosen => chosen = [] ∨ el.inDisabledFieldset = false ∧
        ∀ o ∈ chosen, o.disabled = false ∧ crlf o.value = o.value

theorem map_chosen_iff (chosen : List Choice) :
    (((chosen.filter fun o => !o.disabled).map Choice.value).map crlf).map Leaf.text =
        chosen.map (fun o => Leaf.text o.value) ↔
      ∀ o ∈ chosen, o.disabled = false ∧ crlf o.value = o.value := by
  induction chosen with
  | nil => simp
  | cons o chosen ih =>
      rw [List.forall_mem_cons, ← ih]
      cases hdisabled : o.disabled with
      | false =>
          rw [List.filter_cons_of_pos (by simp [hdisabled])]
          simp only [List.map_cons, List.cons.injEq, Leaf.text.injEq, true_and]
      | true =>
          rw [List.filter_cons_of_neg (by simp [hdisabled])]
          constructor
          · intro h
            have hlength := congrArg List.length h
            have hfew := List.length_filter_le (fun o : Choice => !o.disabled) chosen
            simp only [List.length_map, List.length_cons] at hlength
            omega
          · rintro ⟨⟨hfalse, -⟩, -⟩
            cases hfalse

theorem readsAlike_iff (el : Control) :
    el.sent.map Leaf.text = el.heard ↔ el.ReadsAlike := by
  unfold Control.ReadsAlike Control.sent Control.heard Control.values
  by_cases hempty : el.name = []
  · simp [hempty]
  by_cases hdisabled : el.disabled = true
  · simp [hdisabled]
  simp only [hempty, hdisabled, false_or]
  cases el.kind with
  | text hidden value =>
      cases hfieldset : el.inDisabledFieldset with
      | true => simp
      | false =>
          have hutf : crlf charsetName = charsetName := by decide
          cases hidden with
          | false => simp
          | true =>
              by_cases hcharset : el.name.map Char.toLower = charsetField
              · have hvalue : charsetName = value ↔ crlf value = value ∧ value = charsetName := by
                  constructor
                  · rintro rfl
                    exact ⟨hutf, rfl⟩
                  · exact fun h => h.2.symm
                simpa [hcharset, hutf] using hvalue
              · simp [hcharset]
  | tick checked value =>
      cases checked with
      | false => simp
      | true =>
          cases hfieldset : el.inDisabledFieldset with
          | true => simp
          | false =>
              by_cases hyes : value = onValue ∨ value = []
              · have hnot : ¬ (crlf value = value ∧ value ≠ onValue ∧ value ≠ []) := by
                  rintro ⟨-, hon, hblank⟩
                  exact hyes.elim hon hblank
                simp [hyes, hnot]
              · have hplain := not_or.mp hyes
                simp [hplain]
  | button submits pressed value =>
      cases submits <;> cases pressed <;> cases hfieldset : el.inDisabledFieldset <;> simp
  | select choice =>
      cases choice with
      | none => cases hfieldset : el.inDisabledFieldset <;> simp
      | some o =>
          cases hfieldset : el.inDisabledFieldset <;> cases hchoice : o.disabled <;> simp [hchoice]
  | selectMultiple chosen =>
      cases hfieldset : el.inDisabledFieldset with
      | true => cases chosen <;> simp
      | false =>
          have h := map_chosen_iff chosen
          cases chosen with
          | nil => simp
          | cons o chosen => simpa using h

def heardUnder (name : List Char) (form : List Control) : List Leaf :=
  form.flatMap fun el => if el.name = name then el.heard else []

def Listed (name : List Char) (form : List Control) : Prop :=
  ∃ el ∈ form, el.name = name ∧ el.lists = true

theorem read_of_not_listed {name : List Char} {form : List Control} (h : ¬ Listed name form) :
    read name form = (false, heardUnder name form) := by
  have hrun : ∀ had : Bool × List Leaf,
      form.foldl (hear name) had = (had.1, had.2 ++ heardUnder name form) := by
    induction form with
    | nil => exact fun had => Prod.ext rfl (List.append_nil _).symm
    | cons el form ih =>
        intro had
        have hrest : ¬ Listed name form := fun ⟨el, hel, hlisted⟩ =>
          h ⟨el, List.mem_cons_of_mem _ hel, hlisted⟩
        rw [List.foldl_cons, ih hrest]
        by_cases hname : el.name = name
        · have hlists : el.lists = false := by
            rw [Bool.eq_false_iff]
            exact fun hlists => h ⟨el, List.mem_cons_self, hname, hlists⟩
          subst hname
          rw [hear_append hlists]
          simp [heardUnder]
        · rw [hear_other hname]
          simp [heardUnder, hname]
  exact hrun (false, [])

theorem read_listed {name : List Char} {form : List Control} :
    (read name form).1 = true ↔ Listed name form := by
  have hrun : ∀ had : Bool × List Leaf,
      (form.foldl (hear name) had).1 = true ↔ had.1 = true ∨ Listed name form := by
    induction form with
    | nil => simp [Listed]
    | cons el form ih =>
        intro had
        rw [List.foldl_cons, ih]
        have hcons : Listed name (el :: form) ↔ (el.name = name ∧ el.lists = true) ∨ Listed name form := by
          simp [Listed]
        rw [hcons]
        by_cases hname : el.name = name
        · subst hname
          cases hlists : el.lists with
          | false => simp [hear_append hlists]
          | true => simp [hear_list hlists]
        · rw [hear_other hname]
          simp [hname]
  rw [read, hrun]
  simp

/-- Two ways to make lists of the parts of a text agree on the whole only where they agree on each
part, if one is nowhere longer than the other. -/
theorem flatMap_eq_iff {α β : Type*} {f g : α → List β} {l : List α}
    (h : ∀ a ∈ l, (f a).length ≤ (g a).length) :
    l.flatMap f = l.flatMap g ↔ ∀ a ∈ l, f a = g a := by
  induction l with
  | nil => simp
  | cons a l ih =>
      rw [List.forall_mem_cons] at h ⊢
      obtain ⟨hhead, htail⟩ := h
      have hlength : (l.flatMap f).length ≤ (l.flatMap g).length := by
        rw [List.length_flatMap, List.length_flatMap]
        exact List.sum_le_sum htail
      rw [List.flatMap_cons, List.flatMap_cons, ← ih htail]
      constructor
      · intro hall
        have hboth := congrArg List.length hall
        rw [List.length_append, List.length_append] at hboth
        exact List.append_inj hall (by omega)
      · rintro ⟨hhead, htail⟩
        rw [hhead, htail]

structure SameInput (form : List Control) : Prop where
  names : NamesKept form
  /-- Where nothing makes a list of the name, each control is read as it is sent. -/
  alike : ∀ el ∈ form, el.name ≠ intentField → ¬ Listed el.name form → el.ReadsAlike
  /-- Where a multiple select does, there are values to list, and the ones sent are those from
  the last such select on. -/
  listed : ∀ name, name ≠ intentField → Listed name form →
    (read name form).2 = sentUnder name form ∧ 2 ≤ (sentUnder name form).length

theorem underName_read_ne_none {form : List Control} {el : Control} (hel : el ∈ form)
    (hheard : el.heard ≠ [] ∨ el.lists = true) :
    underName (read el.name form).1 (read el.name form).2 ≠ none := by
  by_cases hlisted : Listed el.name form
  · rw [read_listed.mpr hlisted]
    exact Option.some_ne_none _
  · rw [read_of_not_listed hlisted]
    have hnot : el.heard ≠ [] := hheard.resolve_right fun h => hlisted ⟨el, hel, rfl, h⟩
    have hne : heardUnder el.name form ≠ [] := by
      intro hnone
      rw [heardUnder, List.flatMap_eq_nil_iff] at hnone
      have hnil := hnone el hel
      rw [if_pos rfl] at hnil
      exact hnot hnil
    intro hnone
    have hnil := (underName_inj.mp (hnone.trans (show none = underName false [] from rfl))).1
    exact hne hnil

theorem values_submission (form : List Control) (name : List Char) :
    (FormBody.parse (submission form)).toActionPayload name =
      coalesce (valuesUnder name (entryList form)) := by
  rw [toActionPayload_apply, FormBody.parse, submission, FormUrlencoded.parse_serialize]

def agreeForm : List Control := [⟨"agree".toList, false, false, .tick true onValue⟩]

end Albedo.Forms
