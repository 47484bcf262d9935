import Albedo.Ir.Opcode
import Albedo.Library.FormUrlencoded
import Mathlib.Data.List.DropRight

/-!
# A form's feedback across a redirect

A submit without JavaScript is answered with a redirect. What its frame would have said rides in
a cookie to the next render: the frame is read backwards while the cookie has room, written as
form-encoded pairs, stored by the browser, sent among its other cookies and read again.
-/
namespace Albedo.Forms
open Ir Separator

structure FormFeedback where
  path : List Char
  entries : List (UInt32 × List Char)

def feedbackCookie : List Char := "__Host-albedo-feedback".toList

def feedbackMaxBytes : ℕ := 1536

/-- `u32::to_string`. -/
def decimal (id : UInt32) : List Char := Nat.toDigits 10 id.toNat

/-- `str::parse::<u32>`. -/
def parseU32 (s : List Char) : Option UInt32 :=
  let digits := if s.head? = some '+' then s.tail else s
  if digits ≠ [] ∧ digits.all Char.isDigit ∧ Nat.ofDigitChars 10 digits 0 < 2 ^ 32 then
    some (UInt32.ofNat (Nat.ofDigitChars 10 digits 0))
  else none

def encodedLen (key value : List Char) : ℕ :=
  (FormUrlencoded.byteSerialize key).length + (FormUrlencoded.byteSerialize value).length + 2

def withoutFragment (path : List Char) : List Char := path.takeWhile (· ≠ '#')

/-- The loop of `from_frame`, over the frame from its end. -/
def collect : List Instruction → ℕ → List (UInt32 × List Char)
  | [], _ => []
  | .setText stableId text :: ops, budget =>
      match Utf8.decode text.val with
      | none => collect ops budget
      | some text =>
          let cost := encodedLen (decimal stableId) text
          if text = [] ∨ budget < cost then collect ops budget
          else (stableId, text) :: collect ops (budget - cost)
  | _ :: ops, budget => collect ops budget

def budgetFor (path : List Char) : ℕ :=
  feedbackMaxBytes - encodedLen ['p'] (withoutFragment path)

def fromFrame (path : List Char) (frame : List Instruction) : Option FormFeedback :=
  let entries := collect frame.reverse (budgetFor path)
  if entries = [] then none else some ⟨withoutFragment path, entries⟩

def FormFeedback.pairs (feedback : FormFeedback) : List (List Char × List Char) :=
  (['p'], feedback.path) :: feedback.entries.map fun entry => (decimal entry.1, entry.2)

def FormFeedback.setCookie (feedback : FormFeedback) : List Char :=
  feedbackCookie ++ '=' :: FormUrlencoded.serialize feedback.pairs ++
    "; Path=/; HttpOnly; Secure; SameSite=Lax; Max-Age=60".toList

/-! ### Cookies -/

/-- What a cookie's name and value are made of. -/
def octet (c : Char) : Bool := 0x21 ≤ c.toNat ∧ c.toNat ≤ 0x7E ∧ c ≠ ';'

structure Cookie where
  name : List Char
  value : List Char
  name_octets : ∀ c ∈ name, octet c = true
  value_octets : ∀ c ∈ value, octet c = true
  no_equals : '=' ∉ name

/-- What a browser stores of a `Set-Cookie` header. -/
def stored (setCookie : List Char) : Option (List Char × List Char) :=
  splitOnce '=' (setCookie.takeWhile (· ≠ ';'))

/-- The `Cookie` header a browser sends. -/
def cookieHeader : List (List Char × List Char) → List Char
  | [] => []
  | [cookie] => cookie.1 ++ '=' :: cookie.2
  | cookie :: cookies => cookie.1 ++ '=' :: cookie.2 ++ ';' :: ' ' :: cookieHeader cookies

/-- `HeaderValue::to_str`. -/
def toStr (raw : List Char) : Option (List Char) :=
  if raw.all fun c => (0x20 ≤ c.toNat && c.toNat ≤ 0x7E) || c = '\t' then some raw else none

def trim (s : List Char) : List Char := (s.dropWhile Char.isWhitespace).rdropWhile Char.isWhitespace

def cookieEntry (entry : List Char) : Option (List Char × List Char) :=
  (splitOnce '=' (trim entry)).map fun parts => (trim parts.1, trim parts.2)

def cookieEntries (header : List Char) : List (List Char × List Char) :=
  (header.splitOnP (· = ';')).filterMap cookieEntry

def FormFeedback.readPair (feedback : FormFeedback) (pair : List Char × List Char) : FormFeedback :=
  if pair.1 = ['p'] then { feedback with path := pair.2 }
  else match parseU32 pair.1 with
    | some id => { feedback with entries := feedback.entries ++ [(id, pair.2)] }
    | none => feedback

/-- Reads the `Cookie` header of a request, if it has one. -/
def FormFeedback.read (header : Option (List Char)) : Option FormFeedback := do
  let raw ← toStr (← header)
  let (_, value) ← (cookieEntries raw).find? fun entry => entry.1 = feedbackCookie
  some ((FormUrlencoded.parse value).foldl FormFeedback.readPair ⟨[], []⟩)

def FormFeedback.entriesFor (feedback : FormFeedback) (requestPath : List Char) :
    List (UInt32 × List Char) :=
  if feedback.path = requestPath then feedback.entries else []

/-! ### Numbers -/

theorem isDigit_decimal (id : UInt32) : ∀ c ∈ decimal id, c.isDigit = true :=
  fun _ hc => Nat.isDigit_of_mem_toDigits (by decide) (by decide) hc

theorem decimal_ne_nil (id : UInt32) : decimal id ≠ [] := Nat.toDigits_ne_nil

theorem parseU32_decimal (id : UInt32) : parseU32 (decimal id) = some id := by
  have hplus : (decimal id).head? ≠ some '+' := by
    intro h
    have hdigit := isDigit_decimal id '+' (List.mem_of_head? h)
    simp [Char.isDigit] at hdigit
  have hvalue : Nat.ofDigitChars 10 (decimal id) 0 = id.toNat := Nat.ofDigitChars_ten_toDigits
  have hall : (decimal id).all Char.isDigit = true := List.all_eq_true.mpr (isDigit_decimal id)
  unfold parseU32
  dsimp only
  rw [if_neg hplus, hvalue, if_pos ⟨decimal_ne_nil id, hall, id.toNat_lt⟩, UInt32.ofNat_toNat]

theorem decimal_ne_path (id : UInt32) : decimal id ≠ ['p'] := by
  intro h
  have hdigit := isDigit_decimal id 'p' (h ▸ List.mem_cons_self)
  simp [Char.isDigit] at hdigit

/-! ### The cookie on its way -/

theorem octet_not_blank {c : Char} (h : octet c = true) : c.isWhitespace = false := by
  by_contra hblank
  simp only [Char.isWhitespace, Bool.or_eq_true, decide_eq_true_eq, Bool.not_eq_false] at hblank
  rcases hblank with ((rfl | rfl) | rfl) | rfl <;> cases h

theorem trim_octets {lead w : List Char} (hlead : ∀ c ∈ lead, c.isWhitespace = true)
    (hw : ∀ c ∈ w, octet c = true) : trim (lead ++ w) = w := by
  have hblank : ∀ c ∈ w, c.isWhitespace = false := fun c hc => octet_not_blank (hw c hc)
  have hfront : w.dropWhile Char.isWhitespace = w := by
    rw [List.dropWhile_eq_self_iff]
    intro hl hfirst
    rw [hblank _ (List.getElem_mem hl)] at hfirst
    cases hfirst
  have hback : w.rdropWhile Char.isWhitespace = w := by
    rw [List.rdropWhile_eq_self_iff]
    intro hl hlast
    rw [hblank _ (List.getLast_mem hl)] at hlast
    cases hlast
  rw [trim, List.dropWhile_append_of_pos hlead, hfront, hback]

theorem octet_ne_semicolon {c : Char} (h : octet c = true) : c ≠ ';' := by
  rintro rfl
  cases h

def Cookie.pair (cookie : Cookie) : List Char × List Char := (cookie.name, cookie.value)

def Cookie.text (cookie : Cookie) : List Char := cookie.name ++ '=' :: cookie.value

theorem Cookie.text_octets (cookie : Cookie) : ∀ c ∈ cookie.text, octet c = true := by
  intro c hc
  rcases List.mem_append.mp hc with hname | hrest
  · exact cookie.name_octets c hname
  · rcases List.mem_cons.mp hrest with rfl | hvalue
    · decide
    · exact cookie.value_octets c hvalue

theorem cookieEntry_text {lead : List Char} (hlead : ∀ c ∈ lead, c.isWhitespace = true)
    (cookie : Cookie) : cookieEntry (lead ++ cookie.text) = some (cookie.name, cookie.value) := by
  have hname : trim cookie.name = cookie.name := @trim_octets [] _ (by simp) cookie.name_octets
  have hvalue : trim cookie.value = cookie.value :=
    @trim_octets [] _ (by simp) cookie.value_octets
  rw [cookieEntry, trim_octets hlead cookie.text_octets, Cookie.text,
    splitOnce_append cookie.no_equals, Option.map_some, hname, hvalue]

theorem cookieHeader_cons (cookie next : Cookie) (cookies : List Cookie) :
    cookieHeader ((cookie :: next :: cookies).map Cookie.pair) =
      cookie.text ++ ';' :: ' ' :: cookieHeader ((next :: cookies).map Cookie.pair) := by
  simp [cookieHeader, Cookie.pair, Cookie.text]

theorem cookieEntries_cookieHeader {lead : List Char} (hlead : ∀ c ∈ lead, c.isWhitespace = true)
    (cookies : List Cookie) : cookieEntries (lead ++ cookieHeader (cookies.map Cookie.pair)) =
      cookies.map Cookie.pair := by
  have hsemicolon : ∀ c ∈ lead, decide (c = ';') = false := by
    intro c hc
    rw [decide_eq_false_iff_not]
    rintro rfl
    have hblank := hlead ';' hc
    simp [Char.isWhitespace] at hblank
  have htext : ∀ cookie : Cookie, ∀ c ∈ lead ++ cookie.text, decide (c = ';') = false := by
    intro cookie c hc
    rcases List.mem_append.mp hc with hc | hc
    · exact hsemicolon c hc
    · exact decide_eq_false (octet_ne_semicolon (cookie.text_octets c hc))
  induction cookies generalizing lead with
  | nil =>
      have hnone : cookieEntry lead = none := by
        have htrim := trim_octets hlead (w := []) (by simp)
        rw [List.append_nil] at htrim
        rw [cookieEntry, htrim]
        rfl
      rw [List.map_nil, cookieHeader, List.append_nil, cookieEntries,
        List.splitOnP_eq_singleton hsemicolon]
      simp [hnone]
  | cons cookie cookies ih =>
      cases cookies with
      | nil =>
          change cookieEntries (lead ++ cookie.text) = [cookie.pair]
          rw [cookieEntries, List.splitOnP_eq_singleton (htext cookie),
            List.filterMap_cons_some (cookieEntry_text hlead cookie)]
          rfl
      | cons next cookies =>
          have hsplit : (lead ++ (cookie.text ++ ';' :: ' ' ::
              cookieHeader ((next :: cookies).map Cookie.pair))).splitOnP (· = ';') =
                (lead ++ cookie.text) ::
                  ([' '] ++ cookieHeader ((next :: cookies).map Cookie.pair)).splitOnP (· = ';') := by
            rw [← List.append_assoc]
            exact List.splitOnP_append_cons_of_forall_mem (htext cookie) ';' (by decide) _
          have hrest := @ih [' '] (List.forall_mem_singleton.mpr (by decide))
              (List.forall_mem_singleton.mpr (by decide)) fun cookie c hc => by
            rcases List.mem_append.mp hc with hc | hc
            · obtain rfl := List.mem_singleton.mp hc
              decide
            · exact decide_eq_false (octet_ne_semicolon (cookie.text_octets c hc))
          rw [cookieEntries] at hrest
          rw [cookieHeader_cons, cookieEntries, hsplit,
            List.filterMap_cons_some (cookieEntry_text hlead cookie), hrest]
          rfl

theorem toStr_cookieHeader (cookies : List Cookie) :
    toStr (cookieHeader (cookies.map Cookie.pair)) = some (cookieHeader (cookies.map Cookie.pair)) := by
  have hvisible : ∀ c : Char, octet c = true →
      ((0x20 ≤ c.toNat && c.toNat ≤ 0x7E) || c = '\t') = true := by
    intro c hc
    simp only [octet, decide_eq_true_eq] at hc
    simp only [Bool.or_eq_true, Bool.and_eq_true, decide_eq_true_eq]
    exact Or.inl ⟨by omega, hc.2.1⟩
  rw [toStr, if_pos]
  rw [List.all_eq_true]
  induction cookies with
  | nil => exact fun _ hc => absurd hc List.not_mem_nil
  | cons cookie cookies ih =>
      cases cookies with
      | nil => exact fun c hc => hvisible c (cookie.text_octets c hc)
      | cons next cookies =>
          rw [cookieHeader_cons]
          intro c hc
          rcases List.mem_append.mp hc with hc | hc
          · exact hvisible c (cookie.text_octets c hc)
          · rcases List.mem_cons.mp hc with rfl | hc
            · decide
            · rcases List.mem_cons.mp hc with rfl | hc
              · decide
              · exact ih c hc

/-! ### What is written is read -/

theorem octet_serialize (pairs : List (List Char × List Char)) :
    ∀ c ∈ FormUrlencoded.serialize pairs, octet c = true := by
  refine FormUrlencoded.forall_mem_serialize ?_ (by decide) pairs
  intro c hc
  have hne : c ≠ ';' := by
    rintro rfl
    revert hc
    decide
  change (((decide ('A'.val ≤ c.val ∧ c.val ≤ 'Z'.val)) ||
      (decide ('a'.val ≤ c.val) && decide (c.val ≤ 'z'.val))) ||
      (decide ('0'.val ≤ c.val) && decide (c.val ≤ '9'.val))) = true at hc
  simp only [Bool.or_eq_true, decide_eq_true_eq, UInt32.le_iff_toNat_le, Bool.and_eq_true] at hc
  change ((65 ≤ c.toNat ∧ c.toNat ≤ 90) ∨ (97 ≤ c.toNat ∧ c.toNat ≤ 122)) ∨
    (48 ≤ c.toNat ∧ c.toNat ≤ 57) at hc
  have hrange : 0x21 ≤ c.toNat ∧ c.toNat ≤ 0x7E := by omega
  exact decide_eq_true ⟨hrange.1, hrange.2, hne⟩

def FormFeedback.cookie (feedback : FormFeedback) : Cookie where
  name := feedbackCookie
  value := FormUrlencoded.serialize feedback.pairs
  name_octets := List.all_eq_true.mp (by decide)
  value_octets := octet_serialize feedback.pairs
  no_equals := by decide

theorem stored_setCookie (feedback : FormFeedback) :
    stored feedback.setCookie = some feedback.cookie.pair := by
  have htake : feedback.setCookie.takeWhile (· ≠ ';') = feedback.cookie.text := by
    have hstop : feedback.setCookie = feedback.cookie.text ++
        "; Path=/; HttpOnly; Secure; SameSite=Lax; Max-Age=60".toList := rfl
    rw [hstop, List.takeWhile_append_of_pos]
    · simp
    · intro c hc
      exact decide_eq_true (octet_ne_semicolon (feedback.cookie.text_octets c hc))
  rw [stored, htake]
  exact splitOnce_append feedback.cookie.no_equals

theorem foldl_readPair (entries : List (UInt32 × List Char)) (feedback : FormFeedback) :
    (entries.map fun entry => (decimal entry.1, entry.2)).foldl FormFeedback.readPair feedback =
      { feedback with entries := feedback.entries ++ entries } := by
  induction entries generalizing feedback with
  | nil => simp
  | cons entry entries ih =>
      rw [List.map_cons, List.foldl_cons, FormFeedback.readPair, if_neg (decimal_ne_path entry.1),
        parseU32_decimal, ih, List.append_assoc]
      rfl

theorem find_feedback_none {cookies : List Cookie}
    (h : ∀ cookie ∈ cookies, cookie.name ≠ feedbackCookie) :
    (cookies.map Cookie.pair).find? (fun entry => entry.1 = feedbackCookie) = none := by
  rw [List.find?_eq_none]
  intro entry hentry hname
  obtain ⟨cookie, hcookie, rfl⟩ := List.mem_map.mp hentry
  exact h cookie hcookie (of_decide_eq_true hname)

theorem read_cookieHeader (feedback : FormFeedback) {before after : List Cookie}
    (hbefore : ∀ cookie ∈ before, cookie.name ≠ feedbackCookie) :
    FormFeedback.read (some (cookieHeader ((before ++ feedback.cookie :: after).map Cookie.pair))) =
      some feedback := by
  have hentries := @cookieEntries_cookieHeader [] (by simp)
    (before ++ feedback.cookie :: after)
  rw [List.nil_append] at hentries
  have hfind : ((before ++ feedback.cookie :: after).map Cookie.pair).find?
      (fun entry => entry.1 = feedbackCookie) = some feedback.cookie.pair := by
    rw [List.map_append, List.map_cons, List.find?_append, find_feedback_none hbefore,
      Option.none_or, List.find?_cons_of_pos]
    exact decide_eq_true rfl
  have hpairs : (FormUrlencoded.parse feedback.cookie.pair.2).foldl FormFeedback.readPair ⟨[], []⟩ =
      feedback := by
    change (FormUrlencoded.parse (FormUrlencoded.serialize feedback.pairs)).foldl _ _ = _
    rw [FormUrlencoded.parse_serialize, FormFeedback.pairs, List.foldl_cons, FormFeedback.readPair,
      if_pos rfl, foldl_readPair]
    rfl
  simp only [FormFeedback.read, Option.bind_eq_bind, Option.bind_some, toStr_cookieHeader, hentries,
    hfind, hpairs]

theorem read_cookieHeader_none {cookies : List Cookie}
    (h : ∀ cookie ∈ cookies, cookie.name ≠ feedbackCookie) :
    FormFeedback.read (some (cookieHeader (cookies.map Cookie.pair))) = none := by
  have hentries := @cookieEntries_cookieHeader [] (by simp) cookies
  rw [List.nil_append] at hentries
  simp only [FormFeedback.read, Option.bind_eq_bind, Option.bind_some, toStr_cookieHeader, hentries,
    find_feedback_none h, Option.bind_none]

/-! ### A frame that fits -/

def setTexts : List Instruction → List (UInt32 × List UInt8)
  | [] => []
  | .setText stableId text :: ops => (stableId, text.val) :: setTexts ops
  | _ :: ops => setTexts ops

theorem setTexts_append (ops others : List Instruction) :
    setTexts (ops ++ others) = setTexts ops ++ setTexts others := by
  fun_induction setTexts ops with
  | case1 => rfl
  | case2 stableId text ops ih => simp [setTexts, ih]
  | case3 op ops hother ih =>
      rw [List.cons_append, ← ih]
      cases op <;> first | rfl | exact absurd rfl (hother _ _)

theorem setTexts_reverse (ops : List Instruction) : setTexts ops.reverse = (setTexts ops).reverse := by
  induction ops with
  | nil => rfl
  | cons op ops ih =>
      rw [List.reverse_cons, setTexts_append, ih]
      cases op <;> simp [setTexts]

def cost (op : UInt32 × List Char) : ℕ := encodedLen (decimal op.1) op.2

def worded (texts : List (UInt32 × List Char)) : List (UInt32 × List Char) :=
  texts.filter fun op => op.2 ≠ []

def Sets (frame : List Instruction) (texts : List (UInt32 × List Char)) : Prop :=
  setTexts frame = texts.map fun op => (op.1, Utf8.encode op.2)

theorem Sets.reverse {frame : List Instruction} {texts : List (UInt32 × List Char)}
    (h : Sets frame texts) : Sets frame.reverse texts.reverse := by
  rw [Sets, setTexts_reverse, h, List.map_reverse]

theorem collect_eq {frame : List Instruction} {texts : List (UInt32 × List Char)} {budget : ℕ}
    (hsets : Sets frame texts) (hfits : ((worded texts).map cost).sum ≤ budget) :
    collect frame budget = worded texts := by
  induction frame generalizing texts budget with
  | nil =>
      obtain rfl : texts = [] := List.map_eq_nil_iff.mp hsets.symm
      rfl
  | cons op ops ih =>
      cases op
      case setText id bytes =>
        cases texts with
        | nil => cases hsets
        | cons text texts =>
            obtain ⟨hhead, htail⟩ := List.cons.inj hsets
            obtain ⟨hid, hbytes⟩ := Prod.mk.inj hhead
            rw [collect, hbytes, Utf8.decode_encode]
            dsimp only
            by_cases hempty : text.2 = []
            · have hworded : worded (text :: texts) = worded texts := by simp [worded, hempty]
              rw [hworded] at hfits ⊢
              rw [if_pos (Or.inl hempty)]
              exact ih htail hfits
            · have hworded : worded (text :: texts) = text :: worded texts := by
                simp [worded, hempty]
              rw [hworded, List.map_cons, List.sum_cons] at hfits
              have hcost : encodedLen (decimal id) text.2 = cost text := by rw [cost, hid]
              have hroom : ¬ (text.2 = [] ∨ budget < encodedLen (decimal id) text.2) := by
                rw [hcost]
                rintro (h | h)
                · exact hempty h
                · omega
              rw [if_neg hroom, hworded, hcost, ih htail (by omega), hid]
      all_goals exact ih hsets hfits

theorem fromFrame_eq {path : List Char} {frame : List Instruction}
    {texts : List (UInt32 × List Char)} (hsets : Sets frame texts)
    (hfits : ((worded texts).map cost).sum ≤ budgetFor path) :
    fromFrame path frame = if worded texts = [] then none
      else some ⟨withoutFragment path, (worded texts).reverse⟩ := by
  have hworded : worded texts.reverse = (worded texts).reverse := List.filter_reverse
  have hfits' : ((worded texts.reverse).map cost).sum ≤ budgetFor path := by
    rw [hworded, List.map_reverse, List.sum_reverse]
    exact hfits
  have hcollect := collect_eq hsets.reverse hfits'
  rw [fromFrame, hcollect, hworded]
  simp only [List.reverse_eq_nil_iff]

end Albedo.Forms
