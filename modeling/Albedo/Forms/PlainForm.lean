import Albedo.Library.Ascii
import Albedo.Library.Trim
import Albedo.Library.WhatwgUrl

/-!
# Where a form's token goes

A form without an action of its own gets the hidden inputs, the session's token among them, when it
posts to this app. The renderer decides that from the text of the attribute, and the browser sends
the form to what it reads there.
-/
namespace Albedo.Forms
open Trim WhatwgUrl

def plainFormNeedsHiddenInputs (action method : Option (List Char)) : Bool :=
  match method with
  | none => false
  | some method =>
      (Trim.trim method).map Char.toLower = "post".toList &&
        match action.map Trim.trim with
        | none => true
        | some path => path = [] || ['/'].isPrefixOf path && !(['/', '/'].isPrefixOf path)

/-- Where a browser sends a form that is on a page: to the page itself without an action. -/
def submitsTo {Host : Type} (parseHost : List Char → Option Host) (page : Url Host) :
    Option (List Char) → Option (Address Host)
  | none | some [] => some (.url page)
  | some action => resolve parseHost page action

variable {Host : Type} {parseHost : List Char → Option Host} {page : Url Host}
variable {action method : Option (List Char)} {text : List Char}

def TokenStays (parseHost : List Char → Option Host) (page : Url Host)
    (action : Option (List Char)) : Prop :=
  ∀ address, submitsTo parseHost page action = some address → address.IsOf page

theorem not_alpha_of_isWhitespace {c : Char} (h : isWhitespace c = true) : c.isAlpha = false := by
  have hblank := of_decide_eq_true h
  by_contra halpha
  rw [Bool.not_eq_false, Ascii.isAlpha_iff] at halpha
  omega

theorem head_not_alpha (h : ∀ c ∈ (Trim.trim text).head?, c = '/') :
    ∀ c ∈ (clean text).head?, c.isAlpha = false := by
  rw [head?_clean]
  unfold Trim.trim at h
  rw [head?_rdropWhile_dropWhile] at h
  induction text with
  | nil => exact fun c hc => nomatch hc
  | cons a text ih =>
      by_cases hlow : isC0OrSpace a = true
      · rw [List.dropWhile_cons_of_pos hlow]
        by_cases hblank : isWhitespace a = true
        · rw [List.dropWhile_cons_of_pos hblank] at h
          exact ih h
        · rw [List.dropWhile_cons_of_neg hblank] at h
          obtain rfl := h a rfl
          cases hlow
      · rw [List.dropWhile_cons_of_neg hlow]
        intro c hc
        obtain rfl := Option.some.inj hc
        by_cases hblank : isWhitespace a = true
        · exact not_alpha_of_isWhitespace hblank
        · rw [List.dropWhile_cons_of_neg hblank] at h
          obtain rfl := h a rfl
          rfl

theorem schemeless_of_needs (h : plainFormNeedsHiddenInputs (some text) method = true) :
    scheme? (clean text) = none := by
  refine scheme?_eq_none (head_not_alpha fun c hc => ?_)
  cases method with
  | none => cases h
  | some method =>
      unfold plainFormNeedsHiddenInputs at h
      simp only [Option.map_some, Bool.and_eq_true, Bool.or_eq_true, decide_eq_true_eq] at h
      obtain ⟨-, hempty | ⟨hslash, -⟩⟩ := h
      · rw [hempty] at hc
        cases hc
      · obtain ⟨rest, hrest⟩ := List.isPrefixOf_iff_prefix.mp hslash
        rw [← hrest] at hc
        exact (Option.some.inj hc).symm

/-- The token of a form stays on the page's origin just when the action spells no authority for a
browser, or one that is refused or the page's own. -/
theorem token_stays_iff (parseHost : List Char → Option Host) (page : Url Host)
    (h : plainFormNeedsHiddenInputs action method = true) : TokenStays parseHost page action ↔
      ∀ text rest, action = some text → spelledAuthority (clean text) = some rest →
        OwnAuthority parseHost page rest := by
  cases action with
  | none =>
      refine iff_of_true (fun address haddress => ?_) fun text rest htext => nomatch htext
      obtain rfl := Option.some.inj haddress
      exact rfl
  | some text =>
      have hspelled : (∀ text' rest, some text = some text' → spelledAuthority (clean text') =
            some rest → OwnAuthority parseHost page rest) ↔
          ∀ rest, spelledAuthority (clean text) = some rest →
            OwnAuthority parseHost page rest :=
        ⟨fun h rest => h text rest rfl, fun h text' rest htext => Option.some.inj htext ▸ h rest⟩
      rw [hspelled]
      cases text with
      | nil =>
          refine iff_of_true (fun address haddress => ?_) fun rest hrest => nomatch hrest
          obtain rfl := Option.some.inj haddress
          exact rfl
      | cons c text => exact stays_iff (schemeless_of_needs h)

def appPage : Url (List Char) :=
  ⟨"https".toList, "app.example".toList, none, ["guestbook".toList], none, none⟩

theorem token_stays_iff_login :
    TokenStays some appPage (some "/_albedo/auth/password/login".toList) ↔
      ∀ text rest, some "/_albedo/auth/password/login".toList = some text →
        spelledAuthority (clean text) = some rest → OwnAuthority some appPage rest :=
  token_stays_iff some appPage (by decide : plainFormNeedsHiddenInputs
    (some "/_albedo/auth/password/login".toList) (some "POST".toList) = true)

/-- A tab between two slashes, which the browser drops: the form gets the token, and is sent to
another host. -/
theorem token_is_sent_away : ∃ action : List Char,
    plainFormNeedsHiddenInputs (some action) (some "post".toList) = true ∧
      ¬ TokenStays some appPage (some action) := by
  refine ⟨"/\t/evil.example/".toList, by decide, fun h => ?_⟩
  have haway : submitsTo some appPage (some "/\t/evil.example/".toList) =
      some (.url ⟨"https".toList, "evil.example".toList, none, [[]], none, none⟩) := by
    decide +kernel
  have hown : "evil.example".toList = "app.example".toList :=
    congrArg (fun origin => origin.2.1) (h _ haway : _ = appPage.origin)
  revert hown
  decide

end Albedo.Forms
