import Albedo.Aperture.Declare
import Albedo.Auth.Store
import Albedo.Library.FormUrlencoded

/-!
# The flow a browser carries

Between the two legs of a sign-in the browser keeps a cookie with the state, the verifier, the way
back and, for a link, the principal. The four stand with dots between them.
-/
namespace Albedo.OAuth
open Auth FormUrlencoded

/-! ### Where a person goes back to -/

def maxReturnPathBytes : ℕ := 2048

def isPathChar (c : Char) : Bool := 0x20 < c.toNat ∧ c.toNat < 0x7F

def isReturnPath (raw : List Char) : Bool :=
  (Utf8.encode raw).length ≤ maxReturnPathBytes ∧ raw.head? = some '/' ∧
    raw[1]? ≠ some '/' ∧ raw[1]? ≠ some '\\' ∧ raw.all isPathChar

structure ReturnPath where
  path : List Char
  isReturnPath_path : isReturnPath path = true

namespace ReturnPath

def root : ReturnPath := ⟨['/'], by decide⟩

def parse (raw : List Char) : Option ReturnPath :=
  if h : isReturnPath raw = true then some ⟨raw, h⟩ else none

end ReturnPath

/-! ### The two secrets -/

def isUrlSafe (c : Char) : Bool := c.isAlphanum || c = '-' || c = '_'

structure RandomToken where
  text : List Char
  length_text : text.length = 43
  isUrlSafe_text : text.all isUrlSafe = true

theorem RandomToken.ne_nil (token : RandomToken) : token.text ≠ [] := by
  intro h
  have hlength := token.length_text
  rw [h] at hlength
  cases hlength

theorem RandomToken.not_mem_dot (token : RandomToken) : '.' ∉ token.text := by
  intro h
  have := List.all_eq_true.mp token.isUrlSafe_text '.' h
  revert this
  decide

/-! ### The cookie -/

abbrev ParsedId := { id : PrincipalId // Broadcast.isValidPartitionKey id = true }

theorem not_mem_dot_id (id : ParsedId) : '.' ∉ id.val.toList :=
  Aperture.not_mem_key id.property (by decide)

structure PendingFlow where
  state : List Char
  verifier : List Char
  back : List Char
  link : Option ParsedId

/-- `trim_start_matches`. -/
def trimStartMatches (lead : List Char) (s : List Char) : List Char :=
  (fun s => if lead <+: s then s.drop lead.length else s)^[s.length] s

def percentEncode (raw : List Char) : List Char :=
  trimStartMatches ['v', '='] (serialize [(['v'], raw)])

def percentDecode (raw : List Char) : List Char :=
  match parse ('v' :: '=' :: raw) with
  | pair :: _ => pair.2
  | [] => []

namespace PendingFlow

def encode (flow : PendingFlow) : List Char :=
  let encoded := flow.state ++ '.' :: (flow.verifier ++ '.' :: percentEncode flow.back)
  match flow.link with
  | some link => encoded ++ '.' :: link.val.toList
  | none => encoded

/-- A fourth segment is the principal of a link, and there is no fifth. -/
def decode (raw : List Char) : Option PendingFlow :=
  match raw.splitOn '.' with
  | state :: verifier :: back :: rest =>
      if state = [] ∨ verifier = [] then none
      else match rest with
      | [] => some ⟨state, verifier, percentDecode back, none⟩
      | [link] =>
          if h : Broadcast.isValidPartitionKey (String.ofList link) = true then
            some ⟨state, verifier, percentDecode back, some ⟨String.ofList link, h⟩⟩
          else none
      | _ => none
  | _ => none

structure Drawn (flow : PendingFlow) : Prop where
  state : ∃ token : RandomToken, flow.state = token.text
  verifier : ∃ token : RandomToken, flow.verifier = token.text

end PendingFlow

/-! ### What comes back -/

theorem serialize_singleton (raw : List Char) :
    serialize [(['v'], raw)] = 'v' :: '=' :: byteSerialize raw := by
  have hname : byteSerialize ['v'] = ['v'] := by decide
  simp [serialize, appendPair, hname]

theorem iterate_trim {s : List Char} (h : ¬ ['v', '='] <+: s) (n : ℕ) :
    (fun s : List Char => if ['v', '='] <+: s then s.drop 2 else s)^[n] s = s := by
  induction n with
  | zero => rfl
  | succ n ih => rw [Function.iterate_succ_apply, if_neg h, ih]

theorem percentEncode_eq (raw : List Char) : percentEncode raw = byteSerialize raw := by
  have hequals : '=' ∉ byteSerialize raw :=
    not_mem_byteSerialize ⟨by decide, by decide⟩ (by decide) (by decide) raw
  have hlead : ¬ ['v', '='] <+: byteSerialize raw := fun h => hequals (h.subset (by decide))
  rw [percentEncode, serialize_singleton, trimStartMatches]
  change (fun s : List Char => if ['v', '='] <+: s then s.drop 2 else s)^[
    (byteSerialize raw).length + 1 + 1] ('v' :: '=' :: byteSerialize raw) = byteSerialize raw
  rw [Function.iterate_succ_apply, if_pos ⟨byteSerialize raw, rfl⟩]
  exact iterate_trim hlead _

theorem percentDecode_percentEncode (raw : List Char) :
    percentDecode (percentEncode raw) = raw := by
  rw [percentDecode, percentEncode_eq, ← serialize_singleton, parse_serialize]

theorem count_dot_percentEncode (raw : List Char) :
    (percentEncode raw).count '.' = raw.count '.' := by
  rw [percentEncode_eq]
  exact count_byteSerialize ⟨by decide, by decide⟩ (by decide) (by decide) (by decide) raw

namespace PendingFlow

variable {flow : PendingFlow}

def segments (flow : PendingFlow) : List (List Char) :=
  [flow.state, flow.verifier, percentEncode flow.back] ++
    (flow.link.map fun link => link.val.toList).toList

theorem encode_eq (flow : PendingFlow) : flow.encode = ['.'].intercalate flow.segments := by
  unfold encode segments
  cases flow.link with
  | none => simp [List.intercalate]
  | some link => simp [List.intercalate]

/-- Whatever was drawn and whoever a link is for, there are as many dots between the segments as
there are in the way back. -/
theorem Drawn.length_splitOn (h : flow.Drawn) :
    (flow.encode.splitOn '.').length = flow.segments.length + flow.back.count '.' := by
  obtain ⟨state, hstate⟩ := h.state
  obtain ⟨verifier, hverifier⟩ := h.verifier
  have hstate0 : flow.state.count '.' = 0 := by
    rw [hstate]
    exact List.count_eq_zero.mpr state.not_mem_dot
  have hverifier0 : flow.verifier.count '.' = 0 := by
    rw [hverifier]
    exact List.count_eq_zero.mpr verifier.not_mem_dot
  rw [Separator.length_splitOn]
  unfold encode segments
  cases hlink : flow.link with
  | none =>
      simp [hstate0, hverifier0, count_dot_percentEncode]
      omega
  | some link =>
      have hlink0 : link.val.toList.count '.' = 0 := List.count_eq_zero.mpr (not_mem_dot_id link)
      simp [hstate0, hverifier0, count_dot_percentEncode, hlink0]
      omega

theorem length_of_decode {raw : List Char} (h : decode raw = some flow) :
    (raw.splitOn '.').length = flow.segments.length := by
  unfold decode at h
  split at h
  case h_2 => cases h
  case h_1 state verifier back rest hsplit =>
    rw [hsplit]
    split_ifs at h
    split at h
    case h_1 =>
      obtain rfl := Option.some.inj h
      rfl
    case h_2 link =>
      split_ifs at h
      obtain rfl := Option.some.inj h
      rfl
    case h_3 => cases h

theorem Drawn.decode_encode (h : flow.Drawn) :
    decode flow.encode = some flow ↔ '.' ∉ flow.back := by
  constructor
  · intro hdecode
    have hlength := length_of_decode hdecode
    rw [h.length_splitOn] at hlength
    rw [← List.count_eq_zero]
    omega
  · intro hback
    obtain ⟨state, hstate⟩ := h.state
    obtain ⟨verifier, hverifier⟩ := h.verifier
    have hencoded : '.' ∉ percentEncode flow.back := by
      rw [← List.count_eq_zero, count_dot_percentEncode]
      exact List.count_eq_zero.mpr hback
    have hfree : ∀ segment ∈ flow.segments, '.' ∉ segment := by
      intro segment hsegment
      rcases List.mem_append.mp hsegment with hfirst | hlink
      · simp only [List.mem_cons, List.not_mem_nil, or_false] at hfirst
        rcases hfirst with rfl | rfl | rfl
        · rw [hstate]
          exact state.not_mem_dot
        · rw [hverifier]
          exact verifier.not_mem_dot
        · exact hencoded
      · rw [Option.mem_toList, Option.map_eq_some_iff] at hlink
        obtain ⟨link, -, rfl⟩ := hlink
        exact not_mem_dot_id link
    have hsplit : flow.encode.splitOn '.' = flow.segments := by
      rw [encode_eq]
      exact List.splitOn_intercalate '.' hfree (List.cons_ne_nil _ _)
    have hnonempty : ¬ (flow.state = [] ∨ flow.verifier = []) := by
      rw [hstate, hverifier, not_or]
      exact ⟨state.ne_nil, verifier.ne_nil⟩
    obtain ⟨fstate, fverifier, fback, flink⟩ := flow
    unfold decode
    rw [hsplit]
    cases flink with
    | none =>
        simp only [segments, Option.map_none, Option.toList_none, List.append_nil]
        rw [if_neg hnonempty, percentDecode_percentEncode]
    | some link =>
        simp only [segments, Option.map_some, Option.toList_some, List.cons_append, List.nil_append]
        rw [if_neg hnonempty, percentDecode_percentEncode]
        simp only [String.ofList_toList]
        rw [dif_pos link.property]

end PendingFlow

end Albedo.OAuth
