import Mathlib.Data.List.Perm.Basic
import Mathlib.Logic.Function.Basic
import Mathlib.Tactic.SplitIfs
import Albedo.Library.Tickets
import Mathlib.Algebra.GroupWithZero.Nat

/-!
# Streams of frames

Four streams, each with a counter that numbers its frames. What has a number to give away is
more than what makes frames: numbers are also reserved on their own, a tick of the frame loop
takes some that only appear in its reports, and a call that finds a bad lane keeps the frames it
made before. A receiver puts the frames of a stream in order and wants every number from zero.
-/
namespace Albedo.Muxer
open Tickets

/-! ### Frames -/

inductive FramePayload
  | text (content : List Char)
  | binary (bytes : List UInt8)

def FramePayload.text? : FramePayload → Option (List Char)
  | .text content => some content
  | .binary _ => none

def FramePayload.binary? : FramePayload → Option (List UInt8)
  | .text _ => none
  | .binary bytes => some bytes

structure LaneRenderedChunk where
  lane : ℕ
  componentId : Option UInt64
  payload : FramePayload

inductive RouteStreamChunkKind
  | shellHtml | deferredHtml | hydrationPayload | headTag

structure RouteStreamChunk where
  kind : RouteStreamChunkKind
  content : List Char

structure WebTransportFrame where
  streamId : UInt8
  sequence : UInt64
  componentId : Option UInt64
  payload : FramePayload

def WebTransportFrame.number (f : WebTransportFrame) : ℕ := f.sequence.toNat

inductive WebTransportError
  | invalidStreamId (streamId : ℕ)
  | sequenceGap (streamId : UInt8) (expected actual : ℕ)
  | payloadKindMismatch (streamId : UInt8) (sequence : UInt64) (expected found : String)

abbrev Stream := Fin 4

theorem neZero_streams : NeZero 4 := ⟨by decide⟩

attribute [local instance] neZero_streams

def slotShell : Stream := 1
def slotPatches : Stream := 2
def slotPrefetch : Stream := 3

def Stream.id (s : Stream) : UInt8 := UInt8.ofNat s.val

theorem Stream.id_inj {s t : Stream} (h : s.id = t.id) : s = t := by
  revert s t
  decide

theorem Stream.id_lt : ∀ s : Stream, ¬ 4 ≤ s.id.toNat := by decide

def streamForRouteChunk : RouteStreamChunkKind → Stream
  | .shellHtml => slotShell
  | .deferredHtml | .hydrationPayload => slotPatches
  | .headTag => slotPrefetch

/-! ### The receiver -/

/-- Frames in order, each with the number that is next, and each with a payload of the kind that
is read. -/
def gather {β : Type} (streamId : UInt8) (pick : FramePayload → Option (List β))
    (expectedKind found : String) :
    ℕ → List β → List WebTransportFrame → Except WebTransportError (List β)
  | _, output, [] => .ok output
  | expected, output, frame :: rest =>
      if frame.number ≠ expected then .error (.sequenceGap streamId expected frame.number)
      else match pick frame.payload with
        | some piece =>
            gather streamId pick expectedKind found (expected + 1) (output ++ piece) rest
        | none => .error (.payloadKindMismatch streamId frame.sequence expectedKind found)

def reassembleWith {β : Type} (pick : FramePayload → Option (List β)) (expectedKind found : String)
    (streamId : UInt8) (frames : List WebTransportFrame) : Except WebTransportError (List β) :=
  if 4 ≤ streamId.toNat then .error (.invalidStreamId streamId.toNat)
  else gather streamId pick expectedKind found 0 []
    (inOrder WebTransportFrame.number (frames.filter (·.streamId = streamId)))

def reassembleStream : UInt8 → List WebTransportFrame → Except WebTransportError (List Char) :=
  reassembleWith FramePayload.text? "text" "binary"

def reassembleBinaryStream :
    UInt8 → List WebTransportFrame → Except WebTransportError (List UInt8) :=
  reassembleWith FramePayload.binary? "binary" "text"

/-! ### The counters -/

structure WebTransportMuxer where
  nextSequence : Stream → UInt64

/-- The counters after one has been asked, which wrap. -/
def WebTransportMuxer.fetchAdd (m : WebTransportMuxer) (s : Stream) : WebTransportMuxer :=
  ⟨Function.update m.nextSequence s (m.nextSequence s + 1)⟩

theorem WebTransportMuxer.fetchAdd_self (m : WebTransportMuxer) (s : Stream) :
    (m.fetchAdd s).nextSequence s = m.nextSequence s + 1 := Function.update_self ..

theorem WebTransportMuxer.fetchAdd_of_ne (m : WebTransportMuxer) {s t : Stream} (h : t ≠ s) :
    (m.fetchAdd s).nextSequence t = m.nextSequence t := Function.update_of_ne h ..

def WebTransportMuxer.makeFrame (m : WebTransportMuxer) (s : Stream) (componentId : Option UInt64)
    (payload : FramePayload) : WebTransportFrame where
  streamId := s.id
  sequence := m.nextSequence s
  componentId := componentId
  payload := payload

/-! ### Calls -/

/-- What a tick has for one lane: the slots to write, and whether they can be encoded. -/
structure LaneTick where
  bucket : List UInt32
  encodes : Bool

inductive Request
  | muxLaneChunks (chunks : List LaneRenderedChunk)
  | muxRouteChunks (chunks : List RouteStreamChunk)
  | allocateSequence (streamId : ℕ)
  | frameTick (lanes : Fin 4 → LaneTick)

/-- A call under way. A tick numbers its lanes, and then its lanes' opcode frames. -/
inductive Call
  | lanes (rest : List LaneRenderedChunk) (frames : List WebTransportFrame)
  | routes (rest : List RouteStreamChunk) (frames : List WebTransportFrame)
  | allocate (streamId : ℕ)
  | numbering (rest lanes : List LaneTick)
  | emitting (rest : List LaneTick)

def Request.begin : Request → Call
  | .muxLaneChunks chunks => .lanes chunks []
  | .muxRouteChunks chunks => .routes chunks []
  | .allocateSequence streamId => .allocate streamId
  | .frameTick lanes => .numbering (List.ofFn lanes) (List.ofFn lanes)

inductive Outcome
  | frames (frames : List WebTransportFrame)
  | refused (error : WebTransportError)
  | sequence (n : Option UInt64)
  | ticked

def Outcome.sent : Outcome → List WebTransportFrame
  | .frames made => made
  | _ => []

/-- A number that was given, with the frame that is sent under it if there is to be one. -/
structure Take where
  stream : Stream
  frame : Option WebTransportFrame

structure Advance where
  muxer : WebTransportMuxer
  take : Option Take
  next : Call ⊕ Outcome

def validLanes (chunks : List LaneRenderedChunk) : Bool := chunks.all fun chunk => chunk.lane < 4

def Call.advance (m : WebTransportMuxer) : Call → Advance
  | .lanes [] made => ⟨m, none, .inr (.frames made)⟩
  | .lanes (chunk :: rest) made =>
      if h : chunk.lane < 4 then
        let s : Stream := ⟨chunk.lane, h⟩
        let frame := m.makeFrame s chunk.componentId chunk.payload
        -- a bad lane further on drops the frames made so far
        ⟨m.fetchAdd s, some ⟨s, if validLanes rest then some frame else none⟩,
          .inl (.lanes rest (made ++ [frame]))⟩
      else ⟨m, none, .inr (.refused (.invalidStreamId chunk.lane))⟩
  | .routes [] made => ⟨m, none, .inr (.frames made)⟩
  | .routes (chunk :: rest) made =>
      let s := streamForRouteChunk chunk.kind
      let frame := m.makeFrame s none (.text chunk.content)
      ⟨m.fetchAdd s, some ⟨s, some frame⟩, .inl (.routes rest (made ++ [frame]))⟩
  | .allocate streamId =>
      if h : streamId < 4 then
        ⟨m.fetchAdd ⟨streamId, h⟩, some ⟨⟨streamId, h⟩, none⟩,
          .inr (.sequence (some (m.nextSequence ⟨streamId, h⟩)))⟩
      else ⟨m, none, .inr (.sequence none)⟩
  | .numbering [] all => ⟨m, none, .inl (.emitting all)⟩
  | .numbering (lane :: rest) all =>
      if lane.bucket.isEmpty then ⟨m, none, .inl (.numbering rest all)⟩
      else ⟨m.fetchAdd slotPatches, some ⟨slotPatches, none⟩, .inl (.numbering rest all)⟩
  | .emitting [] => ⟨m, none, .inr .ticked⟩
  | .emitting (lane :: rest) =>
      if lane.bucket.isEmpty then ⟨m, none, .inl (.emitting rest)⟩
      else ⟨m.fetchAdd slotPatches, some ⟨slotPatches, none⟩,
        -- the tick goes on without the frames of a lane that cannot be encoded
        if lane.encodes then .inl (.emitting rest) else .inr .ticked⟩

/-! ### Runs -/

/-- The counters with the calls under way, all that callers have, and all numbers given. -/
structure World where
  muxer : WebTransportMuxer
  active : List Call
  sent : List WebTransportFrame
  takes : List Take

def World.init : World := ⟨⟨fun _ => 0⟩, [], [], []⟩

inductive Event
  | call (request : Request)
  | step (i : ℕ)

def World.step (w : World) (i : ℕ) : World :=
  match w.active[i]? with
  | none => w
  | some call =>
      let a := call.advance w.muxer
      let takes := w.takes ++ a.take.toList
      match a.next with
      | .inl next => ⟨a.muxer, w.active.set i next, w.sent, takes⟩
      | .inr outcome => ⟨a.muxer, w.active.eraseIdx i, w.sent ++ outcome.sent, takes⟩

def World.handle (w : World) : Event → World
  | .call request => { w with active := w.active ++ [request.begin] }
  | .step i => w.step i

def run (events : List Event) : World := events.foldl World.handle World.init

def World.on (w : World) (s : Stream) : List (Option WebTransportFrame) :=
  (w.takes.filter (·.stream = s)).map Take.frame

def World.muxed (w : World) (s : Stream) : List FramePayload :=
  (kept (w.on s)).map WebTransportFrame.payload

/-! ### What a call gives back -/

def Call.held : Call → List WebTransportFrame
  | .lanes rest made => if validLanes rest then made else []
  | .routes _ made => made
  | _ => []

def Advance.made (a : Advance) : List WebTransportFrame :=
  match a.next with
  | .inl call => call.held
  | .inr outcome => outcome.sent

inductive Advanced (m : WebTransportMuxer) (call : Call) (a : Advance) : Prop
  | idle (take : a.take = none) (muxer : a.muxer = m) (made : a.made = call.held)
  | took (s : Stream) (frame : Option WebTransportFrame) (take : a.take = some ⟨s, frame⟩)
      (muxer : a.muxer = m.fetchAdd s) (made : a.made = call.held ++ frame.toList)
      (numbered : ∀ f, frame = some f → f.streamId = s.id ∧ f.sequence = m.nextSequence s)

theorem Call.advanced (m : WebTransportMuxer) (call : Call) :
    Advanced m call (call.advance m) := by
  cases call with
  | lanes rest made =>
      cases rest with
      | nil => exact .idle rfl rfl rfl
      | cons chunk rest =>
          by_cases hlane : chunk.lane < 4
          · simp only [Call.advance, dif_pos hlane]
            have hvalid : validLanes (chunk :: rest) = validLanes rest := by
              simp [validLanes, hlane]
            refine .took _ _ rfl rfl ?_ ?_
            · simp only [Advance.made, Call.held, hvalid]
              cases validLanes rest with
              | false => rfl
              | true => rfl
            · intro f hf
              cases hrest : validLanes rest with
              | false => simp [hrest] at hf
              | true =>
                  rw [hrest, if_pos rfl] at hf
                  obtain rfl := Option.some.inj hf
                  exact ⟨rfl, rfl⟩
          · simp only [Call.advance, dif_neg hlane]
            refine .idle rfl rfl ?_
            simp [Advance.made, Call.held, Outcome.sent, validLanes, hlane]
  | routes rest made =>
      cases rest with
      | nil => exact .idle rfl rfl rfl
      | cons chunk rest =>
          refine .took _ _ rfl rfl rfl fun f hf => ?_
          obtain rfl := Option.some.inj hf
          exact ⟨rfl, rfl⟩
  | allocate streamId =>
      by_cases hstream : streamId < 4
      · simp only [Call.advance, dif_pos hstream]
        exact .took _ none rfl rfl rfl fun f hf => nomatch hf
      · simp only [Call.advance, dif_neg hstream]
        exact .idle rfl rfl rfl
  | numbering rest all =>
      cases rest with
      | nil => exact .idle rfl rfl rfl
      | cons lane rest =>
          simp only [Call.advance]
          split_ifs
          · exact .idle rfl rfl rfl
          · exact .took _ none rfl rfl rfl fun f hf => nomatch hf
  | emitting rest =>
      cases rest with
      | nil => exact .idle rfl rfl rfl
      | cons lane rest =>
          simp only [Call.advance]
          split_ifs
          · exact .idle rfl rfl rfl
          · exact .took _ none rfl rfl rfl fun f hf => nomatch hf
          · exact .took _ none rfl rfl rfl fun f hf => nomatch hf

/-! ### What holds in every run -/

/-- What the calls under way will still give back. -/
def World.held (w : World) : List WebTransportFrame := w.active.flatMap Call.held

structure Inv (w : World) : Prop where
  counts : ∀ s, w.muxer.nextSequence s = UInt64.ofNat (w.on s).length
  numbered : ∀ s, (w.on s).length ≤ 2 ^ 64 → Numbered WebTransportFrame.number 0 (w.on s)
  streams : ∀ t ∈ w.takes, ∀ f, t.frame = some f → f.streamId = t.stream.id
  sends : (w.sent ++ w.held).Perm (w.takes.filterMap Take.frame)

theorem inv_init : Inv World.init where
  counts _ := rfl
  numbered _ _ := trivial
  streams _ ht := absurd ht List.not_mem_nil
  sends := .nil

theorem Inv.call {w : World} (h : Inv w) (request : Request) : Inv (w.handle (.call request)) where
  counts := h.counts
  numbered := h.numbered
  streams := h.streams
  sends := by
    have hnothing : request.begin.held = [] := by
      cases request with
      | muxLaneChunks chunks => exact ite_self _
      | _ => rfl
    have hheld : (w.handle (.call request)).held = w.held := by
      simp [World.held, World.handle, hnothing]
    rw [hheld]
    exact h.sends

theorem step_sends {w : World} {i : ℕ} {call : Call} (hcall : w.active[i]? = some call) :
    ((w.step i).sent ++ (w.step i).held).Perm
      (w.sent ++ ((call.advance w.muxer).made ++ (w.active.eraseIdx i).flatMap Call.held)) := by
  have hi : i < w.active.length := (List.getElem?_eq_some_iff.mp hcall).choose
  simp only [World.step, hcall]
  cases hnext : (call.advance w.muxer).next with
  | inl next =>
      simp only [World.held, Advance.made, hnext]
      exact (List.Perm.flatMap_right _ (List.set_perm_cons_eraseIdx hi next)).append_left w.sent
  | inr outcome =>
      simp only [World.held, Advance.made, hnext, List.append_assoc]
      exact .refl _

theorem step_active {w : World} {i : ℕ} {call : Call} (hcall : w.active[i]? = some call) :
    w.held.Perm (call.held ++ (w.active.eraseIdx i).flatMap Call.held) := by
  obtain ⟨hi, rfl⟩ := List.getElem?_eq_some_iff.mp hcall
  exact (List.Perm.flatMap_right _ (List.getElem_cons_eraseIdx_perm hi)).symm

theorem step_takes {w : World} {i : ℕ} {call : Call} (hcall : w.active[i]? = some call) :
    (w.step i).takes = w.takes ++ (call.advance w.muxer).take.toList ∧
      (w.step i).muxer = (call.advance w.muxer).muxer := by
  simp only [World.step, hcall]
  cases (call.advance w.muxer).next <;> exact ⟨rfl, rfl⟩

theorem on_snoc {w w' : World} {s : Stream} {frame : Option WebTransportFrame}
    (h : w'.takes = w.takes ++ [⟨s, frame⟩]) (t : Stream) :
    w'.on t = if t = s then w.on t ++ [frame] else w.on t := by
  unfold World.on
  rw [h, List.filter_append, List.map_append]
  by_cases hts : t = s
  · subst hts
    simp
  · have hst : s ≠ t := fun hst => hts hst.symm
    simp [hts, hst]

theorem frames_snoc (takes : List Take) (s : Stream) (frame : Option WebTransportFrame) :
    List.filterMap Take.frame (takes ++ [⟨s, frame⟩]) =
      takes.filterMap Take.frame ++ frame.toList := by
  cases frame <;> simp

theorem Inv.step {w : World} (h : Inv w) (i : ℕ) : Inv (w.step i) := by
  cases hcall : w.active[i]? with
  | none =>
      have hsame : w.step i = w := by simp only [World.step, hcall]
      rw [hsame]
      exact h
  | some call =>
      obtain ⟨htakes, hmuxer⟩ := step_takes hcall
      have hsent : ((w.step i).sent ++ (w.step i).held).Perm
          (w.sent ++ ((call.advance w.muxer).made ++ (w.active.eraseIdx i).flatMap Call.held)) :=
        step_sends hcall
      have hbefore : (w.sent ++ (call.held ++ (w.active.eraseIdx i).flatMap Call.held)).Perm
          (w.takes.filterMap Take.frame) :=
        ((step_active hcall).symm.append_left w.sent).trans h.sends
      cases call.advanced w.muxer with
      | idle htake hm hmade =>
          rw [htake, Option.toList_none, List.append_nil] at htakes
          have hon : ∀ s, (w.step i).on s = w.on s := fun s => by rw [World.on, htakes, World.on]
          refine ⟨fun s => ?_, fun s => ?_, ?_, ?_⟩
          · rw [hmuxer, hm, hon, h.counts]
          · rw [hon]
            exact h.numbered s
          · rw [htakes]
            exact h.streams
          · rw [htakes]
            rw [hmade] at hsent
            exact hsent.trans hbefore
      | took s frame htake hm hmade hframe =>
          rw [htake, Option.toList_some] at htakes
          have hon := on_snoc htakes
          refine ⟨fun t => ?_, fun t ht => ?_, ?_, ?_⟩
          · rw [hmuxer, hm, hon]
            by_cases hts : t = s
            · subst hts
              rw [WebTransportMuxer.fetchAdd_self, if_pos rfl, h.counts, List.length_append]
              exact (UInt64.ofNat_add _ 1).symm
            · rw [WebTransportMuxer.fetchAdd_of_ne _ hts, if_neg hts, h.counts]
          · rw [hon] at ht ⊢
            by_cases hts : t = s
            · subst hts
              rw [if_pos rfl, List.length_append, List.length_singleton] at ht
              rw [if_pos rfl]
              refine (h.numbered t (by omega)).snoc fun f hf => ?_
              rw [WebTransportFrame.number, (hframe f hf).2, h.counts, Nat.zero_add,
                UInt64.toNat_ofNat']
              omega
            · rw [if_neg hts] at ht ⊢
              exact h.numbered t ht
          · intro t ht f hf
            rw [htakes] at ht
            rcases List.mem_append.mp ht with ht | ht
            · exact h.streams t ht f hf
            · obtain rfl := List.mem_singleton.mp ht
              exact (hframe f hf).1
          · rw [htakes, frames_snoc]
            rw [hmade] at hsent
            refine (hsent.trans ?_).trans (hbefore.append_right frame.toList)
            simp only [List.append_assoc]
            exact ((List.perm_append_comm).append_left _).append_left _

theorem inv_run (events : List Event) : Inv (run events) := by
  suffices h : ∀ w, Inv w → Inv (events.foldl World.handle w) from h _ inv_init
  induction events with
  | nil => exact fun w hw => hw
  | cons event events ih =>
      intro w hw
      cases event with
      | call request => exact ih _ (hw.call request)
      | step i => exact ih _ (hw.step i)

/-! ### What a receiver makes of it -/

section
variable {β : Type} {pick : FramePayload → Option (List β)} {expectedKind found : String}
variable {streamId : UInt8}

theorem gather_ok {n : ℕ} {output result : List β} {frames : List WebTransportFrame} :
    gather streamId pick expectedKind found n output frames = .ok result ↔
      frames.map WebTransportFrame.number = List.range' n frames.length ∧
        ∃ parts, (frames.map WebTransportFrame.payload).mapM pick = some parts ∧
          result = output ++ parts.flatten := by
  induction frames generalizing n output with
  | nil => simp [gather, eq_comm]
  | cons frame rest ih =>
      rw [gather, List.map_cons, List.map_cons, List.length_cons, List.range'_succ,
        List.cons.injEq, List.mapM_cons]
      by_cases hnumber : frame.number = n
      · rw [if_neg (not_not_intro hnumber)]
        cases hpick : pick frame.payload with
        | none => simp
        | some piece =>
            simp only [ih, hnumber, true_and, Option.bind_eq_bind, Option.bind_some]
            refine and_congr_right fun _ => ?_
            cases (rest.map WebTransportFrame.payload).mapM pick with
            | none => simp
            | some parts => simp [List.append_assoc]
      · rw [if_pos hnumber]
        simp [hnumber]

theorem reassembleWith_ok {result : List β} {s : Stream} {asked : List (Option WebTransportFrame)}
    {delivered : List WebTransportFrame} (hnumbered : Numbered WebTransportFrame.number 0 asked)
    (hdelivered : (delivered.filter (·.streamId = s.id)).Perm (kept asked)) :
    reassembleWith pick expectedKind found s.id delivered = .ok result ↔
      KeptFirst asked ∧ ∃ parts,
        ((kept asked).map WebTransportFrame.payload).mapM pick = some parts ∧
          result = parts.flatten := by
  rw [reassembleWith, if_neg s.id_lt, hnumbered.inOrder_eq hdelivered, gather_ok,
    hnumbered.range_iff]
  rfl

end

def OneKind (payloads : List FramePayload) : Prop :=
  (∀ p ∈ payloads, p.text?.isSome) ∨ ∀ p ∈ payloads, p.binary?.isSome

/-- The frames that callers have, in any order, are put together to what was muxed, and none of
them waits for a number that nobody has. -/
structure World.Reassembles (w : World) (s : Stream) : Prop where
  whole : ∀ delivered : List WebTransportFrame, delivered.Perm w.sent →
    (∃ parts, (w.muxed s).mapM FramePayload.text? = some parts ∧
      reassembleStream s.id delivered = .ok parts.flatten) ∨
    ∃ parts, (w.muxed s).mapM FramePayload.binary? = some parts ∧
      reassembleBinaryStream s.id delivered = .ok parts.flatten
  noneWaiting : ∀ f ∈ w.sent, f.streamId = s.id → ∀ n < f.number,
    ∃ g ∈ w.sent, g.streamId = s.id ∧ g.number = n

theorem mapM_isSome {γ δ : Type} {pick : γ → Option δ} {xs : List γ} :
    (∃ parts, xs.mapM pick = some parts) ↔ ∀ x ∈ xs, (pick x).isSome := by
  induction xs with
  | nil => simp
  | cons x xs ih =>
      rw [List.mapM_cons, List.forall_mem_cons, ← ih]
      cases pick x <;> cases xs.mapM pick <;> simp

theorem sent_on {events : List Event} (hidle : (run events).active = []) (s : Stream) :
    ((run events).sent.filter (·.streamId = s.id)).Perm (kept ((run events).on s)) := by
  have hinv := inv_run events
  have hsent := hinv.sends
  rw [World.held, hidle, List.flatMap_nil, List.append_nil] at hsent
  refine (hsent.filter _).trans (.of_eq ?_)
  have hstreams := hinv.streams
  unfold kept World.on
  generalize (run events).takes = takes at hstreams
  induction takes with
  | nil => rfl
  | cons take takes ih =>
      have hrest := ih fun t ht => hstreams t (List.mem_cons_of_mem _ ht)
      have hfirst := hstreams take List.mem_cons_self
      obtain ⟨t, frame⟩ := take
      cases frame with
      | none =>
          by_cases hts : t = s
          · simpa [hts] using hrest
          · simpa [hts] using hrest
      | some f =>
          have hid : f.streamId = t.id := hfirst f rfl
          by_cases hts : t = s
          · subst hts
            simpa [hid] using hrest
          · have hne : f.streamId ≠ s.id := fun h => hts (Stream.id_inj (hid.symm.trans h))
            simpa [hts, hne] using hrest

theorem gathered {β : Type} {pick : FramePayload → Option (List β)} {expectedKind found : String}
    {events : List Event} {s : Stream} {delivered : List WebTransportFrame}
    (hidle : (run events).active = []) (hnumbers : ((run events).on s).length ≤ 2 ^ 64)
    (hdelivered : delivered.Perm (run events).sent) :
    (∃ parts, ((run events).muxed s).mapM pick = some parts ∧
        reassembleWith pick expectedKind found s.id delivered = .ok parts.flatten) ↔
      KeptFirst ((run events).on s) ∧ ∀ p ∈ (run events).muxed s, (pick p).isSome := by
  have hnumbered := (inv_run events).numbered s hnumbers
  have hsent := (hdelivered.filter _).trans (sent_on hidle s)
  simp only [reassembleWith_ok hnumbered hsent]
  rw [← mapM_isSome]
  constructor
  · rintro ⟨parts, hparts, hkept, -⟩
    exact ⟨hkept, parts, hparts⟩
  · rintro ⟨hkept, parts, hparts⟩
    exact ⟨parts, hparts, hkept, parts, hparts, rfl⟩

theorem none_waiting {events : List Event} {s : Stream} (hidle : (run events).active = [])
    (hnumbers : ((run events).on s).length ≤ 2 ^ 64) (hkept : KeptFirst ((run events).on s)) :
    ∀ f ∈ (run events).sent, f.streamId = s.id → ∀ n < f.number,
      ∃ g ∈ (run events).sent, g.streamId = s.id ∧ g.number = n := by
  have hrange := ((inv_run events).numbered s hnumbers).range_iff.mpr hkept
  have hsent := sent_on hidle s
  intro f hf hid n hn
  have hf' : f ∈ kept ((run events).on s) :=
    hsent.subset (List.mem_filter.mpr ⟨hf, decide_eq_true hid⟩)
  have hnumber : f.number ∈ (kept ((run events).on s)).map WebTransportFrame.number :=
    List.mem_map_of_mem hf'
  have hmem : n ∈ (kept ((run events).on s)).map WebTransportFrame.number := by
    rw [hrange, List.mem_range'_1] at hnumber ⊢
    omega
  obtain ⟨g, hg, rfl⟩ := List.mem_map.mp hmem
  have hg' := List.mem_filter.mp (hsent.symm.subset hg)
  exact ⟨g, hg'.1, of_decide_eq_true hg'.2, rfl⟩

/-- When no call is under way, a stream is put together just when no number of it that was given
for nothing was given before one of a frame, and its payloads are of one kind. -/
theorem reassembles_iff (events : List Event) (s : Stream) (hidle : (run events).active = [])
    (hnumbers : ((run events).on s).length ≤ 2 ^ 64) :
    (run events).Reassembles s ↔
      KeptFirst ((run events).on s) ∧ OneKind ((run events).muxed s) := by
  constructor
  · intro h
    rcases h.whole _ (.refl _) with htext | hbinary
    · have hkept := (gathered hidle hnumbers (.refl _)).mp htext
      exact ⟨hkept.1, .inl hkept.2⟩
    · have hkept := (gathered hidle hnumbers (.refl _)).mp hbinary
      exact ⟨hkept.1, .inr hkept.2⟩
  · rintro ⟨hkept, hkind⟩
    refine ⟨fun delivered hdelivered => ?_, none_waiting hidle hnumbers hkept⟩
    rcases hkind with htext | hbinary
    · exact .inl ((gathered hidle hnumbers hdelivered).mpr ⟨hkept, htext⟩)
    · exact .inr ((gathered hidle hnumbers hdelivered).mpr ⟨hkept, hbinary⟩)

/-! ### Runs that give no number for nothing -/

def Call.Clean : Call → Prop
  | .lanes rest _ => validLanes rest = true
  | .routes _ _ => True
  | .allocate streamId => 4 ≤ streamId
  | .numbering rest all => (∀ lane ∈ rest, lane.bucket = []) ∧ ∀ lane ∈ all, lane.bucket = []
  | .emitting rest => ∀ lane ∈ rest, lane.bucket = []

theorem Call.Clean.advance {m : WebTransportMuxer} {call : Call} (h : call.Clean) :
    (∀ t, (call.advance m).take = some t → t.frame.isSome) ∧
      ∀ next, (call.advance m).next = .inl next → next.Clean := by
  cases call with
  | lanes rest made =>
      cases rest with
      | nil => exact ⟨fun t ht => (nomatch ht), fun next hnext => nomatch hnext⟩
      | cons chunk rest =>
          obtain ⟨hlane, hrest⟩ : chunk.lane < 4 ∧ validLanes rest = true := by
            simpa [Call.Clean, validLanes] using h
          simp only [Call.advance, dif_pos hlane, hrest, if_true, Option.some.injEq, Sum.inl.injEq]
          refine ⟨fun t ht => ?_, fun next hnext => ?_⟩
          · subst ht
            rfl
          · subst hnext
            exact hrest
  | routes rest made =>
      cases rest with
      | nil => exact ⟨fun t ht => (nomatch ht), fun next hnext => nomatch hnext⟩
      | cons chunk rest =>
          refine ⟨fun t ht => ?_, fun next hnext => ?_⟩
          · obtain rfl := Option.some.inj ht
            rfl
          · obtain rfl := Sum.inl.inj hnext
            exact trivial
  | allocate streamId =>
      simp only [Call.advance, dif_neg (Nat.not_lt.mpr h)]
      exact ⟨fun t ht => (nomatch ht), fun next hnext => nomatch hnext⟩
  | numbering rest all =>
      cases rest with
      | nil =>
          refine ⟨fun t ht => (nomatch ht), fun next hnext => ?_⟩
          obtain rfl := Sum.inl.inj hnext
          exact h.2
      | cons lane rest =>
          have hempty : lane.bucket.isEmpty = true :=
            List.isEmpty_iff.mpr (h.1 lane List.mem_cons_self)
          simp only [Call.advance, hempty, if_true]
          refine ⟨fun t ht => (nomatch ht), fun next hnext => ?_⟩
          obtain rfl := Sum.inl.inj hnext
          exact ⟨fun l hl => h.1 l (List.mem_cons_of_mem _ hl), h.2⟩
  | emitting rest =>
      cases rest with
      | nil => exact ⟨fun t ht => (nomatch ht), fun next hnext => nomatch hnext⟩
      | cons lane rest =>
          have hempty : lane.bucket.isEmpty = true :=
            List.isEmpty_iff.mpr (h lane List.mem_cons_self)
          simp only [Call.advance, hempty, if_true]
          refine ⟨fun t ht => (nomatch ht), fun next hnext => ?_⟩
          obtain rfl := Sum.inl.inj hnext
          exact fun l hl => h l (List.mem_cons_of_mem _ hl)

def CleanEvents (events : List Event) : Prop :=
  ∀ request, .call request ∈ events → request.begin.Clean

theorem cleanEvents_run {events : List Event} (h : CleanEvents events) :
    (∀ call ∈ (run events).active, call.Clean) ∧
      ∀ t ∈ (run events).takes, t.frame.isSome := by
  suffices hrun : ∀ w : World, ((∀ call ∈ w.active, call.Clean) ∧ ∀ t ∈ w.takes, t.frame.isSome) →
      (∀ call ∈ (events.foldl World.handle w).active, call.Clean) ∧
        ∀ t ∈ (events.foldl World.handle w).takes, t.frame.isSome from
    hrun _ ⟨fun call hcall => absurd hcall List.not_mem_nil,
      fun t ht => absurd ht List.not_mem_nil⟩
  induction events with
  | nil => exact fun w hw => hw
  | cons event events ih =>
      intro w hw
      refine ih (fun request hrequest => h request (List.mem_cons_of_mem _ hrequest)) _ ?_
      cases event with
      | call request =>
          refine ⟨fun call hcall => ?_, hw.2⟩
          rcases List.mem_append.mp hcall with hcall | hcall
          · exact hw.1 call hcall
          · obtain rfl := List.mem_singleton.mp hcall
            exact h request List.mem_cons_self
      | step i =>
          change (∀ call ∈ (w.step i).active, call.Clean) ∧ ∀ t ∈ (w.step i).takes, t.frame.isSome
          unfold World.step
          cases hcall : w.active[i]? with
          | none => exact hw
          | some call =>
              obtain ⟨htake, hnext⟩ := (hw.1 call (List.mem_of_getElem? hcall)).advance (m := w.muxer)
              have htakes : ∀ t ∈ w.takes ++ (call.advance w.muxer).take.toList, t.frame.isSome := by
                intro t ht
                rcases List.mem_append.mp ht with ht | ht
                · exact hw.2 t ht
                · exact htake t (Option.mem_toList.mp ht)
              cases hadvance : (call.advance w.muxer).next with
              | inl next =>
                  simp only [hadvance]
                  refine ⟨fun other hother => ?_, htakes⟩
                  rcases List.mem_or_eq_of_mem_set hother with hother | rfl
                  · exact hw.1 other hother
                  · exact hnext other hadvance
              | inr outcome =>
                  simp only [hadvance]
                  exact ⟨fun other hother => hw.1 other (List.mem_of_mem_eraseIdx hother), htakes⟩

theorem CleanEvents.keptFirst {events : List Event} (h : CleanEvents events) (s : Stream) :
    KeptFirst ((run events).on s) := by
  refine keptFirst_of_forall fun o ho => ?_
  obtain ⟨t, ht, rfl⟩ := List.mem_map.mp ho
  exact (cleanEvents_run h).2 t (List.mem_filter.mp ht).1

/-- When no call is under way, a stream is put together just when no number of it was given for
nothing before one of a frame and its payloads are of one kind. No number is given for nothing
in a run of route chunks, of lane chunks without a bad lane, and of ticks that find nothing. -/
theorem streams_reassemble (events : List Event) (s : Stream) (hidle : (run events).active = [])
    (hnumbers : ((run events).on s).length ≤ 2 ^ 64) :
    ((run events).Reassembles s ↔
      KeptFirst ((run events).on s) ∧ OneKind ((run events).muxed s)) ∧
    (CleanEvents events → KeptFirst ((run events).on s)) :=
  ⟨reassembles_iff events s hidle hnumbers, fun h => h.keptFirst s⟩

def chunkOn (lane : ℕ) (content : String) : LaneRenderedChunk := ⟨lane, none, .text content.toList⟩

/-- Two callers on one stream, one after the other in turns. -/
theorem reassembles_in_turns :
    (run [.call (.muxLaneChunks [chunkOn 2 "a", chunkOn 2 "b"]),
      .call (.muxLaneChunks [chunkOn 2 "c"]), .step 0, .step 1, .step 0, .step 1,
      .step 0]).Reassembles slotPatches :=
  (streams_reassemble _ _ rfl (by decide)).1.mpr ⟨by decide, .inl (by decide)⟩

def reservedFirst : List Event :=
  [.call (.allocateSequence 2), .step 0, .call (.muxLaneChunks [chunkOn 2 "a"]), .step 0, .step 0]

/-- The frame waits for the number that was reserved. -/
theorem reassembles_fails :
    ¬ ∀ events s, (run events).active = [] → (run events).Reassembles s := by
  intro h
  have hreassembles := h reservedFirst slotPatches rfl
  have hkept := ((reassembles_iff reservedFirst slotPatches rfl (by decide)).mp hreassembles).1
  revert hkept
  decide

end Albedo.Muxer
