import Albedo.Upload.Decode
import Mathlib.Logic.Function.Basic

/-!
# Submits at once

Any number of submits share the upload directory. What is at the path of an id has that hash, and
each temporary file belongs to one submit, which removes it. What a submit has read is within the
ceiling and one chunk, where what it drains is counted.
-/
namespace Albedo.Upload

variable {registry : UploadRegistry} {digest : Digest}

/-! ### Paths -/

theorem pathFor_eq_some {id : String} {path : Path} (h : pathFor id = some path) :
    isUploadId id = true ∧
      path = [uploadDir, String.ofList (id.toList.take 2), String.ofList (id.toList.drop 2)] := by
  unfold pathFor at h
  split_ifs at h with hid
  exact ⟨hid, (Option.some.inj h).symm⟩

theorem pathFor_inj {id id' : String} {path : Path} (h : pathFor id = some path)
    (h' : pathFor id' = some path) : id = id' := by
  obtain ⟨-, hpath⟩ := pathFor_eq_some h
  obtain ⟨-, hpath'⟩ := pathFor_eq_some h'
  rw [hpath] at hpath'
  simp only [List.cons.injEq, true_and, and_true] at hpath'
  have htake := String.ofList_injective hpath'.1
  have hdrop := String.ofList_injective hpath'.2
  rw [← String.toList_inj, ← List.take_append_drop 2 id.toList, htake, hdrop,
    List.take_append_drop]

theorem pathFor_ne_tmpPath {id : String} {path : Path} (h : pathFor id = some path) (name : String) :
    path ≠ tmpPath name := by
  obtain ⟨hid, rfl⟩ := pathFor_eq_some h
  intro heq
  simp only [tmpPath, List.cons.injEq] at heq
  have hfanOut : id.toList.take 2 = ['.', 't', 'm', 'p'] := by
    have := congrArg String.toList heq.2.1
    rwa [String.toList_ofList] at this
  have hlength := congrArg List.length hfanOut
  rw [List.length_take] at hlength
  have : min 2 id.toList.length ≤ 2 := Nat.min_le_left _ _
  simp only [List.length_cons, List.length_nil] at hlength
  omega

theorem tmpPath_inj {name name' : String} : tmpPath name = tmpPath name' ↔ name = name' := by
  simp [tmpPath]

theorem foldl_max_le {l : List ℕ} {start bound : ℕ} (hstart : start ≤ bound)
    (hl : ∀ n ∈ l, n ≤ bound) : l.foldl max start ≤ bound := by
  induction l generalizing start with
  | nil => exact hstart
  | cons n l ih =>
      rw [List.forall_mem_cons] at hl
      exact ih (max_le hstart hl.1) hl.2

theorem bodyCeiling_lt (registry : UploadRegistry) : bodyCeiling registry < 2 ^ 64 - 1 := by
  have hceiling : registry.ceiling ≤ maxDeclarableBytes := by
    apply foldl_max_le (Nat.zero_le _)
    intro n hn
    obtain ⟨bucket, -, rfl⟩ := List.mem_map.mp hn
    exact bucket.declarable
  unfold bodyCeiling saturatingAdd
  have : registry.ceiling * maxFileParts ≤ maxDeclarableBytes * maxFileParts :=
    Nat.mul_le_mul_right _ hceiling
  simp only [maxDeclarableBytes, maxFileParts, maxFormBodyBytes] at this ⊢
  omega

/-! ### What one submit keeps -/

namespace Stage

def tmp : Stage → Option String
  | .makeTmpDir | .create => none
  | .copy tmp _ _ | .write tmp _ _ _ | .flush tmp _ _ | .makeFanOut tmp _ _ _ | .look tmp _ _ _
  | .rename tmp _ _ _ | .lookAgain tmp _ _ _ _ | .discard tmp _ => some tmp

/-- What the temporary file holds: with what is pending all of the part so far, and once it has an
id the whole part, whose hash the id is. -/
def Content (digest : Digest) (files : Files) (limit : ℕ) (payload : Bytes) : Stage → Prop
  | .copy tmp hashed pending | .flush tmp hashed pending =>
      ∃ disk, files (tmpPath tmp) = some disk ∧ disk ++ pending = payload ∧ hashed = payload ∧
        payload.length ≤ limit
  | .write tmp hashed pending chunk =>
      ∃ disk, files (tmpPath tmp) = some disk ∧ disk ++ (pending ++ chunk) = payload ∧
        hashed = payload ∧ payload.length ≤ limit
  | .makeFanOut tmp _ id final | .look tmp _ id final | .rename tmp _ id final
  | .lookAgain tmp _ id final _ =>
      files (tmpPath tmp) = some payload ∧ digest.hash payload = id ∧ payload.length ≤ limit ∧
        pathFor id = some final
  | .makeTmpDir | .create => payload = []
  | .discard _ _ => True

def reading : Stage → Bool
  | .discard _ (.error _) => false
  | _ => true

end Stage

namespace Phase

def tmp : Phase → Option String
  | .file _ stage => stage.tmp
  | _ => none

def Content (registry : UploadRegistry) (digest : Digest) (files : Files) (payload : Bytes) :
    Phase → Prop
  | .file part stage =>
      registry.bucket part.name = some part.bucket ∧ part.bucket.accepts part.contentType ∧
        stage.Content digest files part.bucket.maxBytes payload
  | _ => True

def reading : Phase → Bool
  | .file _ stage => stage.reading
  | .returned _ => false
  | _ => true

end Phase

/-- A submit, with how much it has read, its last chunk, what the present part has brought, and
the temporary files it has made. -/
structure Tracked where
  submit : Submit
  read : ℕ
  last : ℕ
  payload : Bytes
  made : List String

def Tracked.answer (t : Tracked) (s : Submit) : Answer → Tracked
  | .field _ => { t with submit := s, payload := [] }
  | .chunk (some bytes) =>
      ⟨s, t.read + bytes.length, bytes.length, t.payload ++ bytes, t.made⟩
  | .created name => { t with submit := s, made := name :: t.made }
  | _ => { t with submit := s }

structure Kept (registry : UploadRegistry) (digest : Digest) (files : Files) (t : Tracked) : Prop where
  made : ∀ name ∈ t.made, (files (tmpPath name)).isSome → t.submit.phase.tmp = some name
  holds : ∀ name, t.submit.phase.tmp = some name → name ∈ t.made
  content : t.submit.phase.Content registry digest files t.payload
  bounded : t.read ≤ bodyCeiling registry + t.last
  counted : t.submit.phase.reading → t.read = t.submit.bodySeen ∧ t.read ≤ bodyCeiling registry

variable {files files' : Files} {t : Tracked} {s : Submit} {part : FilePart}

theorem Kept.same (h : Kept registry digest files t) (payload : Bytes)
    (htmp : s.phase.tmp = t.submit.phase.tmp) (hbody : s.bodySeen = t.submit.bodySeen)
    (hreading : s.phase.reading → t.submit.phase.reading)
    (hcontent : s.phase.Content registry digest files payload) :
    Kept registry digest files { t with submit := s, payload := payload } := by
  refine ⟨?_, ?_, hcontent, h.bounded, ?_⟩
  · intro name hname hfile
    exact htmp.trans (h.made name hname hfile)
  · intro name hname
    exact h.holds name (htmp.symm.trans hname)
  · intro hs
    dsimp only
    rw [hbody]
    exact h.counted (hreading hs)

theorem Kept.chunk (h : Kept registry digest files t) (hreading : t.submit.phase.reading)
    (bytes : Bytes) (htmp : s.phase.tmp = t.submit.phase.tmp)
    (hbody : s.bodySeen = saturatingAdd t.submit.bodySeen bytes.length)
    (hmore : s.phase.reading → s.bodySeen ≤ bodyCeiling registry)
    (hcontent : s.phase.Content registry digest files (t.payload ++ bytes)) :
    Kept registry digest files (t.answer s (.chunk (some bytes))) := by
  obtain ⟨hcount, hwithin⟩ := h.counted hreading
  refine ⟨?_, ?_, hcontent, Nat.add_le_add_right hwithin bytes.length, ?_⟩
  · intro name hname hfile
    exact htmp.trans (h.made name hname hfile)
  · intro name hname
    exact h.holds name (htmp.symm.trans hname)
  · intro hs
    have hless := hmore hs
    have hlarge := bodyCeiling_lt registry
    dsimp only [Tracked.answer]
    rw [hbody] at hless ⊢
    unfold saturatingAdd at hless ⊢
    omega

theorem Phase.Content.frame {phase : Phase} {payload : Bytes}
    (h : phase.Content registry digest files payload)
    (hsame : ∀ name, phase.tmp = some name → files' (tmpPath name) = files (tmpPath name)) :
    phase.Content registry digest files' payload := by
  cases phase with
  | file part stage =>
      obtain ⟨hbucket, haccepts, hstage⟩ := h
      refine ⟨hbucket, haccepts, ?_⟩
      cases stage with
      | makeTmpDir => exact hstage
      | create => exact hstage
      | discard tmp outcome => trivial
      | copy tmp hashed pending =>
          simpa only [Stage.Content, hsame tmp rfl] using hstage
      | write tmp hashed pending chunk =>
          simpa only [Stage.Content, hsame tmp rfl] using hstage
      | flush tmp hashed pending => simpa only [Stage.Content, hsame tmp rfl] using hstage
      | makeFanOut tmp size id final => simpa only [Stage.Content, hsame tmp rfl] using hstage
      | look tmp size id final => simpa only [Stage.Content, hsame tmp rfl] using hstage
      | rename tmp size id final => simpa only [Stage.Content, hsame tmp rfl] using hstage
      | lookAgain tmp size id final reason =>
          simpa only [Stage.Content, hsame tmp rfl] using hstage
  | next => trivial
  | drain => trivial
  | text name text => trivial
  | returned result => trivial

theorem Kept.frame (h : Kept registry digest files t)
    (hsame : ∀ name ∈ t.made, files' (tmpPath name) = files (tmpPath name)) :
    Kept registry digest files' t := by
  refine ⟨?_, h.holds, ?_, h.bounded, h.counted⟩
  · intro name hname hfile
    rw [hsame name hname] at hfile
    exact h.made name hname hfile
  · apply h.content.frame
    intro name hname
    exact hsame name (h.holds name hname)

theorem Kept.own (h : Kept registry digest files t) {tmp : String}
    (htmp : t.submit.phase.tmp = some tmp)
    (hother : ∀ name, name ≠ tmp → files' (tmpPath name) = files (tmpPath name))
    (hown : s.phase.tmp = some tmp ∨ s.phase.tmp = none ∧ files' (tmpPath tmp) = none)
    (hbody : s.bodySeen = t.submit.bodySeen) (hreading : s.phase.reading → t.submit.phase.reading)
    (hcontent : s.phase.Content registry digest files' t.payload) :
    Kept registry digest files' { t with submit := s } := by
  refine ⟨?_, ?_, hcontent, h.bounded, ?_⟩
  · intro name hname hfile
    by_cases hne : name = tmp
    · subst hne
      rcases hown with hkeeps | ⟨-, hnone⟩
      · exact hkeeps
      · rw [hnone] at hfile
        cases hfile
    · rw [hother name hne] at hfile
      have := h.made name hname hfile
      rw [htmp] at this
      exact absurd (Option.some.inj this).symm hne
  · intro name hname
    rcases hown with hkeeps | ⟨hloses, -⟩
    · exact h.holds name (by rw [htmp, ← hkeeps, hname])
    · rw [hname] at hloses
      cases hloses
  · intro hs
    dsimp only
    rw [hbody]
    exact h.counted (hreading hs)

theorem Kept.create (h : Kept registry digest files t) {name : String}
    (htmp : t.submit.phase.tmp = none) (hfresh : name ∉ t.made)
    (hown : s.phase.tmp = some name) (hbody : s.bodySeen = t.submit.bodySeen)
    (hreading : t.submit.phase.reading)
    (hcontent : s.phase.Content registry digest
      (Function.update files (tmpPath name) (some [])) t.payload) :
    Kept registry digest (Function.update files (tmpPath name) (some []))
      (t.answer s (.created name)) := by
  refine ⟨?_, ?_, hcontent, h.bounded, ?_⟩
  · intro other hother hfile
    rcases List.mem_cons.mp hother with rfl | hmade
    · exact hown
    · have hne : tmpPath other ≠ tmpPath name := by
        rw [Ne, tmpPath_inj]
        rintro rfl
        exact hfresh hmade
      rw [Function.update_of_ne hne] at hfile
      have := h.made other hmade hfile
      rw [htmp] at this
      cases this
  · intro other hother
    have : name = other := by
      have := hown.symm.trans hother
      exact Option.some.inj this
    subst this
    exact List.mem_cons_self
  · intro _
    dsimp only [Tracked.answer]
    rw [hbody]
    exact h.counted hreading

/-! ### Where the code keeps its word -/

/-- A nameless part brings nothing, the directory of a file can be made, and a temporary file can
be removed. -/
def Submit.Meets (s : Submit) (answer : Answer) : Prop :=
  match s.phase, answer with
  | .drain, .chunk (some bytes) => bytes = []
  | .file _ (.makeFanOut ..), .failed _ => False
  | .file _ (.discard ..), .failed _ => False
  | _, _ => True

theorem update_tmpPath_of_ne {tmp name : String} (hne : name ≠ tmp) (content : Option Bytes) :
    Function.update files (tmpPath tmp) content (tmpPath name) = files (tmpPath name) := by
  apply Function.update_of_ne
  rwa [Ne, tmpPath_inj]

theorem settle_of_ne {tmp name : String} (hne : name ≠ tmp) (pending : Bytes) (settled : ℕ) :
    Submit.settle files tmp pending settled (tmpPath name) = files (tmpPath name) :=
  update_tmpPath_of_ne hne _

theorem settle_self {tmp : String} {disk : Bytes} (h : files (tmpPath tmp) = some disk)
    (pending : Bytes) (settled : ℕ) :
    Submit.settle files tmp pending settled (tmpPath tmp) = some (disk ++ pending.take settled) := by
  rw [Submit.settle, Function.update_self, h]
  rfl

/-! ### Steps of one submit -/

theorem Kept.readFile (h : Kept registry digest files t) {tmp : String} {hashed pending : Bytes}
    (hphase : t.submit.phase = .file part (.copy tmp hashed pending)) (chunk : Bytes) :
    Kept registry digest files
      (t.answer (t.submit.readFile registry part tmp hashed pending chunk) (.chunk (some chunk))) := by
  have hreading : t.submit.phase.reading := by
    rw [hphase]
    rfl
  have hcontent := h.content
  rw [hphase] at hcontent
  obtain ⟨hbucket, haccepts, disk, hdisk, happend, hhashed, -⟩ := hcontent
  dsimp only [Submit.readFile]
  split_ifs with hlimit hceiling
  · apply h.chunk hreading
    · rw [hphase]
      rfl
    · rfl
    · intro hs
      cases hs
    · exact ⟨hbucket, haccepts, trivial⟩
  · apply h.chunk hreading
    · rw [hphase]
      rfl
    · rfl
    · intro hs
      cases hs
    · exact ⟨hbucket, haccepts, trivial⟩
  · apply h.chunk hreading
    · rw [hphase]
      rfl
    · rfl
    · intro _
      exact not_lt.mp hceiling
    · refine ⟨hbucket, haccepts, disk, hdisk, ?_, ?_, ?_⟩
      · rw [← List.append_assoc, happend]
      · rw [hhashed]
      · have hdeclarable := part.bucket.declarable
        rw [hhashed] at hlimit
        unfold saturatingAdd at hlimit
        simp only [maxDeclarableBytes] at hdeclarable
        rw [List.length_append]
        omega

theorem Kept.file (h : Kept registry digest files t) {stage : Stage} {answer : Answer}
    (hphase : t.submit.phase = .file part stage)
    (hstep : t.submit.stepFile registry digest part files stage answer = some (s, files'))
    (hmeets : t.submit.Meets answer) (hfresh : ∀ name, answer = .created name → name ∉ t.made) :
    Kept registry digest files' (t.answer s answer) := by
  have hcontent := h.content
  have htmp : t.submit.phase.tmp = stage.tmp := by
    rw [hphase]
    rfl
  have hreading : t.submit.phase.reading = stage.reading := by
    rw [hphase]
    rfl
  rw [hphase] at hcontent
  obtain ⟨hbucket, haccepts, hstage⟩ := hcontent
  -- A step within the part that leaves every file as it is.
  have hsame : ∀ next : Stage, next.tmp = stage.tmp → (next.reading → stage.reading) →
      next.Content digest files part.bucket.maxBytes t.payload →
      Kept registry digest files { t with submit := t.submit.atStage part next } := by
    intro next hnext hread hnextContent
    exact h.same t.payload (hnext.trans htmp.symm) rfl (fun hr => hreading ▸ hread hr)
      ⟨hbucket, haccepts, hnextContent⟩
  -- A step that refuses the submit when it has no temporary file.
  have hfail : ∀ error, stage.tmp = none →
      Kept registry digest files { t with submit := t.submit.fail error } := by
    intro error hnone
    exact h.same t.payload (htmp.trans hnone).symm rfl (fun hr => nomatch hr) trivial
  cases stage with
  | makeTmpDir =>
      cases answer with
      | done settled =>
          obtain ⟨rfl, rfl⟩ := Prod.mk.inj (Option.some.inj hstep)
          exact hsame .create rfl (fun _ => rfl) hstage
      | failed reason =>
          obtain ⟨rfl, rfl⟩ := Prod.mk.inj (Option.some.inj hstep)
          exact hfail _ rfl
      | _ => cases hstep
  | create =>
      cases answer with
      | created name =>
          obtain ⟨rfl, rfl⟩ := Prod.mk.inj (Option.some.inj hstep)
          refine h.create htmp (hfresh name rfl) rfl rfl hreading ⟨hbucket, haccepts, [], ?_, ?_, ?_, ?_⟩
          · exact Function.update_self ..
          · exact hstage.symm
          · exact hstage.symm
          · rw [show t.payload = [] from hstage]
            exact Nat.zero_le _
      | failed reason =>
          obtain ⟨rfl, rfl⟩ := Prod.mk.inj (Option.some.inj hstep)
          exact hfail _ rfl
      | _ => cases hstep
  | copy tmp hashed pending =>
      cases answer with
      | chunk bytes =>
          cases bytes with
          | some bytes =>
              obtain ⟨rfl, rfl⟩ := Prod.mk.inj (Option.some.inj hstep)
              exact h.readFile hphase bytes
          | none =>
              obtain ⟨rfl, rfl⟩ := Prod.mk.inj (Option.some.inj hstep)
              exact hsame (.flush tmp hashed pending) rfl (fun _ => rfl) hstage
      | failed reason =>
          obtain ⟨rfl, rfl⟩ := Prod.mk.inj (Option.some.inj hstep)
          exact hsame (.discard tmp _) rfl (fun _ => rfl) trivial
      | _ => cases hstep
  | write tmp hashed pending chunk =>
      obtain ⟨disk, hdisk, happend, hhashed, hlimit⟩ := hstage
      cases answer with
      | done settled =>
          obtain ⟨rfl, rfl⟩ := Prod.mk.inj (Option.some.inj hstep)
          refine h.own htmp (fun name hne => settle_of_ne hne _ _) (.inl rfl) rfl (fun _ => hreading) ?_
          refine ⟨hbucket, haccepts, _, settle_self hdisk _ _, ?_, hhashed, hlimit⟩
          rw [List.append_assoc, List.take_append_drop]
          exact happend
      | failed reason =>
          obtain ⟨rfl, rfl⟩ := Prod.mk.inj (Option.some.inj hstep)
          exact hsame (.discard tmp _) rfl (fun _ => rfl) trivial
      | _ => cases hstep
  | flush tmp hashed pending =>
      obtain ⟨disk, hdisk, happend, hhashed, hlimit⟩ := hstage
      cases answer with
      | done settled =>
          -- The hash is always an id, so the path is always there.
          have hid : pathFor (digest.hash hashed) = some _ := if_pos (digest.isUploadId_hash hashed)
          simp only [Submit.stepFile, hid] at hstep
          obtain ⟨rfl, rfl⟩ := Prod.mk.inj (Option.some.inj hstep)
          refine h.own htmp (fun name hne => settle_of_ne hne _ _) (.inl rfl) rfl (fun _ => hreading) ?_
          refine ⟨hbucket, haccepts, ?_, ?_, hlimit, hid⟩
          · rw [settle_self hdisk, List.take_length, happend]
          · rw [hhashed]
      | failed reason =>
          obtain ⟨rfl, rfl⟩ := Prod.mk.inj (Option.some.inj hstep)
          exact hsame (.discard tmp _) rfl (fun _ => rfl) trivial
      | _ => cases hstep
  | makeFanOut tmp size id final =>
      cases answer with
      | done settled =>
          obtain ⟨rfl, rfl⟩ := Prod.mk.inj (Option.some.inj hstep)
          exact hsame (.look tmp size id final) rfl (fun _ => rfl) hstage
      | failed reason =>
          simp only [Submit.Meets, hphase] at hmeets
      | _ => cases hstep
  | look tmp size id final =>
      cases answer with
      | done settled =>
          simp only [Submit.stepFile] at hstep
          split_ifs at hstep with hthere
          · obtain ⟨rfl, rfl⟩ := Prod.mk.inj (Option.some.inj hstep)
            exact hsame (.discard tmp _) rfl (fun _ => rfl) trivial
          · obtain ⟨rfl, rfl⟩ := Prod.mk.inj (Option.some.inj hstep)
            exact hsame (.rename tmp size id final) rfl (fun _ => rfl) hstage
      | failed reason =>
          obtain ⟨rfl, rfl⟩ := Prod.mk.inj (Option.some.inj hstep)
          exact hsame (.rename tmp size id final) rfl (fun _ => rfl) hstage
      | _ => cases hstep
  | rename tmp size id final =>
      have hfinal := hstage.2.2.2
      cases answer with
      | done settled =>
          obtain ⟨rfl, rfl⟩ := Prod.mk.inj (Option.some.inj hstep)
          refine h.own htmp ?_ (.inr ⟨rfl, Function.update_self ..⟩) rfl (fun _ => hreading) trivial
          intro name hne
          rw [update_tmpPath_of_ne hne, Function.update_of_ne]
          exact (pathFor_ne_tmpPath hfinal name).symm
      | failed reason =>
          obtain ⟨rfl, rfl⟩ := Prod.mk.inj (Option.some.inj hstep)
          exact hsame (.lookAgain tmp size id final reason) rfl (fun _ => rfl) hstage
      | _ => cases hstep
  | lookAgain tmp size id final reason =>
      cases answer with
      | done settled =>
          simp only [Submit.stepFile] at hstep
          split_ifs at hstep with hthere
          · obtain ⟨rfl, rfl⟩ := Prod.mk.inj (Option.some.inj hstep)
            exact hsame (.discard tmp _) rfl (fun _ => rfl) trivial
          · obtain ⟨rfl, rfl⟩ := Prod.mk.inj (Option.some.inj hstep)
            exact hsame (.discard tmp _) rfl (fun _ => rfl) trivial
      | failed again =>
          obtain ⟨rfl, rfl⟩ := Prod.mk.inj (Option.some.inj hstep)
          exact hsame (.discard tmp _) rfl (fun _ => rfl) trivial
      | _ => cases hstep
  | discard tmp outcome =>
      cases answer with
      | done settled =>
          obtain ⟨rfl, rfl⟩ := Prod.mk.inj (Option.some.inj hstep)
          have hgone : Function.update files (tmpPath tmp) none (tmpPath tmp) = none :=
            Function.update_self ..
          have hother : ∀ name, name ≠ tmp →
              Function.update files (tmpPath tmp) none (tmpPath name) = files (tmpPath name) :=
            fun name hne => update_tmpPath_of_ne hne none
          cases outcome with
          | error error => exact h.own htmp hother (.inr ⟨rfl, hgone⟩) rfl (fun hr => nomatch hr) trivial
          | ok upload => exact h.own htmp hother (.inr ⟨rfl, hgone⟩) rfl (fun _ => hreading) trivial
      | failed reason =>
          simp only [Submit.Meets, hphase] at hmeets
      | _ => cases hstep

theorem Kept.begin (h : Kept registry digest files t) (hphase : t.submit.phase = .next)
    (header : PartHeader) :
    Kept registry digest files
      (t.answer (t.submit.begin registry header) (.field (some header))) := by
  have htmp : t.submit.phase.tmp = none := by
    rw [hphase]
    rfl
  have hreading : t.submit.phase.reading := by
    rw [hphase]
    rfl
  have hfail : ∀ error, Kept registry digest files
      { t with
        submit := Submit.fail { t.submit with filesSeen := t.submit.filesSeen + 1 } error
        payload := [] } := by
    intro error
    exact h.same [] htmp.symm rfl (fun hr => nomatch hr) trivial
  unfold Submit.begin
  cases header.name with
  | none => exact h.same [] htmp.symm rfl (fun _ => hreading) trivial
  | some name =>
      dsimp only
      cases header.fileName with
      | none => exact h.same [] htmp.symm rfl (fun _ => hreading) trivial
      | some fileName =>
          dsimp only
          split_ifs with hmany
          · exact hfail _
          · cases hbucket : registry.bucket name with
            | none => exact hfail _
            | some bucket =>
                dsimp only
                split_ifs with haccepts
                · exact h.same [] htmp.symm rfl (fun _ => hreading) ⟨hbucket, haccepts, rfl⟩
                · exact hfail _

theorem Kept.readText (h : Kept registry digest files t) {name : String} {text : Bytes}
    (hphase : t.submit.phase = .text name text) (chunk : Bytes) :
    Kept registry digest files
      (t.answer (t.submit.readText registry name text chunk) (.chunk (some chunk))) := by
  have htmp : t.submit.phase.tmp = none := by
    rw [hphase]
    rfl
  have hreading : t.submit.phase.reading := by
    rw [hphase]
    rfl
  dsimp only [Submit.readText]
  split_ifs with hceiling hfield
  · exact h.chunk hreading chunk htmp.symm rfl (fun hr => nomatch hr) trivial
  · exact h.chunk hreading chunk htmp.symm rfl (fun hr => nomatch hr) trivial
  · exact h.chunk hreading chunk htmp.symm rfl (fun _ => not_lt.mp hceiling) trivial

theorem Kept.step (h : Kept registry digest files t) {answer : Answer}
    (hstep : t.submit.step registry digest files answer = some (s, files'))
    (hmeets : t.submit.Meets answer) (hfresh : ∀ name, answer = .created name → name ∉ t.made) :
    Kept registry digest files' (t.answer s answer) := by
  unfold Submit.step at hstep
  cases hphase : t.submit.phase with
  | next =>
      have htmp : t.submit.phase.tmp = none := by
        rw [hphase]
        rfl
      have hreading : t.submit.phase.reading := by
        rw [hphase]
        rfl
      rw [hphase] at hstep
      cases answer with
      | field header =>
          cases header with
          | some header =>
              obtain ⟨rfl, rfl⟩ := Prod.mk.inj (Option.some.inj hstep)
              exact h.begin hphase header
          | none =>
              obtain ⟨rfl, rfl⟩ := Prod.mk.inj (Option.some.inj hstep)
              exact h.same [] htmp.symm rfl (fun hr => nomatch hr) trivial
      | failed reason =>
          obtain ⟨rfl, rfl⟩ := Prod.mk.inj (Option.some.inj hstep)
          exact h.same t.payload htmp.symm rfl (fun hr => nomatch hr) trivial
      | _ => cases hstep
  | drain =>
      have htmp : t.submit.phase.tmp = none := by
        rw [hphase]
        rfl
      have hreading : t.submit.phase.reading := by
        rw [hphase]
        rfl
      rw [hphase] at hstep
      cases answer with
      | chunk bytes =>
          cases bytes with
          | some bytes =>
              obtain ⟨rfl, rfl⟩ := Prod.mk.inj (Option.some.inj hstep)
              -- The chunk is empty, and so is what is not counted.
              have hempty : bytes = [] := by
                simpa only [Submit.Meets, hphase] using hmeets
              obtain ⟨hcount, hwithin⟩ := h.counted hreading
              have hlarge := bodyCeiling_lt registry
              refine h.chunk hreading bytes rfl ?_ ?_ (by rw [hphase]; trivial)
              · rw [hempty, saturatingAdd, List.length_nil]
                omega
              · intro _
                omega
          | none =>
              obtain ⟨rfl, rfl⟩ := Prod.mk.inj (Option.some.inj hstep)
              exact h.same t.payload htmp.symm rfl (fun _ => hreading) trivial
      | failed reason =>
          obtain ⟨rfl, rfl⟩ := Prod.mk.inj (Option.some.inj hstep)
          exact h.same t.payload htmp.symm rfl (fun _ => hreading) trivial
      | _ => cases hstep
  | text name text =>
      have htmp : t.submit.phase.tmp = none := by
        rw [hphase]
        rfl
      have hreading : t.submit.phase.reading := by
        rw [hphase]
        rfl
      rw [hphase] at hstep
      cases answer with
      | chunk bytes =>
          cases bytes with
          | some bytes =>
              obtain ⟨rfl, rfl⟩ := Prod.mk.inj (Option.some.inj hstep)
              exact h.readText hphase bytes
          | none =>
              obtain ⟨rfl, rfl⟩ := Prod.mk.inj (Option.some.inj hstep)
              exact h.same t.payload htmp.symm rfl (fun _ => hreading) trivial
      | failed reason =>
          obtain ⟨rfl, rfl⟩ := Prod.mk.inj (Option.some.inj hstep)
          exact h.same t.payload htmp.symm rfl (fun hr => nomatch hr) trivial
      | _ => cases hstep
  | file part stage =>
      rw [hphase] at hstep
      exact h.file hphase hstep hmeets hfresh
  | returned result =>
      rw [hphase] at hstep
      cases hstep

def Submit.placing (s : Submit) (answer : Answer) : Option (FilePart × Path) :=
  match s.phase, answer with
  | .file part (.rename _ _ _ final), .done _ => some (part, final)
  | _, _ => none

/-- What a step may do to the file at a path: nothing, or anything to its own temporary file, or
put that file in the store. -/
inductive Touched (t : Tracked) (answer : Answer) (files files' : Files) (path : Path) : Prop
  | not (h : files' path = files path)
  | own (name : String) (hown : t.submit.phase.tmp = some name ∨ answer = .created name)
      (hpath : path = tmpPath name)
  | placed (part : FilePart) (hplacing : t.submit.placing answer = some (part, path))

theorem Kept.placing (h : Kept registry digest files t) {answer : Answer} {path : Path}
    (hplacing : t.submit.placing answer = some (part, path))
    (hstep : t.submit.step registry digest files answer = some (s, files')) :
    files' path = some t.payload ∧ pathFor (digest.hash t.payload) = some path ∧
      registry.bucket part.name = some part.bucket ∧ part.bucket.accepts part.contentType ∧
      t.payload.length ≤ part.bucket.maxBytes := by
  have hcontent := h.content
  unfold Submit.placing at hplacing
  split at hplacing
  case h_2 => cases hplacing
  case h_1 part tmp size id final settled hphase =>
    cases hplacing
    rw [hphase] at hcontent
    obtain ⟨hbucket, haccepts, hdisk, hid, hlimit, hfinal⟩ := hcontent
    simp only [Submit.step, hphase] at hstep
    cases hstep
    subst hid
    refine ⟨?_, hfinal, hbucket, haccepts, hlimit⟩
    rw [Function.update_of_ne (pathFor_ne_tmpPath hfinal tmp), Function.update_self, hdisk]

theorem touched_update {answer : Answer} {name : String} (content : Option Bytes) (path : Path)
    (hown : t.submit.phase.tmp = some name ∨ answer = .created name) :
    Touched t answer files (Function.update files (tmpPath name) content) path := by
  by_cases hpath : path = tmpPath name
  · exact .own name hown hpath
  · exact .not (Function.update_of_ne hpath _ _)

theorem touched_file {stage : Stage} {answer : Answer}
    (hphase : t.submit.phase = .file part stage)
    (hstep : t.submit.stepFile registry digest part files stage answer = some (s, files'))
    (path : Path) : Touched t answer files files' path := by
  have htmp : ∀ name, stage.tmp = some name →
      t.submit.phase.tmp = some name ∨ answer = .created name := by
    intro name hname
    rw [hphase]
    exact .inl hname
  cases stage with
  | makeTmpDir =>
      cases answer <;> cases hstep
      all_goals exact .not rfl
  | create =>
      cases answer <;> cases hstep
      · exact touched_update _ path (.inr rfl)
      · exact .not rfl
  | copy tmp hashed pending =>
      cases answer with
      | chunk bytes =>
          cases bytes <;> cases hstep
          all_goals exact .not rfl
      | failed reason =>
          cases hstep
          exact .not rfl
      | _ => cases hstep
  | write tmp hashed pending chunk =>
      cases answer <;> cases hstep
      · exact touched_update _ path (htmp tmp rfl)
      · exact .not rfl
  | flush tmp hashed pending =>
      cases answer with
      | done settled =>
          simp only [Submit.stepFile] at hstep
          split at hstep <;> cases hstep
          all_goals exact touched_update _ path (htmp tmp rfl)
      | failed reason =>
          cases hstep
          exact .not rfl
      | _ => cases hstep
  | makeFanOut tmp size id final =>
      cases answer <;> cases hstep
      all_goals exact .not rfl
  | look tmp size id final =>
      cases answer with
      | done settled =>
          simp only [Submit.stepFile] at hstep
          split_ifs at hstep <;> cases hstep
          all_goals exact .not rfl
      | failed reason =>
          cases hstep
          exact .not rfl
      | _ => cases hstep
  | rename tmp size id final =>
      cases answer with
      | done settled =>
          cases hstep
          by_cases hpath : path = tmpPath tmp
          · exact .own tmp (htmp tmp rfl) hpath
          by_cases hfinal : path = final
          · subst hfinal
            refine .placed part ?_
            simp only [Submit.placing, hphase]
          · refine .not ?_
            rw [Function.update_of_ne hpath, Function.update_of_ne hfinal]
      | failed reason =>
          cases hstep
          exact .not rfl
      | _ => cases hstep
  | lookAgain tmp size id final reason =>
      cases answer with
      | done settled =>
          simp only [Submit.stepFile] at hstep
          split_ifs at hstep <;> cases hstep
          all_goals exact .not rfl
      | failed again =>
          cases hstep
          exact .not rfl
      | _ => cases hstep
  | discard tmp outcome =>
      cases answer <;> cases hstep
      · exact touched_update _ path (htmp tmp rfl)
      · exact .not rfl

theorem touched {answer : Answer}
    (hstep : t.submit.step registry digest files answer = some (s, files')) (path : Path) :
    Touched t answer files files' path := by
  unfold Submit.step at hstep
  split at hstep
  case h_10 part stage answer hphase => exact touched_file hphase hstep path
  all_goals cases hstep
  all_goals exact .not rfl

/-! ### Submits on one directory -/

/-- A process that decodes submits. `drawn` are the names of temporary files so far, and `placed`
says which part of a submit last put the file at a path, with what that part brought. -/
structure System where
  files : Files
  submits : ℕ → Option Tracked
  drawn : List String
  placed : Path → Option (FilePart × Bytes)

theorem Submit.stepFile_flush (registry : UploadRegistry) {s : Submit} {part : FilePart}
    {files : Files} {tmp : String} {hashed pending : Bytes} (n : ℕ) {final : Path}
    (h : pathFor (digest.hash hashed) = some final) :
    s.stepFile registry digest part files (.flush tmp hashed pending) (.done n) =
      some (s.atStage part (.makeFanOut tmp hashed.length (digest.hash hashed) final),
        settle files tmp pending pending.length) := by
  rw [stepFile, h]

theorem Submit.stepFile_look (registry : UploadRegistry) (digest : Digest) {s : Submit}
    {part : FilePart} {files : Files} {tmp id : String} {size : ℕ} (n : ℕ) {final : Path}
    (h : (files final).isSome = true) :
    s.stepFile registry digest part files (.look tmp size id final) (.done n) =
      some (s.atStage part (.discard tmp (.ok (s.upload part size id))), files) := by
  rw [stepFile, if_pos h]

inductive Event
  | start (submit : ℕ) (principal : Option String)
  | answer (submit : ℕ) (answer : Answer)

/-- The names are drawn at random from 128 bits: none is drawn twice. -/
def Answer.drawable (drawn : List String) : Answer → Bool
  | .created name => name ∉ drawn
  | _ => true

def Answer.draw (drawn : List String) : Answer → List String
  | .created name => name :: drawn
  | _ => drawn

namespace System

def next (registry : UploadRegistry) (digest : Digest) (s : System) : Event → Option System
  | .start i principal =>
      if (s.submits i).isSome then none
      else some { s with
        submits := Function.update s.submits i
          (some ⟨Submit.start registry principal, 0, 0, [], []⟩) }
  | .answer i answer =>
      match s.submits i with
      | none => none
      | some t =>
          if answer.drawable s.drawn then
            (t.submit.step registry digest s.files answer).map fun (submit, files) =>
              { files
                submits := Function.update s.submits i (some (t.answer submit answer))
                drawn := answer.draw s.drawn
                placed := match t.submit.placing answer with
                  | some (part, path) => Function.update s.placed path (some (part, t.payload))
                  | none => s.placed }
          else none

/-- What is at the path of an id is all that a file part brought, has that hash, and is within the
limit of the bucket that accepted it. -/
def Stored (registry : UploadRegistry) (digest : Digest) (s : System) : Prop :=
  ∀ id path bytes, pathFor id = some path → s.files path = some bytes →
    digest.hash bytes = id ∧ ∃ part, s.placed path = some (part, bytes) ∧
      registry.bucket part.name = some part.bucket ∧ part.bucket.accepts part.contentType ∧
      bytes.length ≤ part.bucket.maxBytes

structure Safe (registry : UploadRegistry) (digest : Digest) (s : System) : Prop where
  bounded : ∀ i t, s.submits i = some t → t.read ≤ bodyCeiling registry + t.last
  stored : s.Stored registry digest
  clean : ∀ i t error, s.submits i = some t → t.submit.phase = .returned (.error error) →
    ∀ name ∈ t.made, s.files (tmpPath name) = none

def Meets (s : System) : Event → Prop
  | .start _ _ => True
  | .answer i answer => ∀ t, s.submits i = some t → t.submit.Meets answer

/-- The runs of a process from a directory as an earlier one left it, whose steps all have a
property. -/
inductive Run (registry : UploadRegistry) (digest : Digest) (P : System → Event → Prop) :
    System → Prop
  | idle (s : System) (hidle : ∀ i, s.submits i = none) (hstored : s.Stored registry digest) :
      Run registry digest P s
  | next {s s' : System} (hrun : Run registry digest P s) (event : Event) (hevent : P s event)
      (hnext : s.next registry digest event = some s') : Run registry digest P s'

structure Inv (registry : UploadRegistry) (digest : Digest) (s : System) : Prop where
  kept : ∀ i t, s.submits i = some t → Kept registry digest s.files t
  apart : ∀ i j t u, s.submits i = some t → s.submits j = some u → i ≠ j →
    ∀ name ∈ t.made, name ∉ u.made
  drawn : ∀ i t, s.submits i = some t → ∀ name ∈ t.made, name ∈ s.drawn
  stored : s.Stored registry digest

variable {σ σ' : System}

theorem Inv.safe (h : σ.Inv registry digest) : σ.Safe registry digest := by
  refine ⟨fun i t ht => (h.kept i t ht).bounded, h.stored, ?_⟩
  intro i t error ht hreturned name hname
  by_contra hfile
  have htmp := (h.kept i t ht).made name hname (Option.isSome_iff_ne_none.mpr hfile)
  rw [hreturned] at htmp
  cases htmp

theorem mem_made_answer {t : Tracked} {submit : Submit} {answer : Answer} {name : String}
    (h : name ∈ (t.answer submit answer).made) : name ∈ t.made ∨ answer = .created name := by
  cases answer with
  | created new =>
      rcases List.mem_cons.mp h with rfl | hmade
      · exact .inr rfl
      · exact .inl hmade
  | chunk bytes => cases bytes <;> exact .inl h
  | field header => exact .inl h
  | done settled => exact .inl h
  | failed reason => exact .inl h

theorem Inv.start (h : σ.Inv registry digest) {i : ℕ} (hi : σ.submits i = none)
    (principal : Option String) :
    ({ σ with
      submits := Function.update σ.submits i
        (some ⟨Submit.start registry principal, 0, 0, [], []⟩) } : System).Inv registry digest := by
  have hnew : Kept registry digest σ.files ⟨Submit.start registry principal, 0, 0, [], []⟩ := by
    unfold Submit.start
    split_ifs with hregistry
    · refine ⟨?_, ?_, trivial, Nat.zero_le _, fun hr => nomatch hr⟩
      · intro name hname
        cases hname
      · intro name hname
        cases hname
    · refine ⟨?_, ?_, trivial, Nat.zero_le _, fun _ => ⟨rfl, Nat.zero_le _⟩⟩
      · intro name hname
        cases hname
      · intro name hname
        cases hname
  have hcases : ∀ j t, Function.update σ.submits i
      (some ⟨Submit.start registry principal, 0, 0, [], []⟩) j = some t →
      t = ⟨Submit.start registry principal, 0, 0, [], []⟩ ∨ σ.submits j = some t := by
    intro j t ht
    by_cases hj : j = i
    · subst hj
      rw [Function.update_self] at ht
      exact .inl (Option.some.inj ht).symm
    · rw [Function.update_of_ne hj] at ht
      exact .inr ht
  refine ⟨?_, ?_, ?_, h.stored⟩
  · intro j t ht
    rcases hcases j t ht with rfl | hold
    · exact hnew
    · exact h.kept j t hold
  · intro j k t u ht hu hjk name hname hname'
    rcases hcases j t ht with rfl | hold
    · cases hname
    · rcases hcases k u hu with rfl | hold'
      · cases hname'
      · exact h.apart j k t u hold hold' hjk name hname hname'
  · intro j t ht name hname
    rcases hcases j t ht with rfl | hold
    · cases hname
    · exact h.drawn j t hold name hname

theorem not_mem_of_drawable {answer : Answer} {drawn : List String} {name : String}
    (h : answer.drawable drawn) (hcreated : answer = .created name) : name ∉ drawn := by
  subst hcreated
  exact of_decide_eq_true h

theorem mem_draw {answer : Answer} {drawn : List String} {name : String}
    (h : name ∈ drawn ∨ answer = .created name) : name ∈ answer.draw drawn := by
  rcases h with hdrawn | rfl
  · cases answer with
    | created new => exact List.mem_cons_of_mem new hdrawn
    | _ => exact hdrawn
  · exact List.mem_cons_self

section Answer

variable {i : ℕ} {t : Tracked} {answer : Answer} {submit : Submit} {files' : Files}

theorem Inv.others (h : σ.Inv registry digest) (ht : σ.submits i = some t)
    (hdrawable : answer.drawable σ.drawn)
    (hstep : t.submit.step registry digest σ.files answer = some (submit, files'))
    {j : ℕ} (hj : j ≠ i) {u : Tracked} (hu : σ.submits j = some u) :
    ∀ name ∈ u.made, files' (tmpPath name) = σ.files (tmpPath name) := by
  intro name hname
  cases touched hstep (tmpPath name) with
  | not hsame => exact hsame
  | own other hown hpath =>
      rw [tmpPath_inj] at hpath
      subst hpath
      rcases hown with hholds | hcreated
      · have hmade := (h.kept i t ht).holds name hholds
        exact absurd hname (h.apart i j t u ht hu hj.symm name hmade)
      · exact absurd (h.drawn j u hu name hname) (not_mem_of_drawable hdrawable hcreated)
  | placed part hplacing =>
      obtain ⟨-, hfinal, -⟩ := (h.kept i t ht).placing hplacing hstep
      exact absurd rfl (pathFor_ne_tmpPath hfinal name)

theorem Inv.stored_answer (h : σ.Inv registry digest) (ht : σ.submits i = some t)
    (hstep : t.submit.step registry digest σ.files answer = some (submit, files'))
    {σ' : System} (hfiles : σ'.files = files')
    (hplaced : σ'.placed = match t.submit.placing answer with
      | some (part, path) => Function.update σ.placed path (some (part, t.payload))
      | none => σ.placed) : σ'.Stored registry digest := by
  intro id path bytes hpath hbytes
  rw [hfiles] at hbytes
  have hkept := h.kept i t ht
  -- A file that is not put in the store now was there before.
  have hbefore : (∀ part, t.submit.placing answer ≠ some (part, path)) →
      σ.files path = some bytes ∧ σ'.placed path = σ.placed path := by
    intro hnot
    constructor
    · cases touched hstep path with
      | not hsame => rwa [← hsame]
      | own name hown hown' => exact absurd hown' (pathFor_ne_tmpPath hpath name)
      | placed part hplacing => exact absurd hplacing (hnot part)
    · rw [hplaced]
      cases hplacing : t.submit.placing answer with
      | none => rfl
      | some placing =>
          obtain ⟨part, other⟩ := placing
          apply Function.update_of_ne
          rintro rfl
          exact hnot part hplacing
  by_cases hnow : ∃ part, t.submit.placing answer = some (part, path)
  · obtain ⟨part, hplacing⟩ := hnow
    obtain ⟨hfile, hfinal, hbucket, haccepts, hlimit⟩ := hkept.placing hplacing hstep
    have hpayload : bytes = t.payload := by
      rw [hfile] at hbytes
      exact (Option.some.inj hbytes).symm
    subst hpayload
    refine ⟨pathFor_inj hfinal hpath, part, ?_, hbucket, haccepts, hlimit⟩
    rw [hplaced, hplacing]
    exact Function.update_self ..
  · obtain ⟨hold, hsame⟩ := hbefore (not_exists.mp hnow)
    rw [hsame]
    exact h.stored id path bytes hpath hold

end Answer

theorem Inv.next (h : σ.Inv registry digest) {event : Event} (hmeets : σ.Meets event)
    (hnext : σ.next registry digest event = some σ') : σ'.Inv registry digest := by
  cases event with
  | start i principal =>
      simp only [System.next] at hnext
      split_ifs at hnext with hi
      cases hnext
      exact h.start (Option.not_isSome_iff_eq_none.mp hi) principal
  | answer i answer =>
      simp only [System.next] at hnext
      cases ht : σ.submits i with
      | none =>
          rw [ht] at hnext
          cases hnext
      | some t =>
          rw [ht] at hnext
          dsimp only at hnext
          split_ifs at hnext with hdrawable
          obtain ⟨⟨submit, files'⟩, hstep, rfl⟩ := Option.map_eq_some_iff.mp hnext
          have hfresh : ∀ name, answer = .created name → name ∉ t.made := by
            intro name hcreated hmade
            exact not_mem_of_drawable hdrawable hcreated (h.drawn i t ht name hmade)
          have hcases : ∀ j u,
              Function.update σ.submits i (some (t.answer submit answer)) j = some u →
              (j = i ∧ u = t.answer submit answer) ∨ (j ≠ i ∧ σ.submits j = some u) := by
            intro j u hu
            by_cases hj : j = i
            · subst hj
              rw [Function.update_self] at hu
              exact .inl ⟨rfl, (Option.some.inj hu).symm⟩
            · rw [Function.update_of_ne hj] at hu
              exact .inr ⟨hj, hu⟩
          -- A name that is now the submit's is no other's.
          have happart : ∀ j u, j ≠ i → σ.submits j = some u →
              ∀ name ∈ (t.answer submit answer).made, name ∉ u.made := by
            intro j u hj hu name hname hname'
            rcases mem_made_answer hname with hmade | hcreated
            · exact h.apart i j t u ht hu hj.symm name hmade hname'
            · exact not_mem_of_drawable hdrawable hcreated (h.drawn j u hu name hname')
          refine ⟨?_, ?_, ?_, h.stored_answer ht hstep rfl rfl⟩
          · intro j u hu
            rcases hcases j u hu with ⟨rfl, rfl⟩ | ⟨hj, hold⟩
            · exact (h.kept j t ht).step hstep (hmeets t ht) hfresh
            · exact (h.kept j u hold).frame (h.others ht hdrawable hstep hj hold)
          · intro j k u v hu hv hjk name hname hname'
            rcases hcases j u hu with ⟨rfl, rfl⟩ | ⟨hj, hold⟩
            · rcases hcases k v hv with ⟨rfl, rfl⟩ | ⟨hk, hold'⟩
              · exact hjk rfl
              · exact happart k v hk hold' name hname hname'
            · rcases hcases k v hv with ⟨rfl, rfl⟩ | ⟨hk, hold'⟩
              · exact happart j u hj hold name hname' hname
              · exact h.apart j k u v hold hold' hjk name hname hname'
          · intro j u hu name hname
            rcases hcases j u hu with ⟨rfl, rfl⟩ | ⟨hj, hold⟩
            · apply mem_draw
              exact (mem_made_answer hname).imp_left (h.drawn j t ht name)
            · exact mem_draw (.inl (h.drawn j u hold name hname))

theorem Run.inv (h : Run registry digest Meets σ) : σ.Inv registry digest := by
  induction h with
  | idle s hidle hstored =>
      refine ⟨?_, ?_, ?_, hstored⟩
      · intro i t ht
        rw [hidle i] at ht
        cases ht
      · intro i j t u ht
        rw [hidle i] at ht
        cases ht
      · intro i t ht
        rw [hidle i] at ht
        cases ht
  | next hrun event hevent hnext ih => exact ih.next hevent hnext

/-- Where nameless parts bring nothing, and the directory of a file can be made and a temporary file
removed, what is read is bounded, what is stored is what its name says, and a submit that is refused
leaves nothing behind. -/
theorem safe_of_meets (h : Run registry digest Meets σ) : σ.Safe registry digest :=
  h.inv.safe

/-- A step of a submit is a step of the process. -/
theorem next_answer {i : ℕ} {t : Tracked} {answer : Answer} {submit : Submit} {files : Files}
    (ht : σ.submits i = some t) (hdraw : answer.drawable σ.drawn = true)
    (hstep : t.submit.step registry digest σ.files answer = some (submit, files)) :
    σ.next registry digest (.answer i answer) = some
      { files
        submits := Function.update σ.submits i (some (t.answer submit answer))
        drawn := answer.draw σ.drawn
        placed := match t.submit.placing answer with
          | some (part, path) => Function.update σ.placed path (some (part, t.payload))
          | none => σ.placed } := by
  rw [next, ht]
  dsimp only
  rw [if_pos hdraw, hstep]
  rfl

def hiHash : String := "8f434346648f6b96df89dda901c5176b10a6d83961dd3c1ac88b59b2dc327aa4"

theorem isUploadId_ofList (text : List Char) : isUploadId (String.ofList text) =
    decide (text.length = 64 ∧ text.all isLowerHex) := by
  rw [isUploadId, String.toList_ofList]

/-- SHA-256 on the two bytes of `hi`. -/
def hiDigest : Digest where
  hash bytes := if bytes = [104, 105] then hiHash else String.ofList (List.replicate 64 '0')
  isUploadId_hash bytes := by
    split_ifs
    · exact (isUploadId_ofList _).trans (by decide)
    · exact (isUploadId_ofList _).trans (by decide)

def avatars : ResolvedBucket := ⟨"avatar", [], 1, by decide⟩

def notes : ResolvedBucket := ⟨"note", ["text/plain".toList], 2, by decide⟩

def empty : System := ⟨fun _ => none, fun _ => none, [], fun _ => none⟩

theorem Run.empty {P : System → Event → Prop} : Run registry digest P empty :=
  .idle _ (fun _ => rfl) (fun _ _ _ _ h => nomatch h)

theorem pathFor_hiHash : ∃ path, pathFor (hiDigest.hash [104, 105]) = some path :=
  ⟨_, if_pos (hiDigest.isUploadId_hash _)⟩

/-- A note is put in the store. -/
theorem safe_of_meets_note :
    ∃ σ : System, (∃ path, pathFor hiHash = some path ∧ σ.files path = some [104, 105]) ∧
      σ.Safe [notes] hiDigest := by
  have hmeets : ∀ {σ : System} {i : ℕ} {t : Tracked} (answer : Answer), σ.submits i = some t →
      t.submit.Meets answer → σ.Meets (.answer i answer) := by
    intro σ i t answer ht hanswer u hu
    rw [ht] at hu
    cases hu
    exact hanswer
  obtain ⟨path, hpath⟩ := pathFor_hiHash
  have hempty : Run [notes] hiDigest Meets empty := Run.empty
  have hstart := hempty.next (.start 0 none) trivial rfl
  have hfield := hstart.next
    (.answer 0 (.field (some ⟨"note", "hi.txt".toList, "text/plain".toList⟩)))
    (hmeets _ rfl trivial) rfl
  have hcreated := (hfield.next (.answer 0 (.done 0)) (hmeets _ rfl trivial) rfl).next
    (.answer 0 (.created "a")) (hmeets _ rfl trivial) rfl
  have hwritten := (hcreated.next (.answer 0 (.chunk (some [104, 105]))) (hmeets _ rfl trivial) rfl).next
    (.answer 0 (.done 1)) (hmeets _ rfl trivial) rfl
  have hflushed := (hwritten.next (.answer 0 (.chunk none)) (hmeets _ rfl trivial) rfl).next
    (.answer 0 (.done 0)) (hmeets _ rfl trivial)
    (next_answer rfl rfl (Submit.stepFile_flush [notes] 0 hpath))
  have hlooked := (hflushed.next (.answer 0 (.done 0)) (hmeets _ rfl trivial) rfl).next
    (.answer 0 (.failed "not found")) (hmeets _ rfl trivial) rfl
  have hrenamed := hlooked.next (.answer 0 (.done 0)) (hmeets _ rfl trivial) rfl
  refine ⟨_, ⟨path, hpath, ?_⟩, safe_of_meets hrenamed⟩
  exact (Function.update_of_ne (pathFor_ne_tmpPath hpath "a") _ _).trans (Function.update_self _ _ _)

/-- The bytes of a part without a name are not counted, and where the directory of a file cannot be
made its temporary file stays. -/
theorem unmet_not_safe :
    (∃ σ : System, Run [avatars] hiDigest (fun _ _ => True) σ ∧
      ¬ ∀ i t, σ.submits i = some t → t.read ≤ bodyCeiling [avatars] + t.last) ∧
    ∃ σ : System, Run [avatars] hiDigest (fun _ _ => True) σ ∧ ¬ σ.Safe [avatars] hiDigest ∧
      ∃ t, σ.submits 0 = some t ∧ t.submit.phase = .returned (.error (.io "full")) ∧
        σ.files (tmpPath "a") = some [104] := by
  have hempty : Run [avatars] hiDigest (fun _ _ => True) empty := Run.empty
  have hstart := hempty.next (.start 0 none) trivial rfl
  constructor
  · have hdrain := hstart.next (.answer 0 (.field (some ⟨none, none, none⟩))) trivial rfl
    have hread : ∀ chunk : List UInt8, ∃ σ t, Run [avatars] hiDigest (fun _ _ => True) σ ∧
        σ.submits 0 = some t ∧ t.read = chunk.length + 1 ∧ t.last = 1 := by
      intro chunk
      have hlarge := hdrain.next (.answer 0 (.chunk (some chunk))) trivial rfl
      have hagain := hlarge.next (.answer 0 (.chunk (some [0]))) trivial rfl
      refine ⟨_, _, hagain, rfl, ?_, rfl⟩
      simp only [Tracked.answer, Nat.zero_add, List.length_singleton]
    obtain ⟨σ, t, hrun, ht, hcount, hlast⟩ := hread (List.replicate 65545 0)
    refine ⟨σ, hrun, fun hbounded => ?_⟩
    have hbound := hbounded 0 t ht
    rw [hcount, hlast, List.length_replicate] at hbound
    revert hbound
    decide
  · have hfield := hstart.next
      (.answer 0 (.field (some ⟨"avatar", "h".toList, "image/png".toList⟩))) trivial rfl
    have hcreated := (hfield.next (.answer 0 (.done 0)) trivial rfl).next
      (.answer 0 (.created "a")) trivial rfl
    have hwritten := (hcreated.next (.answer 0 (.chunk (some [104]))) trivial rfl).next
      (.answer 0 (.done 1)) trivial rfl
    have hflushed := (hwritten.next (.answer 0 (.chunk none)) trivial rfl).next
      (.answer 0 (.done 0)) trivial rfl
    have hfull := hflushed.next (.answer 0 (.failed "full")) trivial rfl
    refine ⟨_, hfull, fun hsafe => ?_, _, rfl, rfl, rfl⟩
    cases hsafe.clean 0 _ (.io "full") rfl rfl "a" List.mem_cons_self

end System

end Albedo.Upload
