import Albedo.Library.Ascii
import Albedo.Upload.Safety

/-!
# Serving what was uploaded

A file is stored once for all who upload it, and a record stands for each bucket that took it. It is
read back by its id, from whichever of its records the query comes to first: with that record's type
and name, and inline only where the type is one of a few.
-/
namespace Albedo.Upload
open Trim

/-! ### Records -/

/-- `INSERT OR IGNORE`, under the unique index over the id and the bucket. -/
def record (rows : List StoredUpload) (upload : StoredUpload) : List StoredUpload :=
  if rows.any fun row => row.id = upload.id ∧ row.bucket.name = upload.bucket.name then rows
  else rows ++ [upload]

/-- What a query with `LIMIT 1` and no order returns: one of the rows, where there is any. -/
structure FirstRow where
  first : List StoredUpload → Option StoredUpload
  mem_of_first : ∀ rows row, first rows = some row → row ∈ rows
  first_isSome : ∀ rows, rows ≠ [] → (first rows).isSome

def lookup (query : FirstRow) (rows : List StoredUpload) (id : String) : Option StoredUpload :=
  if isUploadId id then query.first (rows.filter (·.id = id)) else none

theorem mem_of_lookup {query : FirstRow} {rows : List StoredUpload} {id : String}
    {row : StoredUpload} (h : lookup query rows id = some row) : row ∈ rows ∧ row.id = id := by
  rw [lookup] at h
  split_ifs at h
  simpa using query.mem_of_first _ row h

/-! ### Responses -/

def inlineTypes : List String :=
  ["image/png", "image/jpeg", "image/gif", "image/webp", "image/avif", "application/pdf",
    "video/mp4", "video/webm", "audio/mpeg", "audio/ogg", "text/plain"]

def rendersInlineSafely (contentType : List Char) : Bool :=
  let base := (trim (contentType.takeWhile (· ≠ ';'))).map Char.toLower
  inlineTypes.any fun listed => listed.toList = base

def contentDisposition (row : StoredUpload) : List Char :=
  if rendersInlineSafely row.contentType then "inline".toList
  else "attachment; filename=\"".toList ++ row.originalName ++ ['"']

/-- `trim_start_matches("W/")`. -/
def strong : List Char → List Char
  | 'W' :: '/' :: rest => strong rest
  | tag => tag

def etagMatches (ifNoneMatch etag : List Char) : Bool :=
  (ifNoneMatch.splitOn ',').any fun candidate =>
    trim candidate = ['*'] || strong (trim candidate) = etag

structure Response where
  contentType : List Char
  cacheControl : String
  etag : List Char
  contentDisposition : List Char
  xContentTypeOptions : String
  body : Bytes

inductive Served
  | notFound
  | notModified (etag : List Char)
  | ok (response : Response)

def serve (files : Files) (query : FirstRow) (rows : List StoredUpload) (id : String)
    (ifNoneMatch : Option (List Char)) : Served :=
  match lookup query rows id with
  | none => .notFound
  | some row =>
      let etag := '"' :: id.toList ++ ['"']
      if ifNoneMatch.any (etagMatches · etag) then .notModified etag
      else
        match (pathFor id).bind files with
        | none => .notFound
        | some bytes =>
            .ok ⟨row.contentType, "private, no-cache", etag, contentDisposition row, "nosniff",
              bytes⟩

theorem serve_eq_ok {files : Files} {query : FirstRow} {rows : List StoredUpload} {id : String}
    {ifNoneMatch : Option (List Char)} {response : Response}
    (h : serve files query rows id ifNoneMatch = .ok response) :
    ∃ row, lookup query rows id = some row ∧ response.contentType = row.contentType ∧
      response.contentDisposition = contentDisposition row ∧
      response.etag = '"' :: id.toList ++ ['"'] ∧ response.xContentTypeOptions = "nosniff" := by
  rw [serve] at h
  cases hrow : lookup query rows id with
  | none => simp [hrow] at h
  | some row =>
    simp only [hrow] at h
    split_ifs at h
    split at h
    · cases h
    · cases h
      exact ⟨row, rfl, rfl, rfl, rfl, rfl⟩

/-! ### Header values -/

def Visible (c : Char) : Prop := 0x20 ≤ c.toNat ∧ c.toNat ≠ 0x7F

instance : DecidablePred Visible := fun _ => inferInstanceAs (Decidable (_ ∧ _))

def Quotable (text : List Char) : Prop := ∀ c ∈ text, Visible c ∧ c ≠ '"' ∧ c ≠ '\\'

instance (text : List Char) : Decidable (Quotable text) :=
  List.decidableBAll _ text

theorem visible_of_not_isControl {c : Char} (h : ¬ isControl c = true) : Visible c := by
  simp only [isControl, Bool.or_eq_true, decide_eq_true_eq, Bool.and_eq_true, not_or,
    not_and] at h
  constructor
  · omega
  · intro hdel
    have := h.2 (by omega)
    omega

theorem quotable_sanitiseName (raw : List Char) : Quotable (sanitiseName raw) := by
  rw [sanitiseName]
  split_ifs
  · decide
  · intro c hc
    obtain ⟨hin, hfilter⟩ := List.mem_filter.mp (List.mem_of_mem_take hc)
    simp only [decide_eq_true_eq] at hfilter
    refine ⟨visible_of_not_isControl hfilter.1, hfilter.2, ?_⟩
    have hlast := List.mem_takeWhile_imp (List.mem_reverse.mp ((trim_within _).subset hin))
    simp only [decide_eq_true_eq] at hlast
    exact hlast.2

def Disposes (value : List Char) : Prop :=
  value = "inline".toList ∨
    ∃ name, Quotable name ∧ value = "attachment; filename=\"".toList ++ name ++ ['"']

/-! ### What is recorded -/

/-- A type and a name that a bucket took, with a type as a parser of media types leaves it. -/
structure Taken (registry : UploadRegistry) (bucket : ResolvedBucket)
    (contentType originalName : List Char) : Prop where
  declared : bucket ∈ registry
  accepts : bucket.accepts contentType = true
  visible : ∀ c ∈ contentType, Visible c
  quotable : Quotable originalName

def StoredUpload.Taken (registry : UploadRegistry) (upload : StoredUpload) : Prop :=
  Upload.Taken registry upload.bucket upload.contentType upload.originalName

def Phase.Taken (registry : UploadRegistry) : Phase → Prop
  | .file part stage => Upload.Taken registry part.bucket part.contentType part.originalName ∧
      match stage with
      | .discard _ (.ok upload) => upload.Taken registry
      | _ => True
  | .returned (.ok form) => ∀ upload ∈ form.uploads, upload.Taken registry
  | _ => True

structure Submit.Takes (registry : UploadRegistry) (s : Submit) : Prop where
  uploads : ∀ upload ∈ s.form.uploads, upload.Taken registry
  phase : s.phase.Taken registry

def Answer.Parsed : Answer → Prop
  | .field (some header) => ∀ text ∈ header.contentType, ∀ c ∈ text, Visible c
  | _ => True

namespace Submit
variable {registry : UploadRegistry} {digest : Digest} {s : Submit}

theorem takes_start (principal : Option String) : (start registry principal).Takes registry := by
  constructor
  · intro upload hupload
    cases hupload
  · rw [start]
    split_ifs
    · trivial
    · trivial

theorem Takes.fail (h : s.Takes registry) (error : UploadError) : (s.fail error).Takes registry :=
  ⟨h.uploads, trivial⟩

theorem Takes.stored (h : s.Takes registry) (part : FilePart) {upload : StoredUpload}
    (hupload : upload.Taken registry) : (s.stored part upload).Takes registry := by
  refine ⟨?_, trivial⟩
  intro other hother
  rcases List.mem_append.mp hother with hold | hnew
  · exact h.uploads other hold
  · rw [List.mem_singleton.mp hnew]
    exact hupload

theorem visible_octetStream : ∀ c ∈ "application/octet-stream".toList, Visible c :=
  Ascii.forall_mem_of_all (by decide)

theorem Takes.begin (h : s.Takes registry) {header : PartHeader}
    (hparsed : ∀ text ∈ header.contentType, ∀ c ∈ text, Visible c) :
    (s.begin registry header).Takes registry := by
  rw [Submit.begin]
  split
  · exact ⟨h.uploads, trivial⟩
  · split
    · exact ⟨h.uploads, trivial⟩
    · next name _ fileName _ =>
      dsimp only
      split_ifs
      · exact ⟨h.uploads, trivial⟩
      · split
        · exact ⟨h.uploads, trivial⟩
        · next bucket hbucket =>
          split_ifs with haccepts
          · refine ⟨h.uploads, ⟨List.mem_of_find?_eq_some hbucket, haccepts, ?_,
              quotable_sanitiseName fileName⟩, trivial⟩
            cases htype : header.contentType with
            | none => exact visible_octetStream
            | some text => exact hparsed text htype
          · exact ⟨h.uploads, trivial⟩

theorem Takes.stepFile {part : FilePart} {stage : Stage} (h : s.Takes registry)
    (hphase : s.phase = .file part stage) {files files' : Files} {answer : Answer} {s' : Submit}
    (hstep : s.stepFile registry digest part files stage answer = some (s', files')) :
    s'.Takes registry := by
  have hfile := h.phase
  rw [hphase] at hfile
  have hpart := hfile.1
  have hupload (size : ℕ) (id : String) : (s.upload part size id).Taken registry := hpart
  cases stage with
  | copy tmp hashed pending =>
    cases answer with
    | chunk bytes =>
      cases bytes with
      | none =>
        cases hstep
        exact ⟨h.uploads, hpart, trivial⟩
      | some chunk =>
        simp only [Submit.stepFile, Submit.readFile, Option.some.injEq, Prod.mk.injEq] at hstep
        obtain ⟨rfl, -⟩ := hstep
        split_ifs
        · exact ⟨h.uploads, hpart, trivial⟩
        · exact ⟨h.uploads, hpart, trivial⟩
        · exact ⟨h.uploads, hpart, trivial⟩
    | failed reason =>
      cases hstep
      exact ⟨h.uploads, hpart, trivial⟩
    | _ => cases hstep
  | flush tmp hashed pending =>
    cases answer with
    | done settled =>
      simp only [Submit.stepFile] at hstep
      split at hstep
      · cases hstep
        exact h.fail _
      · cases hstep
        exact ⟨h.uploads, hpart, trivial⟩
    | failed reason =>
      cases hstep
      exact ⟨h.uploads, hpart, trivial⟩
    | _ => cases hstep
  | look tmp size id final =>
    cases answer with
    | done settled =>
      simp only [Submit.stepFile] at hstep
      split_ifs at hstep
      · cases hstep
        exact ⟨h.uploads, hpart, hupload size id⟩
      · cases hstep
        exact ⟨h.uploads, hpart, trivial⟩
    | failed reason =>
      cases hstep
      exact ⟨h.uploads, hpart, trivial⟩
    | _ => cases hstep
  | lookAgain tmp size id final reason =>
    cases answer with
    | done settled =>
      simp only [Submit.stepFile] at hstep
      split_ifs at hstep
      · cases hstep
        exact ⟨h.uploads, hpart, hupload size id⟩
      · cases hstep
        exact ⟨h.uploads, hpart, trivial⟩
    | failed reason =>
      cases hstep
      exact ⟨h.uploads, hpart, trivial⟩
    | _ => cases hstep
  | rename tmp size id final =>
    cases answer with
    | done settled =>
      cases hstep
      exact h.stored part (hupload size id)
    | failed reason =>
      cases hstep
      exact ⟨h.uploads, hpart, trivial⟩
    | _ => cases hstep
  | discard tmp outcome =>
    have hfinish : (s.finish part outcome).Takes registry := by
      cases outcome with
      | error error => exact h.fail error
      | ok upload => exact h.stored part hfile.2
    cases answer with
    | done settled =>
      cases hstep
      exact hfinish
    | failed reason =>
      cases hstep
      exact hfinish
    | _ => cases hstep
  | makeTmpDir =>
    cases answer with
    | done settled =>
      cases hstep
      exact ⟨h.uploads, hpart, trivial⟩
    | failed reason =>
      cases hstep
      exact h.fail _
    | _ => cases hstep
  | create =>
    cases answer with
    | created name =>
      cases hstep
      exact ⟨h.uploads, hpart, trivial⟩
    | failed reason =>
      cases hstep
      exact h.fail _
    | _ => cases hstep
  | write tmp hashed pending chunk =>
    cases answer with
    | done settled =>
      cases hstep
      exact ⟨h.uploads, hpart, trivial⟩
    | failed reason =>
      cases hstep
      exact ⟨h.uploads, hpart, trivial⟩
    | _ => cases hstep
  | makeFanOut tmp size id final =>
    cases answer with
    | done settled =>
      cases hstep
      exact ⟨h.uploads, hpart, trivial⟩
    | failed reason =>
      cases hstep
      exact h.fail _
    | _ => cases hstep

theorem Takes.step (h : s.Takes registry) {files files' : Files} {answer : Answer}
    (hparsed : answer.Parsed) {s' : Submit}
    (hstep : s.step registry digest files answer = some (s', files')) : s'.Takes registry := by
  unfold Submit.step at hstep
  split at hstep
  · cases hstep
    exact h.begin hparsed
  · cases hstep
    exact ⟨h.uploads, h.uploads⟩
  · cases hstep
    exact h.fail _
  · cases hstep
    exact h
  · cases hstep
    exact ⟨h.uploads, trivial⟩
  · cases hstep
    exact ⟨h.uploads, trivial⟩
  · cases hstep
    rw [Submit.readText]
    dsimp only
    split_ifs
    · exact ⟨h.uploads, trivial⟩
    · exact ⟨h.uploads, trivial⟩
    · exact ⟨h.uploads, trivial⟩
  · cases hstep
    exact ⟨h.uploads, trivial⟩
  · cases hstep
    exact h.fail _
  · next part stage answer' hphase =>
    exact h.stepFile hphase hstep
  · cases hstep

end Submit

/-! ### Histories -/

/-- A record of a stored file. `Q` is asked of the records that are there and the new one. -/
inductive History (registry : UploadRegistry) (digest : Digest)
    (Q : List StoredUpload → StoredUpload → Prop) : System → List StoredUpload → Prop
  | opened (s : System) (hidle : ∀ i, s.submits i = none) : History registry digest Q s []
  /-- Another process goes on with what is stored and recorded. -/
  | reopened {s : System} {rows : List StoredUpload} (hhistory : History registry digest Q s rows)
      (s' : System) (hidle : ∀ i, s'.submits i = none) : History registry digest Q s' rows
  | started {s s' : System} {rows : List StoredUpload} (hhistory : History registry digest Q s rows)
      (i : ℕ) (principal : Option String)
      (hnext : s.next registry digest (.start i principal) = some s') :
      History registry digest Q s' rows
  | answered {s s' : System} {rows : List StoredUpload}
      (hhistory : History registry digest Q s rows) (i : ℕ) (answer : Answer)
      (hparsed : answer.Parsed) (hnext : s.next registry digest (.answer i answer) = some s') :
      History registry digest Q s' rows
  | recorded {s : System} {rows : List StoredUpload} (hhistory : History registry digest Q s rows)
      (i : ℕ) (t : Tracked) (form : MultipartForm) (upload : StoredUpload)
      (ht : s.submits i = some t) (hform : t.submit.phase = .returned (.ok form))
      (hupload : upload ∈ form.uploads) (hrecord : Q rows upload) :
      History registry digest Q s (record rows upload)

def Alone (rows : List StoredUpload) (upload : StoredUpload) : Prop :=
  ∀ row ∈ rows, row.id = upload.id → row.bucket.name = upload.bucket.name

section History
variable {registry : UploadRegistry} {digest : Digest}
  {Q : List StoredUpload → StoredUpload → Prop} {s : System} {rows : List StoredUpload}

theorem History.takes (h : History registry digest Q s rows) (i : ℕ) (t : Tracked)
    (ht : s.submits i = some t) : t.submit.Takes registry := by
  induction h generalizing i t with
  | opened s hidle =>
    rw [hidle i] at ht
    cases ht
  | reopened _ s' hidle _ =>
    rw [hidle i] at ht
    cases ht
  | @started s s' rows _ j principal hnext ih =>
    simp only [System.next] at hnext
    split_ifs at hnext
    cases hnext
    dsimp only at ht
    by_cases hi : i = j
    · subst hi
      rw [Function.update_self] at ht
      cases ht
      exact Submit.takes_start principal
    · rw [Function.update_of_ne hi] at ht
      exact ih i t ht
  | @answered s s' rows _ j answer hparsed hnext ih =>
    simp only [System.next] at hnext
    cases htracked : s.submits j with
    | none =>
      rw [htracked] at hnext
      cases hnext
    | some u =>
      rw [htracked] at hnext
      dsimp only at hnext
      split_ifs at hnext
      obtain ⟨⟨submit, files'⟩, hstep, rfl⟩ := Option.map_eq_some_iff.mp hnext
      dsimp only at ht
      by_cases hi : i = j
      · subst hi
        rw [Function.update_self] at ht
        cases ht
        have hsubmit : (u.answer submit answer).submit = submit := by
          rw [Tracked.answer.eq_def]
          split <;> rfl
        rw [hsubmit]
        exact (ih i u htracked).step hparsed hstep
      · rw [Function.update_of_ne hi] at ht
        exact ih i t ht
  | recorded _ _ _ _ _ _ _ _ _ ih => exact ih i t ht

theorem mem_record {upload row : StoredUpload} (h : row ∈ record rows upload) :
    row ∈ rows ∨ row = upload := by
  rw [record] at h
  split_ifs at h
  · exact .inl h
  · rcases List.mem_append.mp h with hold | hnew
    · exact .inl hold
    · exact .inr (List.mem_singleton.mp hnew)

theorem History.taken (h : History registry digest Q s rows) :
    ∀ row ∈ rows, row.Taken registry := by
  induction h with
  | opened => simp
  | reopened _ _ _ ih => exact ih
  | started _ _ _ _ ih => exact ih
  | answered _ _ _ _ _ ih => exact ih
  | recorded hhistory i t form upload ht hform hupload _ ih =>
    intro row hrow
    rcases mem_record hrow with hold | rfl
    · exact ih row hold
    · have hphase := (hhistory.takes i t ht).phase
      rw [hform] at hphase
      exact hphase row hupload

theorem History.alone (h : History registry digest Alone s rows) :
    ∀ row ∈ rows, ∀ row' ∈ rows, row.id = row'.id → row = row' := by
  induction h with
  | opened => simp
  | reopened _ _ _ ih => exact ih
  | started _ _ _ _ ih => exact ih
  | answered _ _ _ _ _ ih => exact ih
  | @recorded s rows _ i t form upload _ _ _ halone ih =>
    rw [record]
    split_ifs with hold
    · exact ih
    · have hnew : ∀ row ∈ rows, row.id ≠ upload.id := by
        intro row hrow hid
        apply hold
        rw [List.any_eq_true]
        exact ⟨row, hrow, decide_eq_true ⟨hid, halone row hrow hid⟩⟩
      intro row hrow row' hrow' hid
      rcases List.mem_append.mp hrow with hin | hin
      · rcases List.mem_append.mp hrow' with hin' | hin'
        · exact ih row hin row' hin' hid
        · rw [List.mem_singleton.mp hin'] at hid
          exact absurd hid (hnew row hin)
      · rw [List.mem_singleton.mp hin] at hid ⊢
        rcases List.mem_append.mp hrow' with hin' | hin'
        · exact absurd hid.symm (hnew row' hin')
        · exact (List.mem_singleton.mp hin').symm

end History

/-- What is read of an id is served under a type that some declared bucket accepted for these bytes,
inline only where it is listed, with header values that are well formed. -/
structure ServedSafely (registry : UploadRegistry) (rows : List StoredUpload) (id : String)
    (response : Response) : Prop where
  accepted : ∃ row ∈ rows, row.id = id ∧ response.contentType = row.contentType ∧
    ∃ bucket ∈ registry, bucket = row.bucket ∧ bucket.accepts response.contentType = true
  inline : response.contentDisposition = "inline".toList →
    rendersInlineSafely response.contentType = true
  contentType : ∀ c ∈ response.contentType, Visible c
  disposes : Disposes response.contentDisposition
  nosniff : response.xContentTypeOptions = "nosniff"

def ServedAs (row : StoredUpload) (response : Response) : Prop :=
  response.contentType = row.contentType ∧ response.contentDisposition = contentDisposition row

theorem attachment_ne_inline (name quote : List Char) :
    "attachment; filename=\"".toList ++ name ++ quote ≠ "inline".toList := by
  intro h
  have hhead := congrArg List.head? h
  rw [List.append_assoc, List.head?_append,
    show "attachment; filename=\"".toList.head? = some 'a' by decide,
    show "inline".toList.head? = some 'i' by decide, Option.some_or] at hhead
  cases hhead

theorem History.servedSafely {registry : UploadRegistry} {digest : Digest}
    {Q : List StoredUpload → StoredUpload → Prop} {s : System} {rows : List StoredUpload}
    (h : History registry digest Q s rows) {files : Files} {query : FirstRow} {id : String}
    {ifNoneMatch : Option (List Char)} {response : Response}
    (hserve : serve files query rows id ifNoneMatch = .ok response) :
    ServedSafely registry rows id response := by
  obtain ⟨row, hlookup, htype, hdisposition, -, hnosniff⟩ := serve_eq_ok hserve
  obtain ⟨hrow, hid⟩ := mem_of_lookup hlookup
  have htaken := h.taken row hrow
  refine ⟨⟨row, hrow, hid, htype, row.bucket, htaken.declared, rfl, htype ▸ htaken.accepts⟩, ?_, ?_,
    ?_, hnosniff⟩
  · intro hinline
    rw [hdisposition, contentDisposition] at hinline
    split_ifs at hinline with hsafe
    · rwa [htype]
    · exact absurd hinline (attachment_ne_inline _ _)
  · rw [htype]
    exact htaken.visible
  · rw [hdisposition, contentDisposition]
    split_ifs
    · exact .inl rfl
    · exact .inr ⟨row.originalName, htaken.quotable, rfl⟩

def byBucket : FirstRow where
  first rows := rows.foldr (fun row best =>
    match best with
    | none => some row
    | some found => if found.bucket.name < row.bucket.name then some found else some row) none
  mem_of_first rows := by
    induction rows with
    | nil => simp
    | cons row rows ih =>
      intro found hfound
      rw [List.foldr_cons] at hfound
      split at hfound
      · cases hfound
        exact List.mem_cons_self
      · next best hbest =>
        split_ifs at hfound
        · cases hfound
          exact List.mem_cons_of_mem row (ih _ hbest)
        · cases hfound
          exact List.mem_cons_self
  first_isSome rows hrows := by
    cases rows with
    | nil => exact absurd rfl hrows
    | cons row rows =>
      rw [List.foldr_cons]
      split
      · rfl
      · split_ifs
        · rfl
        · rfl

def scans : ResolvedBucket := ⟨"any", [], 2, System.notes.declarable⟩

def noteRow : StoredUpload :=
  ⟨System.hiHash, System.notes, "text/plain".toList, 2, sanitiseName "hi.txt".toList, some "alice"⟩

/-- The same two bytes, said to be a page. -/
def scanRow : StoredUpload :=
  ⟨System.hiHash, scans, "text/html".toList, 2, sanitiseName "hi.html".toList, some "mallory"⟩

def hiPart (field name contentType : String) : PartHeader :=
  ⟨field, name.toList, contentType.toList⟩

theorem parsed_hiPart (field name contentType : String)
    (h : (contentType.toList.all fun c => Visible c) = true) :
    (Answer.field (some (hiPart field name contentType))).Parsed := by
  intro text htext
  cases htext
  exact Ascii.forall_mem_of_all h

theorem scan_returned (Q : List StoredUpload → StoredUpload → Prop) (hnote : Q [] noteRow) :
    ∃ s t form, History [System.notes, scans] System.hiDigest Q s [noteRow] ∧ s.submits 1 = some t ∧
      t.submit.phase = .returned (.ok form) ∧ form.uploads = [scanRow] ∧
      (pathFor System.hiHash).bind s.files = some [104, 105] := by
  obtain ⟨path, hpath⟩ := System.pathFor_hiHash
  have hopened : History [System.notes, scans] System.hiDigest Q System.empty [] :=
    .opened System.empty fun _ => rfl
  have hfield := (hopened.started 0 (some "alice") rfl).answered 0
    (.field (some (hiPart "note" "hi.txt" "text/plain"))) (parsed_hiPart _ _ _ (by decide)) rfl
  have hcreated := (hfield.answered 0 (.done 0) trivial rfl).answered 0 (.created "a") trivial rfl
  have hwritten := (hcreated.answered 0 (.chunk (some [104, 105])) trivial rfl).answered 0 (.done 1)
    trivial rfl
  have hflushed := (hwritten.answered 0 (.chunk none) trivial rfl).answered 0 (.done 0) trivial
    (System.next_answer rfl rfl (Submit.stepFile_flush [System.notes, scans] 0 hpath))
  have hlooked := (hflushed.answered 0 (.done 0) trivial rfl).answered 0 (.failed "not found")
    trivial rfl
  have hreturned := (hlooked.answered 0 (.done 0) trivial rfl).answered 0 (.field none) trivial rfl
  have hrecorded := hreturned.recorded 0 _ _ noteRow rfl rfl (List.mem_singleton_self _) hnote
  -- the second submit finds the file there
  have hfield' := (hrecorded.started 1 (some "mallory") rfl).answered 1
    (.field (some (hiPart "any" "hi.html" "text/html"))) (parsed_hiPart _ _ _ (by decide)) rfl
  have hcreated' := (hfield'.answered 1 (.done 0) trivial rfl).answered 1 (.created "b") trivial rfl
  have hwritten' := (hcreated'.answered 1 (.chunk (some [104, 105])) trivial rfl).answered 1
    (.done 1) trivial rfl
  have hflushed' := (hwritten'.answered 1 (.chunk none) trivial rfl).answered 1 (.done 0) trivial
    (System.next_answer rfl rfl (Submit.stepFile_flush [System.notes, scans] 0 hpath))
  have hmade' := hflushed'.answered 1 (.done 0) trivial rfl
  have hkept (files : Files) (name : String) (disk : Option Bytes) :
      Function.update files (tmpPath name) disk path = files path :=
    Function.update_of_ne (pathFor_ne_tmpPath hpath name) disk files
  have hlooked' := hmade'.answered 1 (.done 0) trivial (System.next_answer rfl rfl
    (Submit.stepFile_look [System.notes, scans] System.hiDigest 0 (Option.isSome_of_eq_some
      ((hkept _ _ _).trans <| (hkept _ _ _).trans <| (hkept _ _ _).trans <| (hkept _ _ _).trans <|
        Function.update_self _ _ _))))
  have hreturned' := (hlooked'.answered 1 (.done 0) trivial rfl).answered 1 (.field none)
    trivial rfl
  exact ⟨_, _, _, hreturned', rfl, rfl, rfl,
    (congrArg (Option.bind · _) hpath).trans <| (hkept _ _ _).trans <| (hkept _ _ _).trans <|
      (hkept _ _ _).trans <| (hkept _ _ _).trans <| (hkept _ _ _).trans <|
        Function.update_self _ _ _⟩

/-- The response to a read of the two bytes, where the query comes to a record. -/
def hiResponse (row : StoredUpload) : Response :=
  ⟨row.contentType, "private, no-cache", '"' :: System.hiHash.toList ++ ['"'],
    contentDisposition row, "nosniff", [104, 105]⟩

theorem serve_hi {files : Files} (hfile : (pathFor System.hiHash).bind files = some [104, 105])
    {rows : List StoredUpload} {row : StoredUpload}
    (h : lookup byBucket rows System.hiHash = some row) :
    serve files byBucket rows System.hiHash none = .ok (hiResponse row) := by
  rw [serve, h]
  dsimp only
  rw [Option.any_none, if_neg Bool.false_ne_true, hfile]
  rfl

end Albedo.Upload
