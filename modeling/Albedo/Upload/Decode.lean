import Albedo.Library.KeyedList
import Albedo.Library.Separator
import Albedo.Library.Trim
import Albedo.Library.Utf8
import Mathlib.Algebra.Group.Nat.Defs

/-!
# Multipart submits

A submit goes through the parts of a body. A file part is copied chunk by chunk to a temporary
file and hashed on the way; only then is the name of the file known. What the reader of the body
and the file system answer is not the submit's to choose.
-/
namespace Albedo.Upload
open Trim

abbrev Bytes := List UInt8

/-! ### Declarations -/

def maxDeclarableBytes : ℕ := 512 * 1024 * 1024

def maxFileParts : ℕ := 8

def maxFormBodyBytes : ℕ := 64 * 1024

structure ResolvedBucket where
  name : String
  /-- Media types, lowercased; none means any. -/
  accept : List (List Char)
  maxBytes : ℕ
  declarable : maxBytes ≤ maxDeclarableBytes
  deriving DecidableEq

def ResolvedBucket.accepts (bucket : ResolvedBucket) (contentType : List Char) : Bool :=
  if bucket.accept = [] then true
  else
    let offered := (trim (contentType.takeWhile (· ≠ ';'))).map Char.toLower
    bucket.accept.any fun allowed =>
      if "/*".toList <:+ allowed then
        offered.takeWhile (· ≠ '/') = allowed.take (allowed.length - 2)
      else allowed = offered

abbrev UploadRegistry := List ResolvedBucket

namespace UploadRegistry

def bucket (registry : UploadRegistry) (name : String) : Option ResolvedBucket :=
  registry.find? fun bucket => bucket.name = name

def ceiling (registry : UploadRegistry) : ℕ :=
  (registry.map ResolvedBucket.maxBytes).foldl max 0

end UploadRegistry

/-- `u64::saturating_add`. -/
def saturatingAdd (a b : ℕ) : ℕ := min (a + b) (2 ^ 64 - 1)

def bodyCeiling (registry : UploadRegistry) : ℕ :=
  saturatingAdd (min (registry.ceiling * maxFileParts) (2 ^ 64 - 1)) maxFormBodyBytes

/-! ### Where files are -/

abbrev Path := List String

def uploadDir : String := "uploads"

def isLowerHex (c : Char) : Bool := c.isDigit || ('a' ≤ c && c ≤ 'f')

def isUploadId (id : String) : Bool := id.toList.length = 64 ∧ id.toList.all isLowerHex

def pathFor (id : String) : Option Path :=
  if isUploadId id then
    some [uploadDir, String.ofList (id.toList.take 2), String.ofList (id.toList.drop 2)]
  else none

def tmpPath (name : String) : Path := [uploadDir, ".tmp", name]

abbrev Files := Path → Option Bytes

structure Digest where
  hash : Bytes → String
  isUploadId_hash : ∀ bytes, isUploadId (hash bytes) = true

def isControl (c : Char) : Bool := c.toNat < 0x20 || (0x7F ≤ c.toNat && c.toNat ≤ 0x9F)

def sanitiseName (raw : List Char) : List Char :=
  let last := (raw.reverse.takeWhile fun c => c ≠ '/' ∧ c ≠ '\\').reverse
  let trimmed := ((trim last).filter fun c => ¬ isControl c ∧ c ≠ '"').take 120
  if trimmed = [] ∨ trimmed = ['.'] ∨ trimmed = ['.', '.'] then "file".toList else trimmed

/-! ### A submit -/

inductive UploadError
  | noBucketsDeclared
  | unknownBucket (bucket : String)
  | typeRefused (bucket : String) (offered : List Char)
  | fileTooLarge (bucket : String) (limit : ℕ)
  | fieldTooLarge (field : String)
  | tooManyFiles
  | bodyTooLarge
  | malformed (reason : String)
  | io (reason : String)

structure StoredUpload where
  id : String
  bucket : ResolvedBucket
  contentType : List Char
  byteSize : ℕ
  originalName : List Char
  principal : Option String
  deriving DecidableEq

structure MultipartForm where
  fields : List (String × List Char)
  uploads : List StoredUpload

structure PartHeader where
  name : Option String
  fileName : Option (List Char)
  contentType : Option (List Char)

structure FilePart where
  name : String
  bucket : ResolvedBucket
  contentType : List Char
  originalName : List Char

/-- How far a file part is. `hashed` is what the hasher has seen, and `pending` what was handed to
the file but is not on the disk yet. -/
inductive Stage
  | makeTmpDir
  | create
  | copy (tmp : String) (hashed pending : Bytes)
  | write (tmp : String) (hashed pending chunk : Bytes)
  | flush (tmp : String) (hashed pending : Bytes)
  | makeFanOut (tmp : String) (size : ℕ) (id : String) (final : Path)
  | look (tmp : String) (size : ℕ) (id : String) (final : Path)
  | rename (tmp : String) (size : ℕ) (id : String) (final : Path)
  | lookAgain (tmp : String) (size : ℕ) (id : String) (final : Path) (reason : String)
  | discard (tmp : String) (outcome : Except UploadError StoredUpload)

inductive Phase
  | next
  | drain
  | text (name : String) (text : Bytes)
  | file (part : FilePart) (stage : Stage)
  | returned (result : Except UploadError MultipartForm)

structure Submit where
  phase : Phase
  form : MultipartForm
  filesSeen : ℕ
  bodySeen : ℕ
  principal : Option String

inductive Answer
  /-- The next part, or that there is none. -/
  | field (header : Option PartHeader)
  /-- The next chunk of the part, or that there is none. -/
  | chunk (bytes : Option Bytes)
  /-- It is done, and so much of what is pending came to the disk. -/
  | done (settled : ℕ)
  /-- A new file has been made under the name that was drawn. -/
  | created (name : String)
  | failed (reason : String)

namespace Submit

/-- `decode_multipart`, called. -/
def start (registry : UploadRegistry) (principal : Option String) : Submit :=
  ⟨if registry = [] then .returned (.error .noBucketsDeclared) else .next, ⟨[], []⟩, 0, 0, principal⟩

def fail (s : Submit) (error : UploadError) : Submit := { s with phase := .returned (.error error) }

def atStage (s : Submit) (part : FilePart) (stage : Stage) : Submit :=
  { s with phase := .file part stage }

def stored (s : Submit) (part : FilePart) (upload : StoredUpload) : Submit :=
  { s with
    phase := .next
    form := ⟨KeyedList.put part.name upload.id.toList s.form.fields, s.form.uploads ++ [upload]⟩ }

def upload (s : Submit) (part : FilePart) (size : ℕ) (id : String) : StoredUpload :=
  ⟨id, part.bucket, part.contentType, size, part.originalName, s.principal⟩

def begin (registry : UploadRegistry) (s : Submit) (header : PartHeader) : Submit :=
  match header.name with
  | none => { s with phase := .drain }
  | some name =>
      match header.fileName with
      | none => { s with phase := .text name [] }
      | some fileName =>
          let s := { s with filesSeen := s.filesSeen + 1 }
          if maxFileParts < s.filesSeen then s.fail .tooManyFiles
          else match registry.bucket name with
          | none => s.fail (.unknownBucket name)
          | some bucket =>
              let offered := header.contentType.getD "application/octet-stream".toList
              if ¬ bucket.accepts offered then s.fail (.typeRefused bucket.name offered)
              else s.atStage ⟨name, bucket, offered, sanitiseName fileName⟩ .makeTmpDir

def readText (registry : UploadRegistry) (s : Submit) (name : String) (text chunk : Bytes) :
    Submit :=
  let s := { s with bodySeen := saturatingAdd s.bodySeen chunk.length }
  if bodyCeiling registry < s.bodySeen then s.fail .bodyTooLarge
  else if maxFormBodyBytes < text.length + chunk.length then s.fail (.fieldTooLarge name)
  else { s with phase := .text name (text ++ chunk) }

def readFile (registry : UploadRegistry) (s : Submit) (part : FilePart) (tmp : String)
    (hashed pending chunk : Bytes) : Submit :=
  let s := { s with bodySeen := saturatingAdd s.bodySeen chunk.length }
  if part.bucket.maxBytes < saturatingAdd hashed.length chunk.length then
    s.atStage part (.discard tmp (.error (.fileTooLarge part.bucket.name part.bucket.maxBytes)))
  else if bodyCeiling registry < s.bodySeen then
    s.atStage part (.discard tmp (.error .bodyTooLarge))
  else s.atStage part (.write tmp (hashed ++ chunk) pending chunk)

def settle (files : Files) (tmp : String) (pending : Bytes) (settled : ℕ) : Files :=
  Function.update files (tmpPath tmp)
    (some (((files (tmpPath tmp)).getD []) ++ pending.take settled))

/-- The end of `write_part`, whose temporary file is gone or could not be removed. -/
def finish (s : Submit) (part : FilePart) : Except UploadError StoredUpload → Submit
  | .error error => s.fail error
  | .ok upload => s.stored part upload

def stepFile (registry : UploadRegistry) (digest : Digest) (s : Submit) (part : FilePart)
    (files : Files) : Stage → Answer → Option (Submit × Files)
  | .makeTmpDir, .done _ => some (s.atStage part .create, files)
  | .makeTmpDir, .failed reason => some (s.fail (.io reason), files)
  | .create, .created name =>
      some (s.atStage part (.copy name [] []), Function.update files (tmpPath name) (some []))
  | .create, .failed reason => some (s.fail (.io reason), files)
  | .copy tmp hashed pending, .chunk (some chunk) =>
      some (s.readFile registry part tmp hashed pending chunk, files)
  | .copy tmp hashed pending, .chunk none => some (s.atStage part (.flush tmp hashed pending), files)
  | .copy tmp _ _, .failed reason =>
      some (s.atStage part (.discard tmp (.error (.malformed reason))), files)
  | .write tmp hashed pending chunk, .done settled =>
      some (s.atStage part (.copy tmp hashed ((pending ++ chunk).drop settled)),
        settle files tmp (pending ++ chunk) settled)
  | .write tmp _ _ _, .failed reason =>
      some (s.atStage part (.discard tmp (.error (.io reason))), files)
  | .flush tmp hashed pending, .done _ =>
      let id := digest.hash hashed
      match pathFor id with
      | none => some (s.fail (.io "that is not an upload id"),
          settle files tmp pending pending.length)
      | some final => some (s.atStage part (.makeFanOut tmp hashed.length id final),
          settle files tmp pending pending.length)
  | .flush tmp _ _, .failed reason =>
      some (s.atStage part (.discard tmp (.error (.io reason))), files)
  | .makeFanOut tmp size id final, .done _ => some (s.atStage part (.look tmp size id final), files)
  | .makeFanOut _ _ _ _, .failed reason => some (s.fail (.io reason), files)
  | .look tmp size id final, .done _ =>
      if (files final).isSome then
        some (s.atStage part (.discard tmp (.ok (s.upload part size id))), files)
      else some (s.atStage part (.rename tmp size id final), files)
  | .look tmp size id final, .failed _ => some (s.atStage part (.rename tmp size id final), files)
  | .rename tmp size id final, .done _ =>
      some (s.stored part (s.upload part size id),
        Function.update (Function.update files final (files (tmpPath tmp))) (tmpPath tmp) none)
  | .rename tmp size id final, .failed reason =>
      some (s.atStage part (.lookAgain tmp size id final reason), files)
  | .lookAgain tmp size id final reason, .done _ =>
      if (files final).isSome then
        some (s.atStage part (.discard tmp (.ok (s.upload part size id))), files)
      else some (s.atStage part (.discard tmp (.error (.io reason))), files)
  | .lookAgain tmp _ _ _ reason, .failed _ =>
      some (s.atStage part (.discard tmp (.error (.io reason))), files)
  | .discard tmp outcome, .done _ =>
      some (s.finish part outcome, Function.update files (tmpPath tmp) none)
  | .discard _ outcome, .failed _ => some (s.finish part outcome, files)
  | _, _ => none

/-- One answer, or `none` where it is no answer to what the submit asked. -/
def step (registry : UploadRegistry) (digest : Digest) (s : Submit) (files : Files) :
    Answer → Option (Submit × Files) := fun answer =>
  match s.phase, answer with
  | .next, .field (some header) => some (s.begin registry header, files)
  | .next, .field none => some ({ s with phase := .returned (.ok s.form) }, files)
  | .next, .failed reason => some (s.fail (.malformed reason), files)
  | .drain, .chunk (some _) => some (s, files)
  | .drain, .chunk none => some ({ s with phase := .next }, files)
  | .drain, .failed _ => some ({ s with phase := .next }, files)
  | .text name text, .chunk (some chunk) => some (s.readText registry name text chunk, files)
  | .text name text, .chunk none =>
      some ({ s with
        phase := .next
        form := ⟨KeyedList.put name (Utf8.lossy text) s.form.fields, s.form.uploads⟩ }, files)
  | .text _ _, .failed reason => some (s.fail (.malformed reason), files)
  | .file part stage, answer => s.stepFile registry digest part files stage answer
  | _, _ => none

end Submit

end Albedo.Upload
