import Maw.Core.Types

/-!
# The git backend and the text merge

The rebase and merge code calls a git repository for blobs and two libraries for text: a
three-way merge driver and a hash. They enter the model as the fields of `Repo`; the code
between them and the callers is written out here.

## Main definitions

* `Repo` — the repository and the libraries.
* `mergeText` — the three-way text merge with its result read off the driver's resolution.
* `looksText` — whether a blob may be merged as text.
-/

namespace Maw

/-- How a text merge treats the hunks that both sides changed. -/
inductive ConflictResolution
  | diff3
  | union
  | ours
  | theirs
  deriving DecidableEq, Repr

/-- The labels of the three versions in conflict markers. -/
structure MergeLabels where
  ancestor : String
  current : String
  other : String
  deriving DecidableEq, Repr

/-- What the text driver reports about its output. -/
inductive Resolution
  | complete
  | completeWithAutoResolvedConflict
  | conflict
  deriving DecidableEq, Repr

/-- The result of a three-way text merge. -/
inductive MergeResult
  | clean (merged : Bytes)
  | conflict (marked : Bytes)
  deriving DecidableEq, Repr

/-- One edit of a tree; paths are written with `/`. -/
inductive TreeEdit
  | upsert (path : List Char) (mode : EntryMode) (oid : GitOid)
  | remove (path : List Char)
  deriving DecidableEq, Repr

/-- The git repository and the libraries that the code calls. -/
structure Repo where
  readBlob : GitOid → Option Bytes
  /-- Write a blob that is to stand at a path of a tree. -/
  writeBlobWithPath : Bytes → (relPath : List Char) → Option GitOid
  /-- The tree that a list of edits makes of another one. -/
  editTree : GitTree → List TreeEdit → Option GitTree
  /-- The text driver, on the versions ours, base and theirs. -/
  textDriver : MergeLabels → (ours base theirs : Bytes) → ConflictResolution → Resolution × Bytes
  /-- The first sixteen bytes of a hash of a commit and a path. -/
  mergeFileIdSeed : GitOid → Path → FileId
  /-- The size and syntax checks on a merge of base, ours and theirs. -/
  postMergeSanity : Path → (base ours theirs merged : Bytes) → Bool

/-- Three-way text merge under a choice for conflicting hunks. -/
def mergeTextWithStyle (repo : Repo) (base ours theirs : Bytes)
    (oursLabel baseLabel theirsLabel : String) (resolution : ConflictResolution) : MergeResult :=
  match repo.textDriver ⟨baseLabel, oursLabel, theirsLabel⟩ ours base theirs resolution with
  | (.complete, out) | (.completeWithAutoResolvedConflict, out) => .clean out
  | (.conflict, out) => .conflict out

/-- Three-way text merge that marks conflicting hunks. -/
def mergeText (repo : Repo) (base ours theirs : Bytes)
    (oursLabel baseLabel theirsLabel : String) : MergeResult :=
  mergeTextWithStyle repo base ours theirs oursLabel baseLabel theirsLabel .diff3

/-- A UTF-8 continuation byte. -/
def isContinuation (b : UInt8) : Bool := 0x80 ≤ b && b ≤ 0xBF

/-- Whether a second byte may follow the leading byte of a three-byte sequence. -/
def isSecondOfThree (b₀ b₁ : UInt8) : Bool :=
  if b₀ = 0xE0 then 0xA0 ≤ b₁ && b₁ ≤ 0xBF
  else if b₀ = 0xED then 0x80 ≤ b₁ && b₁ ≤ 0x9F
  else isContinuation b₁

/-- Whether a second byte may follow the leading byte of a four-byte sequence. -/
def isSecondOfFour (b₀ b₁ : UInt8) : Bool :=
  if b₀ = 0xF0 then 0x90 ≤ b₁ && b₁ ≤ 0xBF
  else if b₀ = 0xF4 then 0x80 ≤ b₁ && b₁ ≤ 0x8F
  else isContinuation b₁

/-- Whether bytes are well-formed UTF-8. -/
def isUtf8 : Bytes → Bool
  | [] => true
  | b₀ :: rest =>
    if b₀ < 0x80 then isUtf8 rest
    else if 0xC2 ≤ b₀ && b₀ ≤ 0xDF then
      match rest with
      | b₁ :: rest => isContinuation b₁ && isUtf8 rest
      | [] => false
    else if 0xE0 ≤ b₀ && b₀ ≤ 0xEF then
      match rest with
      | b₁ :: b₂ :: rest => isSecondOfThree b₀ b₁ && isContinuation b₂ && isUtf8 rest
      | _ => false
    else if 0xF0 ≤ b₀ && b₀ ≤ 0xF4 then
      match rest with
      | b₁ :: b₂ :: b₃ :: rest =>
        isSecondOfFour b₀ b₁ && isContinuation b₂ && isContinuation b₃ && isUtf8 rest
      | _ => false
    else false

/-- A blob is text when it has no zero byte and is well-formed UTF-8. -/
def looksText (bytes : Bytes) : Bool :=
  if bytes.contains 0 then false else isUtf8 bytes

example : looksText "naïve €".toUTF8.toList = true := by decide +kernel

/-! ### A small repository -/

/-- A blob with a short id. -/
def sampleBlob (n : Nat) : GitOid := ⟨BitVec.ofNat 160 (n * 2 ^ 128)⟩

/-- A repository of one-byte files whose text driver finds every pair of edits in conflict. -/
def sampleRepo : Repo where
  readBlob blob := some [blob.bits.toNat.toUInt8]
  writeBlobWithPath _ _ := some (sampleBlob 99)
  editTree base _ := some base
  textDriver _ _ _ _ _ := (.conflict, [])
  mergeFileIdSeed _ _ := ⟨0⟩
  postMergeSanity _ _ _ _ _ := true

end Maw
