import Maw.Lfs.Attrs
import Maw.Lfs.Store

/-!
# Pointers in a worktree

A commit stores a pointer in place of a file that the attributes store in LFS, and its contents in
the object store. After a checkout, the files of the index that are pointers are replaced by the
contents: the object is copied into a temporary file next to the file, which is then renamed over
it. A file that is missing is restored as the pointer.

## Main definitions

* `AttrsSources.isLfs` — whether a file is committed as a pointer.
* `SmudgeOp`, `smudgePointers` — the replacement of the pointers of a worktree.
* `Replaced` — what may become of a file.

## Main results

* `smudge_atomic` — wherever the replacement stops, no file is half written.
* `clean_smudge` — what was committed comes back.
-/

open Interleaved

namespace Maw.Lfs

/-! ### Committing -/

/-- Where the attributes for a commit come from. -/
structure AttrsSources (P : Type) where
  pending : Option (List (Bytes × Bytes))
  head : Except AttrsError (AttrsMatcher P)
  workdir : Option (Except AttrsError (AttrsMatcher P))

namespace AttrsSources

variable {P : Type} (globs : GlobLibrary P) (sources : AttrsSources P)

/-- The attributes that a merge brings, else those of the last commit, else those of the
worktree. -/
def matcher : Option (AttrsMatcher P) :=
  match sources.pending with
  | some entries => (AttrsMatcher.fromEntries globs entries).toOption
  | none =>
    match sources.head with
    | .ok m => if m.files.isEmpty then sources.workdir.bind Except.toOption else some m
    | .error _ => sources.workdir.bind Except.toOption

def isLfs (relPath : Bytes) : Bool := (sources.matcher globs).any (·.isLfs globs relPath)

def writeBlobWithPath (data relPath : Bytes) : StoreCall :=
  .cleanBlob (sources.isLfs globs relPath) data

end AttrsSources

/-! ### The files of a worktree -/

/-- A file of the index. -/
structure IndexFile where
  path : Bytes
  mode : EntryMode
  oid : GitOid
  deriving DecidableEq

abbrev WorkFiles := Bytes → Option Bytes

inductive SmudgeOp
  | metadata (path : Bytes)
  | findObject (oid : GitOid)
  | createParent (path : Bytes)
  | write (path data : Bytes)
  | read (path : Bytes)
  | openObject (oid : Oid)
  | createFile (path : Bytes)
  | copy (path data : Bytes)
  | syncAll (path : Bytes)
  | setPermissions (path : Bytes) (executable : Bool)
  | rename (src dst : Bytes)
  | removeFile (path : Bytes)

namespace SmudgeOp

/-- What an operation returns. -/
abbrev Ret : SmudgeOp → Type
  | metadata _ => ℕ
  | findObject _ => Bytes
  | read _ => Bytes
  | openObject _ => Option Bytes
  | _ => Unit

/-- What an operation does, given the blobs, what opening an object may give and whether something
may fail. Only a missing file cannot be looked at. A write that fails may have written a part. -/
def exec (blobs : GitOid → Option Bytes) (opens : Oid → Option Bytes → Prop) (fails : Prop) :
    (op : SmudgeOp) → WorkFiles → Except Unit op.Ret → WorkFiles → Prop
  | metadata path, files, r, files' => r = ((files path).map List.length).elim (.error ()) .ok ∧
      files' = files
  | findObject oid, files, r, files' =>
    ((r = .error () ∧ fails) ∨ ∃ data, blobs oid = some data ∧ r = .ok data) ∧ files' = files
  | createParent _, files, r, files' => (r = .ok () ∨ r = .error () ∧ fails) ∧ files' = files
  | write path data, files, r, files' =>
    (r = .ok () ∧ files' = Function.update files path (some data)) ∨
      (r = .error () ∧ fails) ∧ (files' = files ∨
        ∃ part, part <+: data ∧ files' = Function.update files path (some part))
  | read path, files, r, files' =>
    ((r = .error () ∧ fails) ∨ ∃ data, files path = some data ∧ r = .ok data) ∧ files' = files
  | openObject oid, files, r, files' =>
    ((r = .error () ∧ fails) ∨ ∃ object, opens oid object ∧ r = .ok object) ∧ files' = files
  | createFile path, files, r, files' =>
    (r = .ok () ∧ files' = Function.update files path (some [])) ∨
      (r = .error () ∧ fails) ∧ files' = files
  | copy path data, files, r, files' =>
    (r = .ok () ∧ files' = Function.update files path ((files path).map (· ++ data))) ∨
      (r = .error () ∧ fails) ∧ ∃ part, part <+: data ∧
        files' = Function.update files path ((files path).map (· ++ part))
  | syncAll _, files, r, files' => (r = .ok () ∨ r = .error () ∧ fails) ∧ files' = files
  | setPermissions _ _, files, r, files' => (r = .ok () ∨ r = .error () ∧ fails) ∧ files' = files
  | rename src dst, files, r, files' =>
    (r = .ok () ∧ files' = if src = dst then files
      else Function.update (Function.update files dst (files src)) src none) ∨
        (r = .error () ∧ fails) ∧ files' = files
  | removeFile path, files, r, files' =>
    (r = .ok () ∧ files' = Function.update files path none) ∨
      (r = .error () ∧ fails) ∧ files' = files

end SmudgeOp

abbrev SmudgeProg := Fallible Unit SmudgeOp SmudgeOp.Ret

/-- The last component of a path and what is in front of it. -/
def splitFileName (path : Bytes) : Bytes × Bytes :=
  (path.rdropWhile (· ≠ 0x2F), path.rtakeWhile (· ≠ 0x2F))

/-- A name without its extension; a dot in front of a name begins none. -/
def fileStem (name : Bytes) : Bytes :=
  let front := name.rdropWhile (· ≠ 0x2E)
  if front.length ≤ 1 then name else front.dropLast

/-- A path with another extension. -/
def withExtension (path extension : Bytes) : Bytes :=
  (splitFileName path).1 ++ fileStem (splitFileName path).2 ++ 0x2E :: extension

def tmpExtension : Bytes := "maw-lfs-tmp".toUTF8.toList

def tmpPath (path : Bytes) : Bytes := withExtension path tmpExtension

/-- Put the contents of an object in the place of a pointer. -/
def replaceFile (file : IndexFile) (content : Bytes) : SmudgeProg Bool := do
  let replaced ← asOption (do
    attempt (SmudgeOp.createFile (tmpPath file.path))
    attempt (SmudgeOp.copy (tmpPath file.path) content)
    attempt (SmudgeOp.syncAll (tmpPath file.path))
    attempt (SmudgeOp.setPermissions (tmpPath file.path) (file.mode = .blobExecutable))
    attempt (SmudgeOp.rename (tmpPath file.path) file.path))
  match replaced with
  | some _ => return true
  | none => do
    ignoreError (attempt (SmudgeOp.removeFile (tmpPath file.path)))
    return false

/-- Restore a missing file as the pointer that was committed. -/
def restoreFile (file : IndexFile) : SmudgeProg Bool := do
  match ← asOption (attempt (SmudgeOp.findObject file.oid)) with
  | none => return false
  | some data =>
    if looksLikePointer data then do
      ignoreError (attempt (SmudgeOp.createParent file.path))
      let written ← asOption (attempt (SmudgeOp.write file.path data))
      return written.isSome
    else return false

/-- Whether a file of the index may be a pointer. -/
def IndexFile.isTracked (lfs : Bytes → Bool) (file : IndexFile) : Bool :=
  (file.mode = .blob || file.mode = .blobExecutable) && isUtf8 file.path && lfs file.path

/-- Whether the file was replaced or restored. -/
def smudgeFile (lfs : Bytes → Bool) (file : IndexFile) : SmudgeProg Bool :=
  if !file.isTracked lfs then pure false
  else do
    match ← asOption (attempt (SmudgeOp.metadata file.path)) with
    | none => restoreFile file
    | some length =>
      if maxPointerBytes < length then return false
      else
        match ← asOption (attempt (SmudgeOp.read file.path)) with
        | none => return false
        | some bytes =>
          if !looksLikePointer bytes then return false
          else
            match Pointer.parse bytes with
            | .error _ => return false
            | .ok pointer =>
              match ← asOption (attempt (SmudgeOp.openObject pointer.oid)) with
              | some (some content) => replaceFile file content
              | _ => return false

/-- The paths of the files that were replaced or restored. -/
def smudgePointers (lfs : Bytes → Bool) : List IndexFile → SmudgeProg (List Bytes)
  | [] => pure []
  | file :: files => do
    let smudged ← smudgeFile lfs file
    let rest ← smudgePointers lfs files
    return (if smudged then [file.path] else []) ++ rest

/-! ### What becomes of a file -/

section Files

variable {blobs : GitOid → Option Bytes} {opens : Oid → Option Bytes → Prop} {fails : Prop}
  {lfs : Bytes → Bool} {file : IndexFile} {start files : WorkFiles}

/-- A file stays as it is, a pointer becomes the contents of its object, and a missing file the
pointer that was committed, or a part of that. -/
inductive Replaced (blobs : GitOid → Option Bytes) (opens : Oid → Option Bytes → Prop)
    (file : IndexFile) : Option Bytes → Option Bytes → Prop
  | refl (before : Option Bytes) : Replaced blobs opens file before before
  | content {bytes content : Bytes} {pointer : Pointer} (hparse : Pointer.parse bytes = .ok pointer)
      (hopen : opens pointer.oid (some content)) :
      Replaced blobs opens file (some bytes) (some content)
  | stub {data part : Bytes} (hblob : blobs file.oid = some data)
      (hlooks : looksLikePointer data = true) (hpart : part <+: data) :
      Replaced blobs opens file none (some part)

/-- What the work on one file does to all of them. -/
structure FileStep (blobs : GitOid → Option Bytes) (opens : Oid → Option Bytes → Prop)
    (lfs : Bytes → Bool) (file : IndexFile) (start files : WorkFiles) : Prop where
  others : ∀ path, (file.isTracked lfs → path ≠ file.path ∧ path ≠ tmpPath file.path) →
    files path = start path
  self : file.path ≠ tmpPath file.path →
    Replaced blobs opens file (start file.path) (files file.path)

/-- These bytes are replaced by others: they are a pointer, and the others its object. -/
def Becomes (opens : Oid → Option Bytes → Prop) (bytes content : Bytes) : Prop :=
  ∃ pointer, Pointer.parse bytes = .ok pointer ∧ opens pointer.oid (some content)

/-- These bytes are not replaced: they are no pointer, or the object is missing. -/
def Remains (opens : Oid → Option Bytes → Prop) (bytes : Bytes) : Prop :=
  ∀ pointer, Pointer.parse bytes = .ok pointer → opens pointer.oid none

/-- A pointer of which the file was replaced has become the contents of its object; one of which
it was not still stands there, because of a failure if the object is there. -/
def Outcome (opens : Oid → Option Bytes → Prop) (fails : Prop) (file : IndexFile)
    (start : WorkFiles) (smudged : Bool) (files : WorkFiles) : Prop :=
  file.path ≠ tmpPath file.path → ∀ bytes, start file.path = some bytes →
    (smudged = true → ∃ content, Becomes opens bytes content ∧ files file.path = some content) ∧
    (smudged = false → files file.path = some bytes ∧ (fails ∨ Remains opens bytes))

/-- Wherever the work on the file is interrupted, this has become of the files. -/
abbrev SmudgeSafe (blobs : GitOid → Option Bytes) (opens : Oid → Option Bytes → Prop) (fails : Prop)
    (lfs : Bytes → Bool) (file : IndexFile) (start : WorkFiles) (p : SmudgeProg Bool)
    (s : WorkFiles) : Prop :=
  p.run.Safe (SmudgeOp.exec blobs opens fails) (FileStep blobs opens lfs file start)
    (fun r s => ∀ smudged, r = .ok smudged → Outcome opens fails file start smudged s) s

theorem safe_pure {smudged : Bool} (hstep : FileStep blobs opens lfs file start files)
    (h : Outcome opens fails file start smudged files) :
    SmudgeSafe blobs opens fails lfs file start (pure smudged) files :=
  ⟨hstep, fun _ heq => Except.ok.inj heq ▸ h⟩

theorem FileStep.refl (start : WorkFiles) : FileStep blobs opens lfs file start start :=
  ⟨fun _ _ => rfl, fun _ => .refl _⟩

/-- The temporary file next to the file may be written. -/
theorem FileStep.temp (htracked : file.isTracked lfs)
    (h : FileStep blobs opens lfs file start files) (content : Option Bytes) :
    FileStep blobs opens lfs file start (Function.update files (tmpPath file.path) content) where
  others path hpath := by
    rw [Function.update_of_ne (hpath htracked).2]
    exact h.others path hpath
  self hne := by
    rw [Function.update_of_ne hne]
    exact h.self hne

/-- The file itself may be replaced. -/
theorem FileStep.replace (htracked : file.isTracked lfs)
    (h : FileStep blobs opens lfs file start files) {content : Option Bytes}
    (hcontent : Replaced blobs opens file (start file.path) content) :
    FileStep blobs opens lfs file start (Function.update files file.path content) where
  others path hpath := by
    rw [Function.update_of_ne (hpath htracked).1]
    exact h.others path hpath
  self _ := by rwa [Function.update_self]

/-- What stands in the file is not replaced, because of a failure or since it is no pointer. -/
theorem safe_remains {bytes : Bytes} (hbytes : start file.path = some bytes)
    (hstep : FileStep blobs opens lfs file start files)
    (hfile : file.path ≠ tmpPath file.path → files file.path = some bytes)
    (h : fails ∨ Remains opens bytes) :
    SmudgeSafe blobs opens fails lfs file start (pure false) files := by
  refine safe_pure hstep fun hne other hother => ⟨fun htrue => ?_, fun _ => ?_⟩
  · exact absurd htrue Bool.false_ne_true
  · obtain rfl := Option.some.inj (hbytes.symm.trans hother)
    exact ⟨hfile hne, h⟩

/-- Replacing the file puts the contents in its place or leaves it. -/
theorem safe_replaceFile (htracked : file.isTracked lfs) {bytes content : Bytes}
    {pointer : Pointer} (hbytes : start file.path = some bytes)
    (hparse : Pointer.parse bytes = .ok pointer) (hopen : opens pointer.oid (some content)) :
    SmudgeSafe blobs opens fails lfs file start (replaceFile file content) start := by
  let tmp := tmpPath file.path
  let Still (s : WorkFiles) : Prop :=
    FileStep blobs opens lfs file start s ∧ (file.path ≠ tmp → s file.path = some bytes)
  have hwrite {s : WorkFiles} (h : Still s) (data : Option Bytes) :
      Still (Function.update s tmp data) :=
    ⟨h.1.temp htracked _, fun hne => by rw [Function.update_of_ne hne]; exact h.2 hne⟩
  have hcleanUp {s : WorkFiles} (h : Still s) (hfails : fails) :
      SmudgeSafe blobs opens fails lfs file start (do
        ignoreError (attempt (SmudgeOp.removeFile tmp))
        return false) s := by
    refine safe_ignoreError_bind h.1 fun r s' hexec => ?_
    have h' : Still s' := by
      rcases hexec with ⟨-, rfl⟩ | ⟨-, rfl⟩
      · exact hwrite h none
      · exact h
    exact safe_remains hbytes h'.1 h'.2 (.inl hfails)
  have hdone {s : WorkFiles} (hstep : FileStep blobs opens lfs file start s)
      (hcontent : file.path ≠ tmp → s file.path = some content) :
      SmudgeSafe blobs opens fails lfs file start (pure true) s := by
    refine safe_pure hstep fun hne other hother => ⟨fun _ => ?_, fun hfalse => ?_⟩
    · obtain rfl := Option.some.inj (hbytes.symm.trans hother)
      exact ⟨content, ⟨pointer, hparse, hopen⟩, hcontent hne⟩
    · exact absurd hfalse.symm Bool.false_ne_true
  refine safe_asOption_bind (safe_attempt_bind (.refl _) ?_ ?_)
  swap
  · rintro _ s (⟨h, -⟩ | ⟨⟨-, hfails⟩, rfl⟩)
    · cases h
    · exact ⟨.refl _, hcleanUp ⟨.refl _, fun _ => hbytes⟩ hfails⟩
  rintro _ s (⟨-, rfl⟩ | ⟨⟨h, -⟩, -⟩)
  swap
  · cases h
  have hcreated := hwrite ⟨.refl start, fun _ => hbytes⟩ (some [])
  refine safe_attempt_bind hcreated.1 ?_ ?_
  swap
  · rintro _ s (⟨h, -⟩ | ⟨⟨-, hfails⟩, part, -, rfl⟩)
    · cases h
    · exact ⟨(hwrite hcreated _).1, hcleanUp (hwrite hcreated _) hfails⟩
  rintro _ s (⟨-, hs⟩ | ⟨⟨h, -⟩, -⟩)
  swap
  · cases h
  have hcopied : Still s := hs ▸ hwrite hcreated _
  have htmp : s tmp = some content := by
    rw [hs, Function.update_self, Function.update_self]
    rfl
  -- The file is synced and its permissions are set.
  refine safe_attempt_bind hcopied.1 ?_ ?_
  swap
  · rintro _ s (⟨h | ⟨-, hfails⟩, rfl⟩)
    · cases h
    · exact ⟨hcopied.1, hcleanUp hcopied hfails⟩
  rintro _ s ⟨-, rfl⟩
  refine safe_attempt_bind hcopied.1 ?_ ?_
  swap
  · rintro _ s (⟨h | ⟨-, hfails⟩, rfl⟩)
    · cases h
    · exact ⟨hcopied.1, hcleanUp hcopied hfails⟩
  rintro _ s ⟨-, rfl⟩
  refine ⟨hcopied.1, ?_⟩
  rintro r s' (⟨rfl, rfl⟩ | ⟨⟨rfl, hfails⟩, rfl⟩)
  · split_ifs with heq
    · exact ⟨hcopied.1, hdone hcopied.1 fun hne => absurd heq.symm hne⟩
    · have hplaced := (hcopied.1.replace htracked
        (show Replaced blobs opens file (start file.path) (s tmp) by
          rw [hbytes, htmp]; exact .content hparse hopen)).temp htracked none
      refine ⟨hplaced, hdone hplaced fun hne => ?_⟩
      rw [Function.update_of_ne hne, Function.update_self, htmp]
  · exact ⟨hcopied.1, hcleanUp hcopied hfails⟩

/-- A missing file becomes the pointer, or a part of it. -/
theorem safe_restoreFile (htracked : file.isTracked lfs) (hmissing : start file.path = none) :
    SmudgeSafe blobs opens fails lfs file start (restoreFile file) start := by
  have hdone {smudged : Bool} {s : WorkFiles} (h : FileStep blobs opens lfs file start s) :
      SmudgeSafe blobs opens fails lfs file start (pure smudged) s := by
    refine safe_pure h fun _ bytes hbytes => ?_
    rw [hmissing] at hbytes
    cases hbytes
  refine safe_look_bind (.refl _) ?_
  rintro r s ⟨⟨rfl, -⟩ | ⟨data, hdata, rfl⟩, rfl⟩
  · exact hdone (.refl _)
  change SmudgeSafe blobs opens fails lfs file s (if looksLikePointer data = true then _ else _) s
  split_ifs with hlooks
  · refine safe_ignoreError_bind (.refl _) ?_
    rintro _ s ⟨-, rfl⟩
    have hpart {part : Bytes} (hpart : part <+: data) :
        FileStep blobs opens lfs file s (Function.update s file.path (some part)) :=
      (FileStep.refl s).replace htracked (by rw [hmissing]; exact .stub hdata hlooks hpart)
    refine safe_look_bind (.refl _) ?_
    rintro r s' (⟨rfl, rfl⟩ | ⟨⟨rfl, -⟩, rfl | ⟨part, hprefix, rfl⟩⟩)
    · exact hdone (hpart (List.prefix_refl _))
    · exact hdone (.refl _)
    · exact hdone (hpart hprefix)
  · exact hdone (.refl _)

/-- The work on one file that is tracked. -/
theorem safe_smudgeFile (htracked : file.isTracked lfs) :
    SmudgeSafe blobs opens fails lfs file start (smudgeFile lfs file) start := by
  rw [smudgeFile, if_neg (by simpa using htracked)]
  refine safe_look_bind (.refl _) ?_
  rintro r s ⟨rfl, rfl⟩
  rcases hbytes : s file.path with _ | bytes
  · exact safe_restoreFile htracked hbytes
  have hremains := @safe_remains blobs opens fails lfs file s s bytes hbytes (.refl _) fun _ => hbytes
  change SmudgeSafe blobs opens fails lfs file s (if maxPointerBytes < bytes.length then _ else _) s
  split_ifs with hlarge
  · exact hremains (.inr fun pointer hparse =>
      absurd (parse_ok_iff.mp hparse).1.1 (not_le.mpr hlarge))
  refine safe_look_bind (.refl _) ?_
  rintro r s' ⟨⟨rfl, hfails⟩ | ⟨found, hfound, rfl⟩, rfl⟩
  · exact hremains (.inl hfails)
  obtain rfl := Option.some.inj (hfound.symm.trans hbytes)
  change SmudgeSafe blobs opens fails lfs file s' (if (!looksLikePointer found) = true then _ else _) s'
  split_ifs with hlooks
  · refine hremains (.inr fun pointer hparse => ?_)
    rw [looksLikePointer_of_parse hparse] at hlooks
    cases hlooks
  rcases hparse : Pointer.parse found with e | pointer
  · refine hremains (.inr fun pointer hpointer => ?_)
    rw [hparse] at hpointer
    cases hpointer
  refine safe_look_bind (.refl _) ?_
  rintro r s ⟨⟨rfl, hfails⟩ | ⟨_ | content, hopen, rfl⟩, rfl⟩
  · exact hremains (.inl hfails)
  · refine hremains (.inr fun other hother => ?_)
    obtain rfl := Except.ok.inj (hparse.symm.trans hother)
    exact hopen
  · exact safe_replaceFile htracked hbytes hparse hopen

end Files

/-! ### The files of the index -/

section Index

variable {blobs : GitOid → Option Bytes} {opens : Oid → Option Bytes → Prop} {fails : Prop}
  {lfs : Bytes → Bool} {index : List IndexFile} {start files : WorkFiles}

/-- The path is not that of a temporary file. -/
def NotTemp (lfs : Bytes → Bool) (index : List IndexFile) (path : Bytes) : Prop :=
  ∀ file ∈ index, file.isTracked lfs → path ≠ tmpPath file.path

/-- Apart from temporary files, only files of the index that are tracked have changed, and these
are not half written. -/
def Passed (blobs : GitOid → Option Bytes) (opens : Oid → Option Bytes → Prop)
    (lfs : Bytes → Bool) (index : List IndexFile) (start files : WorkFiles) : Prop :=
  ∀ path, NotTemp lfs index path → files path = start path ∨
    ∃ file ∈ index, file.isTracked lfs ∧ file.path = path ∧
      Replaced blobs opens file (start path) (files path)

/-- The pointers that were replaced are those that are reported; the others still stand there,
because of a failure if their objects are there. -/
def Reported (opens : Oid → Option Bytes → Prop) (fails : Prop) (lfs : Bytes → Bool)
    (index : List IndexFile) (start : WorkFiles) (smudged : List Bytes) (files : WorkFiles) :
    Prop :=
  smudged ⊆ index.map IndexFile.path ∧
    ∀ file ∈ index, file.isTracked lfs → NotTemp lfs index file.path →
      ∀ bytes, start file.path = some bytes →
        (file.path ∈ smudged → ∃ content, Becomes opens bytes content ∧
          files file.path = some content) ∧
        (file.path ∉ smudged → files file.path = some bytes ∧ (fails ∨ Remains opens bytes))

theorem NotTemp.tail {file : IndexFile} {path : Bytes} (h : NotTemp lfs (file :: index) path) :
    NotTemp lfs index path := fun other hother => h other (List.mem_cons_of_mem _ hother)

theorem Passed.refl (start : WorkFiles) : Passed blobs opens lfs index start start :=
  fun _ _ => .inl rfl

/-- The work on the first file and on the others. -/
theorem FileStep.passed {file : IndexFile} {between : WorkFiles}
    (hnew : file.path ∉ index.map IndexFile.path)
    (hfirst : FileStep blobs opens lfs file start between)
    (hrest : Passed blobs opens lfs index between files) :
    Passed blobs opens lfs (file :: index) start files := by
  intro path hpath
  by_cases hself : file.isTracked lfs ∧ path = file.path
  · obtain ⟨htracked, rfl⟩ := hself
    have hne := hpath file List.mem_cons_self htracked
    rcases hrest _ hpath.tail with heq | ⟨other, hother, -, heq, -⟩
    · exact .inr ⟨file, List.mem_cons_self, htracked, rfl, heq ▸ hfirst.self hne⟩
    · exact absurd (heq ▸ List.mem_map_of_mem hother) hnew
  · have hkept : between path = start path := hfirst.others path fun htracked =>
      ⟨fun heq => hself ⟨htracked, heq⟩, hpath file List.mem_cons_self htracked⟩
    rcases hrest _ hpath.tail with heq | ⟨other, hother, htracked, heq, hreplaced⟩
    · exact .inl (heq.trans hkept)
    · exact .inr ⟨other, List.mem_cons_of_mem _ hother, htracked, heq, hkept ▸ hreplaced⟩

theorem FileStep.reported {file : IndexFile} {between : WorkFiles} {smudged : Bool}
    {rest : List Bytes} (hnew : file.path ∉ index.map IndexFile.path)
    (hfirst : FileStep blobs opens lfs file start between)
    (houtcome : file.isTracked lfs → Outcome opens fails file start smudged between)
    (hpassed : Passed blobs opens lfs index between files)
    (hrest : Reported opens fails lfs index between rest files) :
    Reported opens fails lfs (file :: index) start ((if smudged then [file.path] else []) ++ rest)
      files := by
  have hnotMem : file.path ∉ rest := fun hmem => hnew (hrest.1 hmem)
  have hmem : file.path ∈ (if smudged then [file.path] else []) ++ rest ↔ smudged = true := by
    rw [List.mem_append, or_iff_left hnotMem]
    cases smudged <;> simp
  refine ⟨?_, fun other hother htracked htemp bytes hbytes => ?_⟩
  · rw [List.append_subset]
    refine ⟨?_, fun path hpath => List.mem_cons_of_mem _ (hrest.1 hpath)⟩
    split_ifs <;> simp
  rcases List.mem_cons.mp hother with rfl | hother
  · have hkept : files other.path = between other.path := by
      rcases hpassed _ htemp.tail with heq | ⟨same, hsame, -, heq, -⟩
      · exact heq
      · exact absurd (heq ▸ List.mem_map_of_mem hsame) hnew
    rw [hmem, hkept, Bool.not_eq_true]
    exact houtcome htracked (htemp other List.mem_cons_self htracked) bytes hbytes
  · have hne : other.path ≠ file.path := fun heq =>
      hnew (heq ▸ List.mem_map_of_mem hother)
    have hkept : between other.path = start other.path := hfirst.others _ fun htracked' =>
      ⟨hne, htemp file List.mem_cons_self htracked'⟩
    have hsame : other.path ∈ (if smudged then [file.path] else []) ++ rest ↔
        other.path ∈ rest := by
      cases smudged <;> simp [hne]
    rw [hsame]
    exact hrest.2 other hother htracked htemp.tail bytes (hkept.trans hbytes)

/-- The work on all files of the index. -/
theorem safe_smudgePointers (hpaths : (index.map IndexFile.path).Nodup) (start : WorkFiles) :
    (smudgePointers lfs index).run.Safe (SmudgeOp.exec blobs opens fails)
      (Passed blobs opens lfs index start)
      (fun r s => ∀ smudged, r = .ok smudged →
        Reported opens fails lfs index start smudged s) start := by
  induction index generalizing start with
  | nil =>
    refine ⟨.refl _, fun smudged heq => ?_⟩
    obtain rfl := Except.ok.inj heq
    exact ⟨List.Subset.refl _, fun file hfile => absurd hfile List.not_mem_nil⟩
  | cons file index ih =>
    rw [List.map_cons, List.nodup_cons] at hpaths
    obtain ⟨hnew, hpaths⟩ := hpaths
    have hfirst : (smudgeFile lfs file).run.Safe (SmudgeOp.exec blobs opens fails)
        (FileStep blobs opens lfs file start) (fun r s => ∀ smudged, r = .ok smudged →
          file.isTracked lfs → Outcome opens fails file start smudged s) start := by
      by_cases htracked : file.isTracked lfs
      · exact (safe_smudgeFile htracked).imp (fun _ h => h) fun _ _ _ h smudged heq _ =>
          h smudged heq
      · rw [smudgeFile, if_pos (by simpa using htracked)]
        exact ⟨.refl _, fun _ _ h => absurd h htracked⟩
    refine Prog.Safe.bind (hfirst.imp (fun s hs => hs.passed hnew (.refl s)) ?_)
    rintro (e | smudged) between hstep houtcome
    · exact ⟨hstep.passed hnew (.refl _), fun _ heq => by cases heq⟩
    refine Prog.Safe.bind ((ih hpaths between).imp (fun s hs => hstep.passed hnew hs) ?_)
    rintro (e | rest) s hpassed hreported
    · exact ⟨hstep.passed hnew hpassed, fun _ heq => by cases heq⟩
    refine ⟨hstep.passed hnew hpassed, fun all heq => ?_⟩
    obtain rfl := Except.ok.inj heq
    exact hstep.reported hnew (houtcome smudged rfl) hpassed (hreported rest rfl)

end Index

/-! ### Committing and checking out -/

/-- What opening an object may give, while others add objects to the store. -/
def Opens {ι : Type} (hash : Bytes → Oid) (store : StoreFiles ι) (oid : Oid)
    (object : Option Bytes) : Prop :=
  ∃ later, StoreCall.Kept hash store later ∧
    object = (later (objectPath oid)).map StoreFile.content

section RoundTrip

variable {ι : Type} {hash : Bytes → Oid} {who : ι} {store store' : StoreFiles ι} {data blob : Bytes}

/-- What a call amid the steps of others has done. -/
theorem program_amid {call : StoreCall} {r : call.Ret} (hsound : Sound hash store)
    (h : Prog.RunsAmid StoreOp.exec (StoreRely hash who) (call.program hash who).run store
      (.done (.ok r)) store') : Sound hash store' ∧ call.Done hash store r store' := by
  obtain ⟨hkept, P, hP, hmeets⟩ := h.meets
    (T := fun s s' => StoreCall.Kept hash store s → StoreCall.Kept hash store s')
    (fun _ hs => hs) (fun _ _ _ h h' hs => h' (h hs)) (fun _ _ hstep hs => hs.step hstep)
    (fun _ _ ⟨_, _, hstep⟩ hs => hs.step hstep)
    (StoreCall.triple_program call) ⟨hsound, fun _ h => h⟩
  exact ⟨(hkept ⟨hsound, fun _ h => h⟩).1, hmeets.2 _ hP⟩

/-- An object of the store can be opened, and has its hash. -/
theorem Opens.hash_eq {oid : Oid} {object : Option Bytes} (h : Opens hash store oid object)
    (hhas : Has store oid) : ∃ content, object = some content ∧ hash content = oid := by
  obtain ⟨later, ⟨hsound, hlater⟩, rfl⟩ := h
  obtain ⟨f, hf⟩ := Option.isSome_iff_exists.mp (hlater oid hhas)
  exact ⟨f.content, by rw [hf]; rfl, hsound oid f hf⟩

variable {P : Type} {globs : GlobLibrary P} {sources : AttrsSources P}
  {blobs : GitOid → Option Bytes} {fails : Prop} {lfs : Bytes → Bool} {index : List IndexFile}
  {file : IndexFile} {start files : WorkFiles} {smudged : List Bytes}

/-- A file that is no pointer itself and was committed as a blob, or as a pointer to its contents,
is the same after a checkout of that blob, up to contents with the same hash. Only where an
operation fails, it may still be the pointer. -/
theorem clean_smudge (hsound : Sound hash store) (hplain : ∀ p, Pointer.parse data ≠ .ok p)
    (hclean : Prog.RunsAmid StoreOp.exec (StoreRely hash who)
      ((sources.writeBlobWithPath globs data file.path).program hash who).run store
      (.done (.ok blob)) store')
    (hpaths : (index.map IndexFile.path).Nodup) (hfile : file ∈ index)
    (htracked : file.isTracked lfs) (htemp : NotTemp lfs index file.path)
    (hstart : start file.path = some blob)
    (hsmudge : Prog.Runs (SmudgeOp.exec blobs (Opens hash store') fails)
      (smudgePointers lfs index).run start (.done (.ok smudged)) files) :
    (∃ content, files file.path = some content ∧ (content = data ∨ hash content = hash data)) ∨
      (fails ∧ file.path ∉ smudged ∧ files file.path = some blob) := by
  obtain ⟨-, hdone⟩ := program_amid hsound hclean
  have hreported := (((safe_smudgePointers hpaths start).runs hsmudge).2 smudged rfl).2 file hfile
    htracked htemp blob hstart
  by_cases hmem : file.path ∈ smudged
  · obtain ⟨content, ⟨pointer, hparse, hopen⟩, hcontent⟩ := hreported.1 hmem
    rcases hdone with ⟨rfl, -⟩ | ⟨rfl, -, hhas⟩
    · exact absurd hparse (hplain pointer)
    · obtain rfl := Except.ok.inj ((parse_write _ _).symm.trans hparse)
      obtain ⟨content', heq, hhash⟩ := hopen.hash_eq hhas
      obtain rfl := Option.some.inj heq
      exact .inl ⟨content, hcontent, .inr hhash⟩
  · obtain ⟨hblob, hfails | hremains⟩ := hreported.2 hmem
    · exact .inr ⟨hfails, hmem, hblob⟩
    · rcases hdone with ⟨rfl, -⟩ | ⟨rfl, -, hhas⟩
      · exact .inl ⟨blob, hblob, .inl rfl⟩
      · obtain ⟨content, heq, -⟩ := (hremains _ (parse_write _ _)).hash_eq hhas
        cases heq

end RoundTrip

/-! ### A small worktree -/

def samplePath : Bytes := "a".toUTF8.toList

def sampleFile : IndexFile := ⟨samplePath, .blob, sampleBlob 1⟩

def sampleSources : AttrsSources Bytes := ⟨none, .ok sampleMatcher, none⟩

def samplePointer : Bytes := Pointer.write ⟨sampleHash [7, 8], 2, []⟩

/-- The pointer has been checked out. -/
def samplePointed : WorkFiles := Function.update (fun _ => none) samplePath (some samplePointer)

/-- The contents have taken its place. -/
def sampleSmudged : WorkFiles :=
  Function.update (Function.update (Function.update (Function.update samplePointed
    (tmpPath samplePath) (some [])) (tmpPath samplePath) (some [7, 8])) samplePath (some [7, 8]))
    (tmpPath samplePath) none

theorem samplePath_ne : samplePath ≠ tmpPath samplePath := by decide +kernel

/-- Where nothing fails, the pointer is replaced. -/
theorem sample_smudges {opens : Oid → Option Bytes → Prop} {blobs : GitOid → Option Bytes}
    (hopen : opens (sampleHash [7, 8]) (some [7, 8])) :
    Returns (SmudgeOp.exec blobs opens False)
      (smudgePointers (sampleMatcher.isLfs literalGlobs) [sampleFile]) samplePointed [samplePath]
      sampleSmudged := by
  have htracked : sampleFile.isTracked (sampleMatcher.isLfs literalGlobs) := by decide +kernel
  have hparse : Pointer.parse samplePointer = .ok ⟨sampleHash [7, 8], 2, []⟩ := parse_write _ _
  have hfile : samplePointed sampleFile.path = some samplePointer := Function.update_self ..
  have hlooked {op : SmudgeOp} {s s' : WorkFiles} {a : op.Ret}
      (h : SmudgeOp.exec blobs opens False op s (.ok a) s') :
      Returns (SmudgeOp.exec blobs opens False) (asOption (attempt op)) s (some a) s' :=
    returns_asOption.mpr ⟨.ok a, runs_attempt_done.mpr h, rfl⟩
  have hdid {op : SmudgeOp} {s s' : WorkFiles} {a : op.Ret}
      (h : SmudgeOp.exec blobs opens False op s (.ok a) s') :
      Returns (SmudgeOp.exec blobs opens False) (attempt op) s a s' := returns_attempt.mpr h
  have hreplace : Returns (SmudgeOp.exec blobs opens False) (replaceFile sampleFile [7, 8])
      samplePointed true sampleSmudged := by
    refine returns_bind.mpr ⟨some (), _, returns_asOption.mpr ⟨.ok (), ?_, rfl⟩,
      returns_pure.mpr ⟨rfl, rfl⟩⟩
    refine returns_bind.mpr ⟨(), _, hdid (.inl ⟨rfl, rfl⟩), ?_⟩
    refine returns_bind.mpr ⟨(), _, hdid (.inl ⟨rfl, rfl⟩), ?_⟩
    refine returns_bind.mpr ⟨(), _, hdid ⟨.inl rfl, rfl⟩, ?_⟩
    refine returns_bind.mpr ⟨(), _, hdid ⟨.inl rfl, rfl⟩, ?_⟩
    refine hdid (.inl ⟨rfl, ?_⟩)
    change sampleSmudged = if tmpPath samplePath = samplePath then _ else _
    rw [if_neg samplePath_ne.symm]
    simp [sampleSmudged, sampleFile]
  have hsmudge : Returns (SmudgeOp.exec blobs opens False)
      (smudgeFile (sampleMatcher.isLfs literalGlobs) sampleFile) samplePointed true
      sampleSmudged := by
    rw [smudgeFile, if_neg (by simp [htracked])]
    refine returns_bind.mpr ⟨some samplePointer.length, _, hlooked ⟨by rw [hfile]; rfl, rfl⟩, ?_⟩
    dsimp only
    rw [if_neg (not_lt.mpr (parse_ok_iff.mp hparse).1.1)]
    refine returns_bind.mpr ⟨some samplePointer, _, hlooked ⟨.inr ⟨_, hfile, rfl⟩, rfl⟩, ?_⟩
    dsimp only
    rw [if_neg (by simp [looksLikePointer_of_parse hparse]), hparse]
    exact returns_bind.mpr ⟨some (some [7, 8]), _, hlooked ⟨.inr ⟨_, hopen, rfl⟩, rfl⟩, hreplace⟩
  exact returns_bind.mpr ⟨true, _, hsmudge, returns_bind.mpr ⟨[], _, returns_pure.mpr ⟨rfl, rfl⟩,
    returns_pure.mpr ⟨rfl, rfl⟩⟩⟩

theorem sound_none : Sound sampleHash (fun _ => none : StoreFiles Bool) := fun _ _ h => by cases h

theorem sample_opens : Opens sampleHash sampleStored (sampleHash [7, 8]) (some [7, 8]) := by
  have hsound := (@program_amid _ _ true _ _ (.insertFromReader [.ok [7, 8]]) _ sound_none
    (Prog.Runs.amid sample_inserts)).1
  refine ⟨sampleStored, ⟨hsound, fun _ h => h⟩, ?_⟩
  rw [sampleStored, Function.update_of_ne (objectPath_ne_temp _ _), Function.update_self]
  rfl

/-- Two bytes are committed and come back. -/
theorem clean_smudge_sample :
    (∃ content, sampleSmudged sampleFile.path = some content ∧
        (content = [7, 8] ∨ sampleHash content = sampleHash [7, 8])) ∨
      (False ∧ sampleFile.path ∉ [samplePath] ∧
        sampleSmudged sampleFile.path = some samplePointer) := by
  have hplain : ∀ p, Pointer.parse [7, 8] ≠ .ok p := by
    have hparse : (Pointer.parse [7, 8]).isOk = false := by decide +kernel
    intro p hp
    rw [hp] at hparse
    cases hparse
  have hlfs : sampleSources.isLfs literalGlobs sampleFile.path = true := by decide +kernel
  have hcursor : cursor [7, 8] = [.ok [7, 8]] := by
    rw [cursor, if_neg (by decide), cursor, if_pos (by decide)]
    rfl
  have hclean : Returns StoreOp.exec
      ((sampleSources.writeBlobWithPath literalGlobs [7, 8] sampleFile.path).program sampleHash true)
      (fun _ => none) samplePointer sampleStored := by
    change Returns _ (cleanBlob sampleHash true _ [7, 8]) _ _ _
    rw [hlfs, cleanBlob, if_neg (by decide), if_neg (by decide), if_neg (by decide +kernel), hcursor]
    exact returns_bind.mpr ⟨(), _, returns_attempt.mpr ⟨.inl rfl, rfl⟩, returns_bind.mpr
      ⟨_, _, sample_inserts, returns_pure.mpr ⟨rfl, rfl⟩⟩⟩
  have htemp : NotTemp (sampleMatcher.isLfs literalGlobs) [sampleFile] sampleFile.path := by
    intro file hfile _
    rw [List.mem_singleton.mp hfile]
    exact samplePath_ne
  have hruns : Returns (SmudgeOp.exec (fun _ => none) (Opens sampleHash sampleStored) False)
      (smudgePointers (sampleMatcher.isLfs literalGlobs) [sampleFile]) samplePointed [samplePath]
      sampleSmudged := sample_smudges sample_opens
  exact clean_smudge sound_none hplain hclean.amid (by decide) List.mem_cons_self (by decide +kernel)
    htemp (Function.update_self ..) hruns

end Maw.Lfs
