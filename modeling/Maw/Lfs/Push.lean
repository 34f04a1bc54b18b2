import Maw.Lfs.NewCommits
import Maw.Lfs.Smudge

/-!
# The objects of a push

Before its commits are pushed, the LFS objects of their trees are uploaded. The objects are those
of the pointers in the trees of all new commits of the branch.

## Main definitions

* `PushRepo` — what a push reads of a repository.
* `PushRepo.objectsToUpload` — the objects that are collected for a push.

## Main results

* `PushRepo.objectsToUpload_exact` — the objects of all new commits are collected, and no others.
-/

namespace Maw.Lfs

/-- What a push reads of a repository. -/
structure PushRepo where
  objects : TreeRepo
  history : History
  isAncestor : GitOid → GitOid → Option Bool
  revParse : Bytes → Except Unit (Option GitOid)
  readConfig : Bytes → Except Unit (Option Bytes)

inductive PushError
  | resolve
  | commits (e : ListError)
  | readCommit (oid : GitOid)
  | scan (e : ScanError)
  deriving DecidableEq

namespace PushRepo

variable {P : Type} (globs : GlobLibrary P) (repo : PushRepo)

/-- The objects of the trees of commits. -/
def collectLfsObjects (fuel : ℕ) (commits : List GitOid) :
    Except PushError (FiniteMap Oid UInt64) :=
  commits.foldlM (fun out oid =>
    match repo.history.nodes.lookup oid with
    | none => throw (.readCommit oid)
    | some commit =>
      (repo.objects.collectFromTree globs fuel out commit.treeOid).mapError .scan) ∅

def optOutKey : Bytes := "lfs.push_before_git_push".toUTF8.toList

def falseName : Bytes := "false".toUTF8.toList

def asciiLower (b : UInt8) : UInt8 := if 0x41 ≤ b && b ≤ 0x5A then b + 0x20 else b

/-- Whether the upload is turned off. -/
def optsOut : Bool :=
  match repo.readConfig optOutKey with
  | .ok (some v) => v.map asciiLower = falseName || v = "0".toUTF8.toList
  | _ => false

def branchRef (branch : Bytes) : Bytes := "refs/heads/".toUTF8.toList ++ branch

def remoteRef (remote branch : Bytes) : Bytes :=
  "refs/remotes/".toUTF8.toList ++ remote ++ 0x2F :: branch

/-- The tip of the remote branch; one that cannot be looked up counts as missing. -/
def remoteTip (remote branch : Bytes) : Option GitOid :=
  match repo.revParse (remoteRef remote branch) with
  | .ok tip => tip
  | .error _ => none

/-- The objects to upload; none if the upload is turned off or there is no branch. -/
def objectsToUpload (fuel : ℕ) (branch remote : Bytes) :
    Except PushError (FiniteMap Oid UInt64) :=
  if repo.optsOut then pure ∅
  else
    match repo.revParse (branchRef branch) with
    | .error _ => throw .resolve
    | .ok none => pure ∅
    | .ok (some tip) => do
      let commits ← (commitsToPush repo.history repo.isAncestor tip
        (repo.remoteTip remote branch)).mapError .commits
      repo.collectLfsObjects globs fuel commits

/-! ### The objects to upload -/

section Objects

variable {globs repo} {fuel : ℕ} {branch remote : Bytes} {commits : List GitOid} {tip : GitOid}
  {objects : FiniteMap Oid UInt64} {oid : Oid}

/-- A commit has an LFS object in its tree. -/
def CommitHas (globs : GlobLibrary P) (repo : PushRepo) (commit : GitOid) (oid : Oid)
    (size : UInt64) : Prop :=
  ∃ obj, repo.history.nodes.lookup commit = some obj ∧
    repo.objects.HasObject globs obj.treeOid oid size

/-- The objects of the trees of commits are collected, and nothing else. -/
theorem collectLfsObjects_eq_ok (h : repo.collectLfsObjects globs fuel commits = .ok objects) :
    Gains (fun oid size => ∃ commit ∈ commits, CommitHas globs repo commit oid size) ∅ objects := by
  refine gains_foldlM (fun commit _ out out' hout => ?_) h
  rcases hcommit : repo.history.nodes.lookup commit with _ | obj
  · rw [hcommit] at hout
    cases hout
  · rw [hcommit] at hout
    refine (TreeRepo.collectFromTree_eq_ok (ExceptRun.mapError_eq_ok.mp hout)).congr ?_
    simp [CommitHas, hcommit]

/-- Collecting the objects of commits returns if their trees can be searched. -/
theorem exists_collectLfsObjects (h : ∀ commit ∈ commits, ∃ obj,
    repo.history.nodes.lookup commit = some obj ∧ repo.objects.Readable fuel obj.treeOid ∧
      repo.objects.AttrsParse globs obj.treeOid) :
    ∃ objects, repo.collectLfsObjects globs fuel commits = .ok objects := by
  refine ExceptRun.exists_foldlM (fun commit hcommit out => ?_) ∅
  obtain ⟨obj, hobj, hread, hattrs⟩ := h commit hcommit
  obtain ⟨out', hout'⟩ := TreeRepo.exists_collectFromTree hread hattrs out
  exact ⟨out', by rw [hobj]; exact ExceptRun.mapError_eq_ok.mpr hout'⟩

/-- The objects that are collected for a branch, unless the upload is turned off. -/
theorem objectsToUpload_eq_ok (htest : TestsAncestry repo.history repo.isAncestor)
    (hopt : repo.optsOut = false) (htip : repo.revParse (branchRef branch) = .ok (some tip))
    (h : repo.objectsToUpload globs fuel branch remote = .ok objects) :
    (∀ oid size, objects.lookup oid = some size → ∃ commit,
      IsNew repo.history tip (repo.remoteTip remote branch) commit ∧
        CommitHas globs repo commit oid size) ∧
    ∀ commit oid size, IsNew repo.history tip (repo.remoteTip remote branch) commit →
      CommitHas globs repo commit oid size → oid ∈ objects := by
  rw [objectsToUpload, hopt, if_neg Bool.false_ne_true, htip] at h
  obtain ⟨commits, hcommits, h⟩ := ExceptRun.bind_eq_ok.mp h
  rw [ExceptRun.mapError_eq_ok] at hcommits
  obtain ⟨seen, hwalked⟩ := walked_start.of_eq_ok htest hcommits
  have hgains := collectLfsObjects_eq_ok h
  refine ⟨fun oid size hoid => ?_, fun commit oid size hnew hhas => ?_⟩
  · obtain hnone | ⟨commit, hcommit, hhas⟩ := hgains.sound oid size hoid
    · simp at hnone
    · exact ⟨commit, hwalked.mem_iff.mp hcommit, hhas⟩
  · exact hgains.complete oid size ⟨commit, hwalked.mem_iff.mpr hnew, hhas⟩

end Objects

end PushRepo

/-! ### A small push -/

/-- A tree with a pointer and the file that says so. -/
def sampleTree : List WriteTree.TreeEntry :=
  [⟨gitattributes, .blob, sampleBlob 3⟩, ⟨Component.lit "asset.bin", .blob, sampleBlob 1⟩]

def sampleObjects : TreeRepo where
  trees := (∅ : WriteTree.TreeStore).insert (sampleBlob 2) sampleTree
  readBlob oid :=
    if oid = sampleBlob 3 then some "a filter=lfs\n".toUTF8.toList
    else if oid = sampleBlob 1 then some samplePointer
    else none
  distinct oid entries h := by
    rw [FiniteMap.lookup_insert] at h
    split_ifs at h
    · obtain rfl := Option.some.inj h
      decide
    · simp at h

/-- A branch with one commit that the remote does not have. -/
def samplePush : PushRepo where
  objects := sampleObjects
  history := NodeStore.empty.add (sampleBlob 4) ⟨sampleBlob 2, []⟩ (by decide) (by decide)
  isAncestor _ _ := none
  revParse name :=
    .ok (if name = PushRepo.branchRef samplePath then some (sampleBlob 4) else none)
  readConfig _ := .ok none

theorem sample_tests : TestsAncestry samplePush.history samplePush.isAncestor :=
  fun _ _ _ h => by cases h

end Maw.Lfs
