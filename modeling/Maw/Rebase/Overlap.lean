import Maw.Core.Conflict
import Maw.Merge.Apply
import Maw.Rebase.EpochDelta

/-!
# Overlaps of one path

The workspace and the epoch both changed a path. If all three versions are text and merge
without a conflicting hunk, the merged text settles the path; otherwise the path becomes a
conflict with both sides.

## Main definitions

* `ReplayContext` — what stays fixed over a rebase.
* `threeWayText` — the clean text merge of three blobs.
* `tryCleanThreeWayOverlap` — the settled entry of an overlap, if the merge is accepted.
* `upsertOverlap`, `deleteOverlap` — what an overlapping change does to its path.

## Main results

* `tryCleanThreeWayOverlap_eq_some` — an accepted merge is the clean text merge.
* `upsertOverlap_spec`, `deleteOverlap_spec` — the cases of an overlap.
-/

namespace Maw

/-- What stays fixed over the replay of a workspace: the repository, the workspace's name, the
old epoch, what the epoch changed and whether a suspicious merge is refused. -/
structure ReplayContext where
  repo : Repo
  wsName : String
  baseEpochId : EpochId
  delta : EpochDelta
  strict : Bool

/-- Why a replay step was given up. -/
inductive RebaseError
  | submoduleBump (path : Path) (workspace : GitOid) (epoch : Option GitOid)
  | submoduleDelete (path : Path) (epoch : GitOid)
  | readBlob (path : Path) (blob : GitOid)
  | writeBlob (path : Path)
  | extract (error : DiffExtractError)
  | apply (error : ApplyError)
  deriving DecidableEq, Repr

namespace ReplayContext

/-- The ordering key of every conflict side that a rebase makes. -/
def ordering (ctx : ReplayContext) (workspaceId : WorkspaceId) : OrderingKey :=
  ⟨ctx.baseEpochId, workspaceId, 0, 0⟩

/-- The file identity of a conflict: that of the change, or one made from its path. -/
def fileIdOf (ctx : ReplayContext) (change : FileChange) (seed : GitOid) : FileId :=
  change.fileId.getD (ctx.repo.mergeFileIdSeed seed change.path)

end ReplayContext

/-- The seed of content conflicts, forty digits `f`. -/
def contentSeed : GitOid := ⟨0xffffffffffffffffffffffffffffffffffffffff#160⟩

/-- The seed of conflicts where the epoch deleted the file, forty digits `d`. -/
def deletedSeed : GitOid := ⟨0xdddddddddddddddddddddddddddddddddddddddd#160⟩

/-- The seed of conflicts where the workspace deleted the file, forty digits `e`. -/
def workspaceDeletedSeed : GitOid := ⟨0xeeeeeeeeeeeeeeeeeeeeeeeeeeeeeeeeeeeeeeee#160⟩

/-- The mode of the workspace's side of a conflict. -/
def FileChange.sideMode (change : FileChange) : Option ConflictSideMode :=
  change.mode.bind EntryMode.toConflictSideMode

def readBlobByCoreOid (ctx : ReplayContext) (path : Path) (oid : GitOid) :
    Except RebaseError Bytes :=
  match ctx.repo.readBlob oid with
  | some bytes => pure bytes
  | none => throw (.readBlob path oid)

/-- The merged text of an overlap, before it is accepted: none when a version is not text or a
hunk conflicts. -/
def mergeOverlap (ctx : ReplayContext) (base epoch workspace : Bytes) : Option Bytes :=
  if !looksText base || !looksText epoch || !looksText workspace then none
  else
    match mergeText ctx.repo base epoch workspace "epoch" "base" ctx.wsName with
    | .clean merged => some merged
    | .conflict _ => none

/-- Merge an overlap, given the modes of the clean entry and of the workspace's change. -/
def tryCleanThreeWayOverlap (ctx : ReplayContext) (path : Path) (baseBlob : Option GitOid)
    (epochBlob workspaceBlob : GitOid) (epochMode workspaceMode : Option EntryMode) :
    Except RebaseError (Option MaterializedEntry) :=
  match baseBlob with
  | none => pure none
  | some baseBlob => do
    let base ← readBlobByCoreOid ctx path baseBlob
    let epoch ← readBlobByCoreOid ctx path epochBlob
    let workspace ← readBlobByCoreOid ctx path workspaceBlob
    match mergeOverlap ctx base epoch workspace with
    | none => pure none
    | some merged =>
      if !ctx.repo.postMergeSanity path base epoch workspace merged && ctx.strict then pure none
      else
        match ctx.repo.writeBlobWithPath merged path.treePath with
        | some oid => pure (some ⟨(epochMode.or workspaceMode).getD .blob, oid⟩)
        | none => throw (.writeBlob path)

/-- The blob of the clean text merge of three blobs at a path. -/
def threeWayText (ctx : ReplayContext) (path : Path) (base epoch workspace : GitOid) :
    Option GitOid := do
  let base ← ctx.repo.readBlob base
  let epoch ← ctx.repo.readBlob epoch
  let workspace ← ctx.repo.readBlob workspace
  let merged ← mergeOverlap ctx base epoch workspace
  ctx.repo.writeBlobWithPath merged path.treePath

theorem readBlobByCoreOid_eq_ok {ctx : ReplayContext} {path : Path} {oid : GitOid}
    {bytes : Bytes} :
    readBlobByCoreOid ctx path oid = .ok bytes ↔ ctx.repo.readBlob oid = some bytes := by
  unfold readBlobByCoreOid
  cases ctx.repo.readBlob oid <;> simp

/-- An accepted merge is the clean text merge of the three blobs, in the mode of the clean
entry, else in that of the change. -/
theorem tryCleanThreeWayOverlap_eq_some {ctx : ReplayContext} {path : Path}
    {baseBlob : Option GitOid} {epochBlob workspaceBlob : GitOid}
    {epochMode workspaceMode : Option EntryMode} {e : MaterializedEntry}
    (h : tryCleanThreeWayOverlap ctx path baseBlob epochBlob workspaceBlob epochMode
      workspaceMode = .ok (some e)) :
    (∃ base, baseBlob = some base ∧
        threeWayText ctx path base epochBlob workspaceBlob = some e.oid) ∧
      e.mode = (epochMode.or workspaceMode).getD .blob := by
  cases baseBlob with
  | none => simp [tryCleanThreeWayOverlap] at h
  | some baseBlob =>
    simp only [tryCleanThreeWayOverlap, ExceptRun.bind_eq_ok, readBlobByCoreOid_eq_ok] at h
    obtain ⟨base, hbase, epoch, hepoch, workspace, hworkspace, h⟩ := h
    cases hmerge : mergeOverlap ctx base epoch workspace with
    | none => simp [hmerge] at h
    | some merged =>
      simp only [hmerge] at h
      split_ifs at h
      · simp at h
      · cases hwrite : ctx.repo.writeBlobWithPath merged path.treePath with
        | none => simp [hwrite] at h
        | some oid =>
          simp only [hwrite, ExceptRun.pure_eq_ok, Option.some.injEq] at h
          subst h
          refine ⟨⟨baseBlob, rfl, ?_⟩, rfl⟩
          simp [threeWayText, hbase, hepoch, hworkspace, hmerge, hwrite]

/-! ### The change of one path -/

/-- What an overlapping change does: nothing, put its path in conflict, or settle its path and
leave the patch. -/
inductive OverlapAction
  | pass
  | contest (conflict : Conflict)
  | resolve (entry : MaterializedEntry)
  deriving DecidableEq

/-- The destination of an epoch rename from a deleted path: another live path whose old side is
the deleted blob. -/
def detectEpochRenameTarget (delta : EpochDelta) (deletedPath : Path)
    (refOldBlob : Option GitOid) : Option Path :=
  match refOldBlob with
  | none => none
  | some oldBlob =>
    delta.entries.findSome? fun ⟨candidate, sides⟩ =>
      if candidate = deletedPath then none
      else if sides.2.isNone then none
      else if sides.1 = some oldBlob then some candidate
      else none

section Overlap

variable (ctx : ReplayContext) (workspaceId : WorkspaceId) (change : FileChange)

/-- The conflict of a file that the workspace has and the epoch deleted. -/
def epochDeletedConflict (wsBlob : GitOid) (refOld : Option GitOid) : Conflict :=
  .modifyDelete change.path (ctx.fileIdOf change deletedSeed)
    (.withModeAndBase ctx.wsName wsBlob (ctx.ordering workspaceId) change.sideMode refOld)
    (.new "epoch" (refOld.getD wsBlob) (ctx.ordering workspaceId))
    wsBlob (detectEpochRenameTarget ctx.delta change.path refOld) none

/-- The conflict of two versions of a file. -/
def contentConflict (epochBlob wsBlob : GitOid) (refOld : Option GitOid) : Conflict :=
  .content change.path (ctx.fileIdOf change contentSeed) refOld
    [.withBase "epoch" epochBlob (ctx.ordering workspaceId) refOld,
      .withModeAndBase ctx.wsName wsBlob (ctx.ordering workspaceId) change.sideMode refOld]

/-- The conflict of a file that the epoch has and the workspace deleted. -/
def workspaceDeletedConflict (epochNew : GitOid) (refOld : Option GitOid) : Conflict :=
  .modifyDelete change.path (ctx.fileIdOf change workspaceDeletedSeed)
    (.new "epoch" epochNew (ctx.ordering workspaceId))
    (.new ctx.wsName (refOld.getD epochNew) (ctx.ordering workspaceId))
    epochNew none none

/-- An added or modified path that the epoch changed too. -/
def upsertOverlap (wsBlob : GitOid) (sides : DeltaSides) (epochMode : Option EntryMode) :
    Except RebaseError OverlapAction :=
  if sides.2 = some wsBlob then pure .pass
  -- The workspace has the old blob: the change is left in the patch all the same.
  else if sides.1 = some wsBlob then pure .pass
  else if change.mode = some .commit then throw (.submoduleBump change.path wsBlob sides.2)
  else
    match sides.2 with
    | none => pure (.contest (epochDeletedConflict ctx workspaceId change wsBlob sides.1))
    | some epochBlob => do
      let resolved ← tryCleanThreeWayOverlap ctx change.path sides.1 epochBlob wsBlob epochMode
        change.mode
      match resolved with
      | some entry => pure (.resolve entry)
      | none => pure (.contest (contentConflict ctx workspaceId change epochBlob wsBlob sides.1))

/-- A deleted path that the epoch changed too. -/
def deleteOverlap (sides : DeltaSides) : Except RebaseError OverlapAction :=
  match sides.2 with
  | none => pure .pass
  | some epochNew =>
    if change.mode = some .commit then throw (.submoduleDelete change.path epochNew)
    else pure (.contest (workspaceDeletedConflict ctx workspaceId change epochNew sides.1))

end Overlap

section OverlapSpec

variable {ctx : ReplayContext} {workspaceId : WorkspaceId} {change : FileChange}
  {sides : DeltaSides} {action : OverlapAction}

/-- The ways an overlapping addition or modification can go. -/
inductive UpsertOverlapCases (ctx : ReplayContext) (workspaceId : WorkspaceId)
    (change : FileChange) (wsBlob : GitOid) (sides : DeltaSides) (epochMode : Option EntryMode) :
    OverlapAction → Prop
  | same (h : sides.2 = some wsBlob) :
    UpsertOverlapCases ctx workspaceId change wsBlob sides epochMode .pass
  | reverted (hnew : sides.2 ≠ some wsBlob) (h : sides.1 = some wsBlob) :
    UpsertOverlapCases ctx workspaceId change wsBlob sides epochMode .pass
  | epochDeleted (hold : sides.1 ≠ some wsBlob) (h : sides.2 = none) :
    UpsertOverlapCases ctx workspaceId change wsBlob sides epochMode
      (.contest (epochDeletedConflict ctx workspaceId change wsBlob sides.1))
  | merged {epochBlob base : GitOid} {entry : MaterializedEntry}
      (hnew : sides.2 = some epochBlob) (hne : epochBlob ≠ wsBlob) (hold : sides.1 = some base)
      (hbase : base ≠ wsBlob)
      (hmerge : threeWayText ctx change.path base epochBlob wsBlob = some entry.oid)
      (hmode : entry.mode = (epochMode.or change.mode).getD .blob) :
    UpsertOverlapCases ctx workspaceId change wsBlob sides epochMode (.resolve entry)
  | conflict {epochBlob : GitOid} (hnew : sides.2 = some epochBlob) (hne : epochBlob ≠ wsBlob)
      (hold : sides.1 ≠ some wsBlob) :
    UpsertOverlapCases ctx workspaceId change wsBlob sides epochMode
      (.contest (contentConflict ctx workspaceId change epochBlob wsBlob sides.1))

theorem upsertOverlap_spec {wsBlob : GitOid} {epochMode : Option EntryMode}
    (h : upsertOverlap ctx workspaceId change wsBlob sides epochMode = .ok action) :
    UpsertOverlapCases ctx workspaceId change wsBlob sides epochMode action := by
  obtain ⟨refOld, refNew⟩ := sides
  unfold upsertOverlap at h
  split_ifs at h with hnew hold hmode
  · rw [ExceptRun.pure_eq_ok] at h
    exact h ▸ .same hnew
  · rw [ExceptRun.pure_eq_ok] at h
    exact h ▸ .reverted hnew hold
  · cases refNew with
    | none =>
      rw [ExceptRun.pure_eq_ok] at h
      exact h ▸ .epochDeleted hold rfl
    | some epochBlob =>
      have hne : epochBlob ≠ wsBlob := fun he => hnew (congrArg some he)
      simp only [ExceptRun.bind_eq_ok] at h
      obtain ⟨resolved, hresolved, h⟩ := h
      cases resolved with
      | none =>
        rw [ExceptRun.pure_eq_ok] at h
        exact h ▸ .conflict rfl hne hold
      | some entry =>
        rw [ExceptRun.pure_eq_ok] at h
        obtain ⟨⟨base, hbase, hmerge⟩, hentry⟩ := tryCleanThreeWayOverlap_eq_some hresolved
        obtain rfl : refOld = some base := hbase
        exact h ▸ .merged rfl hne rfl (fun he => hold (congrArg some he)) hmerge hentry

/-- The ways an overlapping deletion can go. -/
theorem deleteOverlap_spec (h : deleteOverlap ctx workspaceId change sides = .ok action) :
    (sides.2 = none ∧ action = .pass) ∨
      ∃ epochNew, sides.2 = some epochNew ∧
        action = .contest (workspaceDeletedConflict ctx workspaceId change epochNew sides.1) := by
  obtain ⟨refOld, refNew⟩ := sides
  unfold deleteOverlap at h
  cases refNew with
  | none =>
    rw [ExceptRun.pure_eq_ok] at h
    exact .inl ⟨rfl, h.symm⟩
  | some epochNew =>
    simp only at h
    split_ifs at h
    rw [ExceptRun.pure_eq_ok] at h
    exact .inr ⟨epochNew, rfl, h.symm⟩

end OverlapSpec

end Maw
