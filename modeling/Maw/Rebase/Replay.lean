import Maw.Rebase.Promote

/-!
# Replay of a workspace onto a new epoch

The replay starts from the tree of the new epoch and folds in the commits of the workspace. A
step promotes the overlaps of a commit, applies what is left of its patch, adds the sides of a
merge commit, and puts back the conflicts that the application collapsed.

## Main definitions

* `ReplayCommit`, `IsChain` — the commits of a workspace, and chains of them.
* `seedConflictTreeFromEpoch`, `replayStep`, `replay` — the replay.
* `StepAt` — what a step can make of one path.

## Main results

* `replayStep_at` — every step makes one of these of every path.
* `replay_induction` — the invariant rule for replays.
-/

open PointwiseFold

namespace Maw

/-- A commit of the workspace: its tree, its differences from its first parent, and those from
its other parents. -/
structure ReplayCommit where
  oid : GitOid
  tree : GitTree
  diff : List DiffEntry
  sides : List (List DiffEntry)

/-- The commits form a linear chain on a tree, and their differences are reported right. -/
def IsChain : GitTree → List ReplayCommit → Prop
  | _, [] => True
  | parent, c :: rest => IsDelta parent c.tree c.diff ∧ c.sides = [] ∧ IsChain c.tree rest

/-- All entries of the new epoch, over the old epoch. -/
def seedConflictTreeFromEpoch (newEpoch : GitTree) (baseEpoch : EpochId) : ConflictTree :=
  { ConflictTree.new baseEpoch with clean := newEpoch }

/-- Whether there are sides and all have one blob. -/
def sidesAllSame : List ConflictSide → Bool
  | [] => false
  | first :: rest => (first :: rest).all fun s => s.content = first.content

section MergeSides

variable (ctx : ReplayContext) (commit : GitOid) (parentIndex : Nat)

/-- Add one more parent's version of a path: it extends a content conflict, agrees with the clean
entry, or starts a conflict with it. -/
def injectMergeSide (patchWorkspace : WorkspaceId) (tree : ConflictTree) (change : FileChange) :
    ConflictTree :=
  match change.blob with
  | none => tree
  | some blob =>
    if change.isDeletion then tree
    else
      let ord : OrderingKey := ⟨tree.baseEpoch, patchWorkspace, parentIndex.toUInt64, 0⟩
      let newSide :=
        ConflictSide.new (ctx.wsName ++ "#merge-parent-" ++ toString parentIndex) blob ord
      match tree.conflicts.lookup change.path with
      | some (.content p fileId base sides) =>
        let sides := sides ++ [newSide]
        let taken := tree.removeConflict change.path
        if sidesAllSame sides then
          taken.insertClean p
            ⟨change.mode.getD .blob, (sides.head?.map (·.content)).getD blob⟩
        else taken.insertConflict (.content p fileId base sides)
      | some _ => tree
      | none =>
        let entry := tree.clean.lookup change.path
        let oursOid := (entry.map (·.oid)).getD blob
        if oursOid = blob then
          match entry with
          | some _ => tree
          | none => tree.insertClean change.path ⟨change.mode.getD .blob, oursOid⟩
        else
          let oursSide := ConflictSide.new (ctx.wsName ++ "#merge-parent-0") oursOid ord
          (tree.removeClean change.path).insertConflict
            (.content change.path (ctx.repo.mergeFileIdSeed commit change.path) (some oursOid)
              [oursSide, newSide])

def injectMergeSideConflicts (tree : ConflictTree) (sidePatch : PatchSet) : ConflictTree :=
  sidePatch.changes.foldl (injectMergeSide ctx commit parentIndex sidePatch.workspaceId) tree

end MergeSides

/-- Put back the conflicts of the snapshot that are no longer in the tree, in place of the clean
entries they collapsed to. -/
def restoreConflicts (snapshot tree : ConflictTree) : ConflictTree where
  clean := tree.clean.filterKeys fun p => ¬ (p ∈ snapshot.conflicts ∧ p ∉ tree.conflicts)
  conflicts := tree.conflicts ∪ snapshot.conflicts
  baseEpoch := tree.baseEpoch
  keyed p c h := by
    rw [FiniteMap.lookup_union, Option.or_eq_some_iff] at h
    rcases h with h | ⟨-, h⟩
    · exact tree.keyed p c h
    · exact snapshot.keyed p c h

section Step

variable (ctx : ReplayContext)

def liftExtract {α : Type} : Except DiffExtractError α → Except RebaseError α :=
  Except.mapError .extract

/-- The patch of the workspace for a report of differences. -/
def workspacePatch (diff : List DiffEntry) : Except RebaseError PatchSet :=
  liftExtract (diffPatchset ctx.repo diff ⟨ctx.wsName⟩ ctx.baseEpochId)

/-- Add the sides of a merge commit, numbered from one. -/
def injectSides (tree : ConflictTree) (commit : ReplayCommit) :
    Except RebaseError ConflictTree :=
  (commit.sides.zipIdx 1).foldlM (fun tree side => do
    let sidePatch ← workspacePatch ctx side.1
    pure (injectMergeSideConflicts ctx commit.oid side.2 tree sidePatch)) tree

/-- Replay one commit: the conflict tree it leaves, before that is rendered and written. -/
def replayStep (state : ConflictTree) (commit : ReplayCommit) :
    Except RebaseError ConflictTree := do
  let patch ← workspacePatch ctx commit.diff
  let promoted ← promoteOverlapsToConflicts ctx state patch
  let applied ← (applyUnilateralPatchset promoted.1 promoted.2).mapError .apply
  let merged ← injectSides ctx applied commit
  if promoted.1.hasConflicts then pure (restoreConflicts promoted.1 merged)
  else pure merged

/-- Replay the commits of a workspace onto a new epoch. -/
def replay (newEpoch : GitTree) (commits : List ReplayCommit) : Except RebaseError ConflictTree :=
  commits.foldlM (replayStep ctx) (seedConflictTreeFromEpoch newEpoch ctx.baseEpochId)

end Step

/-! ### A step at one path -/

section StepAt

open ConflictTree

/-- What restoring makes of a path: `before` is its slot in the snapshot. -/
def restoreSlot (before after : Slot) : Slot where
  clean := if before.conflict ≠ none ∧ after.conflict = none then none else after.clean
  conflict := after.conflict.or before.conflict

theorem restoreSlot_of_settled {before after : Slot} (h : before.conflict = none) :
    restoreSlot before after = after := by
  simp [restoreSlot, h]

theorem slot_restoreConflicts (snapshot tree : ConflictTree) (p : Path) :
    (restoreConflicts snapshot tree).slot p = restoreSlot (snapshot.slot p) (tree.slot p) := by
  have hmem (t : ConflictTree) : p ∈ t.conflicts ↔ t.conflicts.lookup p ≠ none := by
    simp [Finmap.lookup_eq_none]
  simp only [restoreConflicts, slot, restoreSlot, FiniteMap.lookup_filterKeys,
    FiniteMap.lookup_union, hmem, not_not]
  by_cases h : snapshot.conflicts.lookup p ≠ none ∧ tree.conflicts.lookup p = none <;> simp [h]

/-- A conflict after an application that kept it: the modifier of a deleted file takes the blob
of the change. -/
def FileChange.refresh (change : FileChange) : Conflict → Conflict
  | .modifyDelete p f modifier deleter content renameHint dfHint =>
    match change.kind, change.blob with
    | .deleted, _ | _, none => .modifyDelete p f modifier deleter content renameHint dfHint
    | _, some blob =>
      .modifyDelete p f { modifier with content := blob } deleter blob renameHint dfHint
  | conflict => conflict

/-- What one step can make of one path. -/
inductive StepAt (ctx : ReplayContext) (patch : PatchSet) (p : Path) (s : Slot) : Slot → Prop
  | untouched (item : itemAt (·.path) patch.changes p = none) :
    StepAt ctx patch p s ⟨cleared ctx patch p s.clean, s.conflict⟩
  | renamed {change : FileChange} {res : RenameResolution}
      (item : itemAt (·.path) patch.changes p = some change)
      (plan : renameResolution ctx patch.workspaceId (collectRenamePairs patch) change =
        some res) :
    StepAt ctx patch p s ⟨cleared ctx patch p res.slot.clean, res.slot.conflict⟩
  | clash {change : FileChange} {wsBlob : GitOid} {claim : DfClaim}
      (item : itemAt (·.path) patch.changes p = some change)
      (found : dfClaimOf ctx (collectRenamePairs patch) change = some (wsBlob, claim)) :
    StepAt ctx patch p s ⟨cleared ctx patch p s.clean,
      some (dfConflict ctx patch.workspaceId change wsBlob claim)⟩
  | contested {change : FileChange} {conflict : Conflict}
      (item : itemAt (·.path) patch.changes p = some change)
      (found : dfClaimOf ctx (collectRenamePairs patch) change = none)
      (action : ActionCases ctx patch.workspaceId (collectRenamePairs patch) change
        ((cleared ctx patch p s.clean).map (·.mode)) (.contest conflict)) :
    StepAt ctx patch p s ⟨none, some conflict⟩
  | resolved {change : FileChange} {entry : MaterializedEntry}
      (item : itemAt (·.path) patch.changes p = some change)
      (found : dfClaimOf ctx (collectRenamePairs patch) change = none)
      (action : ActionCases ctx patch.workspaceId (collectRenamePairs patch) change
        ((cleared ctx patch p s.clean).map (·.mode)) (.resolve entry)) :
    StepAt ctx patch p s ⟨some entry, none⟩
  | applied {change : FileChange} {s' : Slot}
      (item : itemAt (·.path) patch.changes p = some change)
      (plan : renameResolution ctx patch.workspaceId (collectRenamePairs patch) change = none)
      (found : dfClaimOf ctx (collectRenamePairs patch) change = none)
      (reason : PassReason ctx (collectRenamePairs patch) change)
      (settled : s.conflict = none)
      (slot : settledSlot change (cleared ctx patch p s.clean) = .ok s') :
    StepAt ctx patch p s s'
  | kept {change : FileChange} {conflict : Conflict} {entry : Option MaterializedEntry}
      (item : itemAt (·.path) patch.changes p = some change)
      (plan : renameResolution ctx patch.workspaceId (collectRenamePairs patch) change = none)
      (found : dfClaimOf ctx (collectRenamePairs patch) change = none)
      (reason : PassReason ctx (collectRenamePairs patch) change)
      (contested : s.conflict = some conflict)
      (clean : entry = none ∨ entry = cleared ctx patch p s.clean) :
    StepAt ctx patch p s ⟨entry, some (change.refresh conflict)⟩

/-- Applying a change to a contested path and restoring keeps the conflict, refreshed. -/
private theorem restoreSlot_contestedSlot {change : FileChange} {entry : Option MaterializedEntry}
    {after : Slot} {conflict : Conflict}
    (h : contestedSlot change entry conflict = .ok after) :
    ∃ entry', restoreSlot ⟨entry, some conflict⟩ after = ⟨entry', some (change.refresh conflict)⟩ ∧
      (entry' = none ∨ entry' = entry) := by
  have hdissolved (e : Option MaterializedEntry) :
      restoreSlot ⟨entry, some conflict⟩ ⟨e, none⟩ = ⟨none, some conflict⟩ := rfl
  cases conflict with
  | content q f base sides =>
    cases hk : change.kind with
    | deleted =>
      simp only [contestedSlot, hk, ExceptRun.pure_eq_ok] at h
      exact ⟨none, h ▸ hdissolved _, .inl rfl⟩
    | _ =>
      simp only [contestedSlot, hk, ExceptRun.bind_eq_ok] at h
      obtain ⟨blob, -, h⟩ := h
      split_ifs at h with hsides
      · rw [ExceptRun.pure_eq_ok] at h
        exact ⟨entry, by rw [← h, hsides]; rfl, .inr rfl⟩
      · rw [ExceptRun.pure_eq_ok] at h
        exact ⟨none, h ▸ hdissolved _, .inl rfl⟩
  | addAdd q sides =>
    cases hk : change.kind with
    | deleted =>
      simp only [contestedSlot, hk, ExceptRun.pure_eq_ok] at h
      exact ⟨none, h ▸ hdissolved _, .inl rfl⟩
    | modified => simp [contestedSlot, hk] at h
    | added =>
      simp only [contestedSlot, hk, ExceptRun.bind_eq_ok] at h
      obtain ⟨blob, -, h⟩ := h
      split_ifs at h with hsides
      · rw [ExceptRun.pure_eq_ok] at h
        exact ⟨entry, by rw [← h, hsides]; rfl, .inr rfl⟩
      · rw [ExceptRun.pure_eq_ok] at h
        exact ⟨none, h ▸ hdissolved _, .inl rfl⟩
  | modifyDelete q f modifier deleter content renameHint dfHint =>
    cases hk : change.kind with
    | deleted =>
      simp only [contestedSlot, hk, ExceptRun.pure_eq_ok] at h
      refine ⟨none, ?_, .inl rfl⟩
      rw [← h, hdissolved, FileChange.refresh, hk]
    | _ =>
      simp only [contestedSlot, hk, ExceptRun.bind_eq_ok, requireBlob_eq_ok,
        ExceptRun.pure_eq_ok] at h
      obtain ⟨blob, hblob, rfl⟩ := h
      refine ⟨entry, ?_, .inr rfl⟩
      rw [FileChange.refresh, hk, hblob]
      rfl
  | divergentRename f original destinations => simp [contestedSlot] at h

/-- Every conflict of the last pass comes through application and restoring as it was made. -/
private theorem restoreSlot_of_contest {ctx : ReplayContext} {workspaceId : WorkspaceId}
    {pairs : RenamePairs} {change : FileChange} {epochMode : Option EntryMode}
    {conflict : Conflict} {after : Slot}
    (action : ActionCases ctx workspaceId pairs change epochMode (.contest conflict))
    (h : contestedSlot change none conflict = .ok after) :
    restoreSlot ⟨none, some conflict⟩ after = ⟨none, some conflict⟩ := by
  obtain ⟨entry', hrestore, hentry⟩ := restoreSlot_contestedSlot h
  have hrefresh : change.refresh conflict = conflict := by
    cases action with
    | epochDeleted kind _ blob =>
      cases hk : change.kind with
      | deleted => exact absurd hk kind
      | _ =>
        rw [epochDeletedConflict, FileChange.refresh, hk, blob]
        rfl
    | content => rfl
    | workspaceDeleted kind =>
      rw [workspaceDeletedConflict, FileChange.refresh, kind]
  rw [hrestore, hrefresh, or_self_iff.mp hentry]

/-- A patch of the workspace between two trees: one right change for each path at which they
differ. -/
structure IsPatch (ctx : ReplayContext) (parent tree : GitTree) (patch : PatchSet) : Prop where
  workspaceId : patch.workspaceId = ⟨ctx.wsName⟩
  epoch : patch.epoch = ctx.baseEpochId
  nodup : (patch.changes.map (·.path)).Nodup
  reflects : ∀ c ∈ patch.changes, c.Reflects parent tree
  item_eq_none : ∀ p, itemAt (·.path) patch.changes p = none ↔ parent.lookup p = tree.lookup p

theorem isPatch_of_workspacePatch {ctx : ReplayContext} {parent tree : GitTree}
    {diff : List DiffEntry} {patch : PatchSet} (hd : IsDelta parent tree diff)
    (h : workspacePatch ctx diff = .ok patch) : IsPatch ctx parent tree patch := by
  rw [workspacePatch, liftExtract, ExceptRun.mapError_eq_ok] at h
  exact {
    workspaceId := diffPatchset_workspaceId h
    epoch := diffPatchset_epoch h
    nodup := diffPatchset_nodup hd h
    reflects := fun _ => diffPatchset_reflects hd h
    item_eq_none := diffPatchset_itemAt_eq_none hd h }

section Patch

variable {ctx : ReplayContext} {parent tree : GitTree} {patch : PatchSet} {change : FileChange}
  (hpatch : IsPatch ctx parent tree patch) (hmem : change ∈ patch.changes)

include hpatch hmem

theorem IsPatch.lookup_of_deleted (hkind : change.kind = .deleted) :
    tree.lookup change.path = none := by
  cases hpatch.reflects change hmem with
  | deleted _ _ hnew => exact hnew
  | added kind | modified kind | renamedTo kind => simp [hkind] at kind

theorem IsPatch.lookup_of_upsert (hkind : change.kind ≠ .deleted) :
    ∃ mode blob, change.mode = some mode ∧ change.blob = some blob ∧
      tree.lookup change.path = some ⟨mode, blob⟩ := by
  cases hpatch.reflects change hmem with
  | deleted kind => exact absurd kind hkind
  | added _ _ hnew blob mode | modified _ _ hnew _ blob mode | renamedTo _ _ hnew _ _ blob mode =>
    exact ⟨_, _, mode, blob, hnew⟩

/-- A change applied to a path that is not in conflict leaves the entry of the commit's tree. -/
theorem IsPatch.settledSlot_eq {entry : Option MaterializedEntry} {s : ConflictTree.Slot}
    (h : settledSlot change entry = .ok s) : s = ⟨tree.lookup change.path, none⟩ := by
  by_cases hkind : change.kind = .deleted
  · rw [settledSlot_of_deleted hkind h, hpatch.lookup_of_deleted hmem hkind]
  · obtain ⟨blob, mode, hblob, rfl, hmode⟩ := settledSlot_of_upsert hkind h
    obtain ⟨mode', blob', hmode', hblob', htree⟩ := hpatch.lookup_of_upsert hmem hkind
    rw [htree, hmode mode' hmode', Option.some.inj (hblob.symm.trans hblob')]

theorem IsPatch.lookup_ne : parent.lookup change.path ≠ tree.lookup change.path := by
  intro heq
  exact itemAt_eq_none.mp ((hpatch.item_eq_none change.path).mpr heq)
    (List.mem_map_of_mem hmem)

end Patch

theorem stepAt_of_promotedAt {ctx : ReplayContext} {patch : PatchSet} {p : Path}
    {s promoted applied : Slot} {rest : Option FileChange}
    (hpromoted : PromotedAt ctx patch p s promoted rest)
    (happlied : rest.elim (applied = promoted) fun c => applySlot c promoted = .ok applied) :
    StepAt ctx patch p s (restoreSlot promoted applied) := by
  have hsame {s : Slot} : restoreSlot s s = s := by
    obtain ⟨clean, conflict⟩ := s
    cases conflict <;> rfl
  cases hpromoted with
  | untouched item =>
    rw [Option.elim_none] at happlied
    rw [happlied, hsame]
    exact .untouched item
  | renamed item plan =>
    rw [Option.elim_none] at happlied
    rw [happlied, hsame]
    exact .renamed item plan
  | clash item found =>
    rw [Option.elim_none] at happlied
    rw [happlied, hsame]
    exact .clash item found
  | resolved item found action =>
    rw [Option.elim_none] at happlied
    rw [happlied, hsame]
    exact .resolved item found action
  | contested item found action =>
    rw [Option.elim_some, applySlot_of_some rfl] at happlied
    rw [restoreSlot_of_contest action happlied]
    exact .contested item found action
  | passed item plan found reason =>
    rw [Option.elim_some] at happlied
    cases hconflict : s.conflict with
    | none =>
      rw [hconflict, applySlot_of_none rfl] at happlied
      rw [restoreSlot_of_settled rfl]
      exact .applied item plan found reason hconflict happlied
    | some conflict =>
      rw [hconflict, applySlot_of_some rfl] at happlied
      obtain ⟨entry, hrestore, hentry⟩ := restoreSlot_contestedSlot happlied
      rw [hrestore]
      exact .kept item plan found reason hconflict hentry

/-- A path that the patch leaves alone only loses its clean entry, to a clash. -/
theorem StepAt.of_untouched {ctx : ReplayContext} {patch : PatchSet} {p : Path} {s s' : Slot}
    (hitem : itemAt (·.path) patch.changes p = none) (h : StepAt ctx patch p s s') :
    s' = ⟨cleared ctx patch p s.clean, s.conflict⟩ := by
  cases h with
  | untouched => rfl
  | renamed item | clash item | contested item | resolved item | applied item | kept item =>
    rw [hitem] at item
    cases item

section Inversion

variable {ctx : ReplayContext} {patch : PatchSet} {s s' : Slot} {change : FileChange}
  (hnodup : (patch.changes.map (·.path)).Nodup) (hmem : change ∈ patch.changes)

include hnodup hmem in
theorem eq_of_itemAt {c : FileChange}
    (item : itemAt (·.path) patch.changes change.path = some c) : c = change :=
  Option.some.inj
    (item.symm.trans (itemAt_of_mem (fun c : FileChange => c.path) hnodup hmem))

include hmem in
theorem itemAt_ne_none :
    itemAt (·.path) patch.changes change.path ≠ none := fun h =>
  itemAt_eq_none.mp h (List.mem_map_of_mem hmem)

include hnodup hmem in
/-- At the path of a change that clashes, a step files the clash. -/
theorem StepAt.of_clash {wsBlob : GitOid} {claim : DfClaim}
    (hfound : dfClaimOf ctx (collectRenamePairs patch) change = some (wsBlob, claim))
    (h : StepAt ctx patch change.path s s') :
    s' = ⟨cleared ctx patch change.path s.clean,
      some (dfConflict ctx patch.workspaceId change wsBlob claim)⟩ := by
  cases h with
  | untouched item => exact absurd item (itemAt_ne_none hmem)
  | renamed item plan =>
    obtain rfl := eq_of_itemAt hnodup hmem item
    rw [renameResolution_of_dfClaimOf hfound] at plan
    cases plan
  | clash item found =>
    obtain rfl := eq_of_itemAt hnodup hmem item
    rw [hfound] at found
    cases found
    rfl
  | contested item found | resolved item found | applied item _ found | kept item _ found =>
    obtain rfl := eq_of_itemAt hnodup hmem item
    rw [hfound] at found
    cases found

include hnodup hmem in
/-- At a planned rename destination, a step carries out the plan. -/
theorem StepAt.of_plan {res : RenameResolution}
    (hplan : renameResolution ctx patch.workspaceId (collectRenamePairs patch) change = some res)
    (h : StepAt ctx patch change.path s s') :
    s' = ⟨cleared ctx patch change.path res.slot.clean, res.slot.conflict⟩ := by
  obtain ⟨hkind, _, source, _, _, -, hsource, -⟩ := renameResolution_eq_some.mp hplan
  have hupsert : change.kind ≠ .deleted := by simp [hkind]
  cases h with
  | untouched item => exact absurd item (itemAt_ne_none hmem)
  | renamed item plan =>
    obtain rfl := eq_of_itemAt hnodup hmem item
    rw [hplan] at plan
    cases plan
    rfl
  | clash item found =>
    obtain rfl := eq_of_itemAt hnodup hmem item
    rw [renameResolution_of_dfClaimOf found] at hplan
    cases hplan
  | contested item found action =>
    obtain rfl := eq_of_itemAt hnodup hmem item
    cases action with
    | epochDeleted kind pair | content kind pair => simp [hsource] at pair
    | workspaceDeleted kind => exact absurd kind hupsert
  | resolved item found action =>
    obtain rfl := eq_of_itemAt hnodup hmem item
    cases action with
    | merged kind pair => simp [hsource] at pair
  | applied item plan | kept item plan =>
    obtain rfl := eq_of_itemAt hnodup hmem item
    rw [hplan] at plan
    cases plan

end Inversion

variable {ctx : ReplayContext} {state state' : ConflictTree} {commit : ReplayCommit}
  {parent : GitTree}

/-- A step over a commit with one parent makes of every path what its patch says. -/
theorem replayStep_at (hd : IsDelta parent commit.tree commit.diff) (hsides : commit.sides = [])
    (h : replayStep ctx state commit = .ok state') :
    ∃ patch, workspacePatch ctx commit.diff = .ok patch ∧
      IsPatch ctx parent commit.tree patch ∧
      ∀ p, StepAt ctx patch p (state.slot p) (state'.slot p) := by
  simp only [replayStep, ExceptRun.bind_eq_ok, ExceptRun.mapError_eq_ok] at h
  obtain ⟨patch, hpatch, ⟨promoted, rest⟩, hpromote, applied, happly, merged, hmerge, h⟩ := h
  have hisPatch := isPatch_of_workspacePatch hd hpatch
  simp only [injectSides, hsides, List.zipIdx_nil, List.foldlM_nil, ExceptRun.pure_eq_ok] at hmerge
  subst hmerge
  refine ⟨patch, hpatch, hisPatch, fun p => ?_⟩
  have hslot : state'.slot p = restoreSlot (promoted.slot p) (applied.slot p) := by
    split_ifs at h with hconflicts
    · rw [ExceptRun.pure_eq_ok] at h
      rw [← h, slot_restoreConflicts]
    · rw [ExceptRun.pure_eq_ok] at h
      have hnone : promoted.conflicts = ∅ := by simpa [hasConflicts] using hconflicts
      have hbefore : (promoted.slot p).conflict = none := by
        rw [slot_conflict, hnone, Finmap.lookup_empty]
      rw [← h, restoreSlot_of_settled hbefore]
  rw [hslot]
  refine stepAt_of_promotedAt (promoteOverlapsToConflicts_at hisPatch.nodup hpromote p) ?_
  exact applyUnilateralPatchset_slot (promoteOverlapsToConflicts_nodup hisPatch.nodup hpromote)
    happly p

end StepAt

/-! ### Runs -/

section Run

/-- The tree of the last commit of a chain on `parent`. -/
def headTree : GitTree → List ReplayCommit → GitTree
  | parent, [] => parent
  | _, c :: rest => headTree c.tree rest

/-- Every step of a run has a property of the parent's tree, the state before it and its
commit. -/
def StepsMeet (ctx : ReplayContext) (cond : GitTree → ConflictTree → ReplayCommit → Prop) :
    GitTree → ConflictTree → List ReplayCommit → Prop
  | _, _, [] => True
  | parent, state, c :: rest =>
    cond parent state c ∧
      ∀ state', replayStep ctx state c = .ok state' → StepsMeet ctx cond c.tree state' rest

variable {ctx : ReplayContext} {cond : GitTree → ConflictTree → ReplayCommit → Prop}

theorem IsChain.left : ∀ {before after : List ReplayCommit} {parent : GitTree},
    IsChain parent (before ++ after) → IsChain parent before
  | [], _, _, _ => trivial
  | _ :: _, _, _, ⟨hd, hsides, hrest⟩ => ⟨hd, hsides, hrest.left⟩

theorem StepsMeet.left : ∀ {before after : List ReplayCommit} {parent : GitTree}
    {state : ConflictTree}, StepsMeet ctx cond parent state (before ++ after) →
      StepsMeet ctx cond parent state before
  | [], _, _, _, _ => trivial
  | _ :: _, _, _, _, ⟨hcond, hrest⟩ => ⟨hcond, fun state' hs => (hrest state' hs).left⟩

/-- A property of all commits of a run is met by its steps. -/
theorem StepsMeet.and_forall {P : ReplayCommit → Prop} :
    ∀ {commits : List ReplayCommit} {parent : GitTree} {state : ConflictTree},
      StepsMeet ctx cond parent state commits → (∀ c ∈ commits, P c) →
      StepsMeet ctx (fun parent state c => cond parent state c ∧ P c) parent state commits
  | [], _, _, _, _ => trivial
  | c :: _, _, _, ⟨hcond, hrest⟩, hP =>
    ⟨⟨hcond, hP c List.mem_cons_self⟩, fun state' hs =>
      (hrest state' hs).and_forall fun c' hc' => hP c' (List.mem_cons_of_mem c hc')⟩

/-- What every step preserves holds at the end of a run. The property may speak of the commits
that have been replayed. -/
theorem replay_induction (inv : List ReplayCommit → GitTree → ConflictTree → Prop)
    (hstep : ∀ {replayed parent state commit state' patch}, inv replayed parent state →
      cond parent state commit → workspacePatch ctx commit.diff = .ok patch →
      IsPatch ctx parent commit.tree patch → replayStep ctx state commit = .ok state' →
      (∀ p, StepAt ctx patch p (state.slot p) (state'.slot p)) →
      inv (replayed ++ [commit]) commit.tree state') :
    ∀ (replayed : List ReplayCommit) {commits : List ReplayCommit} {parent : GitTree}
      {state final : ConflictTree},
      IsChain parent commits → StepsMeet ctx cond parent state commits →
      inv replayed parent state → commits.foldlM (replayStep ctx) state = .ok final →
      inv (replayed ++ commits) (headTree parent commits) final
  | replayed, [], parent, state, final, _, _, hinv, hrun => by
    rw [List.foldlM_nil, ExceptRun.pure_eq_ok] at hrun
    rw [List.append_nil]
    exact hrun ▸ hinv
  | replayed, c :: rest, parent, state, final, hchain, hmeet, hinv, hrun => by
    rw [List.foldlM_cons, ExceptRun.bind_eq_ok] at hrun
    obtain ⟨state', hs, hrun⟩ := hrun
    obtain ⟨hd, hsides, hrest⟩ := hchain
    obtain ⟨hcond, hmeet⟩ := hmeet
    obtain ⟨patch, hpatch, hisPatch, hat⟩ := replayStep_at hd hsides hs
    have hdone := replay_induction inv hstep (replayed ++ [c]) hrest (hmeet state' hs)
      (hstep hinv hcond hpatch hisPatch hs hat) hrun
    rw [List.append_assoc] at hdone
    exact hdone

theorem slot_seed (newEpoch : GitTree) (baseEpoch : EpochId) (p : Path) :
    (seedConflictTreeFromEpoch newEpoch baseEpoch).slot p = ⟨newEpoch.lookup p, none⟩ := by
  simp [seedConflictTreeFromEpoch, ConflictTree.new, ConflictTree.slot]

end Run

/-! ### Small replays -/

section Samples

/-- The rebase of a workspace over an epoch that reports these differences. -/
def sampleContext (entries : List DiffEntry) : ReplayContext :=
  ⟨sampleRepo, "w", ⟨sampleBlob 7⟩, buildEpochDeltaMap entries, false⟩

/-- The tree of a list of files. -/
def sampleTree (files : List (Path × MaterializedEntry)) : GitTree :=
  files.foldl (fun tree file => tree.insert file.1 file.2) ∅

theorem isEpochDelta_sampleContext {oldEpoch newEpoch : GitTree} {entries : List DiffEntry}
    (h : IsDelta oldEpoch newEpoch entries) :
    IsEpochDelta oldEpoch newEpoch (sampleContext entries).delta :=
  ⟨entries, h, .refl _⟩

end Samples

end Maw
