import Maw.Library.ExceptRun
import Maw.Worktree.Snapshot
import Maw.Worktree.Touched

/-!
# Collecting the changes of a workspace

A merge collects the changes of each workspace as a patch set: the content of the paths that the
snapshot lists as added or modified, and the deletions of paths that the base has. When HEAD has
left the base, the content is that of HEAD at every path where HEAD has a file; it is read from
disk only at the others. Directories are passed over.

## Main definitions

* `CollectEnv` — the repository and the file system.
* `collectOne` — the patch set of a workspace.
* `PatchSet.applyTo` — the state of a path after a patch set.
* `CapturesAt` — when the patch set has the state of a path.

## Main results

* `collectOne_applyTo_iff` — it has it exactly then.
-/

open ExceptRun KeyedSort

namespace Maw

/-- The mode and the content of a path. -/
abbrev FileState := EntryMode × Bytes

/-- The repository and the file system. -/
structure CollectEnv where
  commits : CommitStore
  ancestry : AncestryTest commits
  probes : WorktreeProbes
  /-- The content that an id stands for. -/
  bytesOf : GitOid → Bytes
  /-- Whether a blob can be read from the repository. -/
  isReadable : GitOid → Bool
  hashObject : Bytes → Option GitOid
  fileIdForPath : Path → Option FileId
  freshFileId : Path → FileId

inductive CollectError
  | readFailed (path : Path)
  deriving DecidableEq, Repr

section Collect

variable (env : CollectEnv)

/-- The state that an entry stands for. -/
def CollectEnv.stateOf (e : MaterializedEntry) : FileState := (e.mode, env.bytesOf e.oid)

/-- Whether HEAD is another commit than the epoch. -/
def wsHeadDiffersFromEpoch (wt : Worktree) (epoch : GitOid) : Bool := wt.head ≠ epoch

/-- The file or link that HEAD has at a path, if it can be read. -/
def readCommittedBlobAndMode (wt : Worktree) (p : Path) : Option FileState :=
  ((env.commits.treeOf wt.head).lookup p).bind fun e =>
    if hasBlobAt (env.commits.treeOf wt.head) p ∧ env.isReadable e.oid then some (env.stateOf e)
    else none

/-- The file or link on disk; a directory has none. -/
def readWorkspaceFileAndMode (wt : Worktree) (p : Path) :
    Except CollectError (Option FileState) :=
  if isDir env.probes wt.disk p then pure none
  else
    match (wt.disk.occupants.lookup p).bind Occupant.fileEntry with
    | some e => pure (some (env.stateOf e))
    | none => throw (.readFailed p)

/-- The file that is collected for a path. -/
def readContentAndMode (wt : Worktree) (wsHasCommits : Bool) (p : Path) :
    Except CollectError (Option FileState) :=
  match if wsHasCommits then readCommittedBlobAndMode env wt p else none with
  | some state => pure (some state)
  | none => readWorkspaceFileAndMode env wt p

/-- Whether a commit has an entry or a directory at a path. -/
def pathExistsAtCommit (commit : GitOid) (p : Path) : Bool :=
  ∃ q ∈ (env.commits.treeOf commit).keys, q = p ∨ p.Above q

/-- The change of a path with a file. -/
def collectFile (wt : Worktree) (wsHasCommits : Bool) (kind : ChangeKind)
    (fileId : Path → Option FileId) (p : Path) : Except CollectError (Option FileChange) := do
  let file ← readContentAndMode env wt wsHasCommits p
  pure (file.map fun state =>
    ⟨p, kind, some state.2, fileId p, env.hashObject state.2, some state.1⟩)

/-- The deletion of a path. -/
def collectDeletion (p : Path) : FileChange := ⟨p, .deleted, none, env.fileIdForPath p, none, none⟩

/-- The patch set of a workspace. -/
def collectOne (currentEpoch : Option GitOid) (ws : Workspace) : Except CollectError PatchSet := do
  let pairs := snapshot env.probes.ignored env.commits currentEpoch ws
  let epoch := (healEpochRef env.ancestry currentEpoch ws).baseEpoch
  let wsHasCommits := wsHeadDiffersFromEpoch ws.worktree epoch
  let added ← (inOrderOf id Function.injective_id pairs.added).mapM
    (collectFile env ws.worktree wsHasCommits .added fun p => some (env.freshFileId p))
  let modified ← (inOrderOf id Function.injective_id pairs.modified).mapM
    (collectFile env ws.worktree wsHasCommits .modified env.fileIdForPath)
  let deleted := ((inOrderOf id Function.injective_id pairs.deleted).filter
    (pathExistsAtCommit env epoch)).map (collectDeletion env)
  pure (PatchSet.new ⟨ws.name⟩ ⟨epoch⟩ (added.reduceOption ++ modified.reduceOption ++ deleted))

end Collect

/-! ### What a patch set makes of the base -/

/-- The state that a change leaves at its path. -/
def FileChange.state (c : FileChange) : Option FileState :=
  if c.isDeletion then none else c.mode.bind fun mode => c.content.map fun content => (mode, content)

/-- The state of a path after a patch set. -/
def PatchSet.applyTo (ps : PatchSet) (base : Path → Option FileState) (p : Path) :
    Option FileState :=
  match ps.changes.find? (·.path = p) with
  | some c => c.state
  | none => base p

/-- A patch set with changes of a path that all leave one state. -/
theorem PatchSet.applyTo_eq {ps : PatchSet} {base : Path → Option FileState} {p : Path}
    {state : Option FileState} (hall : ∀ c ∈ ps.changes, c.path = p → c.state = state)
    (hnone : (∀ c ∈ ps.changes, c.path ≠ p) → base p = state) : ps.applyTo base p = state := by
  rw [PatchSet.applyTo]
  split
  · rename_i c hfind
    exact hall c (List.mem_of_find?_eq_some hfind) (by simpa using List.find?_some hfind)
  · rename_i hfind
    rw [List.find?_eq_none] at hfind
    exact hnone fun c hc he => hfind c hc (by simpa using he)

section Captures

variable (env : CollectEnv) (currentEpoch : Option GitOid) (ws : Workspace) (p : Path)

/-- The base of a workspace, as it is reported. -/
def Workspace.reportedBase : GitOid := (healEpochRef env.ancestry currentEpoch ws).baseEpoch

/-- The state of a path in the base. -/
def Workspace.baseState : Option FileState :=
  ((env.commits.treeOf (ws.reportedBase env currentEpoch)).lookup p).map env.stateOf

/-- The state of a path in the workspace. -/
def Workspace.currentState : Option FileState :=
  (ws.worktree.content env.probes.ignored p).map env.stateOf

/-- HEAD has left the base and has a file at the path that can be read. -/
def Workspace.ReadsHead : Prop :=
  ws.worktree.head ≠ ws.reportedBase env currentEpoch ∧
    ∃ e, (env.commits.treeOf ws.worktree.head).lookup p = some e ∧
      hasBlobAt (env.commits.treeOf ws.worktree.head) p = true ∧ env.isReadable e.oid = true

/-- A file that is read from HEAD is there as in HEAD, a directory that is passed over is there as
in the base, and a file that is read from disk is not an ignored one. -/
structure CapturesAt : Prop where
  committed : ws.ReadsHead env currentEpoch p →
    ((env.commits.treeOf ws.worktree.head).lookup p).map env.stateOf = ws.currentState env p
  passedOver : ¬ ws.ReadsHead env currentEpoch p → isDir env.probes ws.worktree.disk p = true →
    ws.baseState env currentEpoch p = ws.currentState env p
  tracked : ¬ ws.ReadsHead env currentEpoch p → isDir env.probes ws.worktree.disk p = false →
    ¬ ((ws.worktree.index.lookup p).isNone ∧ env.probes.ignored ws.worktree.disk p = true)

variable {env currentEpoch ws p} {r : Option FileState}

/-- What is read for a path. -/
theorem readContentAndMode_cases
    (h : readContentAndMode env ws.worktree
      (wsHeadDiffersFromEpoch ws.worktree (ws.reportedBase env currentEpoch)) p = .ok r) :
    (ws.ReadsHead env currentEpoch p ∧
        r = ((env.commits.treeOf ws.worktree.head).lookup p).map env.stateOf) ∨
      (¬ ws.ReadsHead env currentEpoch p ∧ isDir env.probes ws.worktree.disk p = true ∧ r = none) ∨
      (¬ ws.ReadsHead env currentEpoch p ∧ isDir env.probes ws.worktree.disk p = false ∧
        ∃ e, ws.worktree.disk.entryAt p = some e ∧ r = some (env.stateOf e)) := by
  by_cases hreads : ws.ReadsHead env currentEpoch p
  · obtain ⟨hhead, e, he, hblob, hreadable⟩ := hreads
    refine .inl ⟨⟨hhead, e, he, hblob, hreadable⟩, ?_⟩
    have hcommitted : readCommittedBlobAndMode env ws.worktree p = some (env.stateOf e) := by
      simp [readCommittedBlobAndMode, he, hblob, hreadable]
    simp only [readContentAndMode, wsHeadDiffersFromEpoch, hhead, ne_eq, not_false_eq_true,
      decide_true, if_true, hcommitted, pure_eq_ok] at h
    rw [he, ← h]
    rfl
  · refine .inr ?_
    have hdisk : readWorkspaceFileAndMode env ws.worktree p = .ok r := by
      unfold readContentAndMode at h
      split at h
      · rename_i state hstate
        refine absurd ?_ hreads
        split_ifs at hstate with hhead
        obtain ⟨e, he, hstate⟩ := Option.bind_eq_some_iff.mp hstate
        split_ifs at hstate with hfile
        exact ⟨by simpa [wsHeadDiffersFromEpoch] using hhead, e, he, hfile⟩
      · exact h
    unfold readWorkspaceFileAndMode at hdisk
    split_ifs at hdisk with hdir
    · exact .inl ⟨hreads, hdir, (pure_eq_ok.mp hdisk).symm⟩
    · refine .inr ⟨hreads, by simpa using hdir, ?_⟩
      split at hdisk
      · rename_i e he
        obtain ⟨occupant, hoccupant, hentry⟩ := Option.bind_eq_some_iff.mp he
        refine ⟨e, ?_, (pure_eq_ok.mp hdisk).symm⟩
        rw [Disk.entryAt, hoccupant]
        exact Occupant.entry_of_fileEntry hentry
      · exact absurd hdisk throw_ne_ok

/-- The state after what was read is that of the workspace exactly when it is captured. -/
theorem capturesAt_iff
    (h : readContentAndMode env ws.worktree
      (wsHeadDiffersFromEpoch ws.worktree (ws.reportedBase env currentEpoch)) p = .ok r) :
    r.or (ws.baseState env currentEpoch p) = ws.currentState env p ↔
      CapturesAt env currentEpoch ws p := by
  rcases readContentAndMode_cases h with ⟨hreads, rfl⟩ | ⟨hreads, hdir, rfl⟩ |
    ⟨hreads, hdir, e, he, rfl⟩
  · obtain ⟨-, e, he, -⟩ := id hreads
    rw [he, Option.map_some, Option.some_or]
    constructor
    · intro hstate
      exact ⟨fun _ => by rw [he]; exact hstate, fun hnot => absurd hreads hnot,
        fun hnot => absurd hreads hnot⟩
    · intro hcaptures
      have hstate := hcaptures.committed hreads
      rwa [he] at hstate
  · rw [Option.none_or]
    constructor
    · intro hstate
      exact ⟨fun hyes => absurd hyes hreads, fun _ _ => hstate, fun _ hfile => by simp_all⟩
    · exact fun hcaptures => hcaptures.passedOver hreads hdir
  · -- A file on disk is the state of the path unless it is an ignored one.
    rw [Option.some_or, Workspace.currentState, Worktree.content, he]
    constructor
    · intro hstate
      refine ⟨fun hyes => absurd hyes hreads, fun _ hdir' => by simp_all, fun _ _ hignored => ?_⟩
      rw [if_pos (by simpa using hignored)] at hstate
      exact absurd hstate (by simp)
    · intro hcaptures
      rw [if_neg (by simpa using hcaptures.tracked hreads hdir)]
      rfl

end Captures

section CollectOne

variable {env : CollectEnv} {currentEpoch : Option GitOid} {ws : Workspace} {p : Path}
  {ps : PatchSet}

/-- A change that is collected for a file has what was read for its path. -/
theorem collectFile_spec {wt : Worktree} {wsHasCommits : Bool} {kind : ChangeKind}
    {fileId : Path → Option FileId} {c : Option FileChange} (hkind : kind ≠ .deleted)
    (h : collectFile env wt wsHasCommits kind fileId p = .ok c) :
    ∃ r, readContentAndMode env wt wsHasCommits p = .ok r ∧ (c = none ↔ r = none) ∧
      ∀ change, c = some change → change.path = p ∧ change.state = r := by
  obtain ⟨r, hr, h⟩ := bind_eq_ok.mp h
  obtain rfl := pure_eq_ok.mp h
  refine ⟨r, hr, by simp, fun change hchange => ?_⟩
  obtain ⟨state, rfl, rfl⟩ := Option.map_eq_some_iff.mp hchange
  exact ⟨rfl, by simp [FileChange.state, FileChange.isDeletion, hkind]⟩

/-- The files that are collected from a list of paths. -/
theorem mem_collectFiles {wt : Worktree} {wsHasCommits : Bool} {kind : ChangeKind}
    {fileId : Path → Option FileId} {paths : Finset Path} {collected : List (Option FileChange)}
    (hkind : kind ≠ .deleted)
    (h : (inOrderOf id Function.injective_id paths).mapM
      (collectFile env wt wsHasCommits kind fileId) = .ok collected) :
    (∀ c ∈ collected.reduceOption, c.path ∈ paths ∧ c.state ≠ none ∧
        readContentAndMode env wt wsHasCommits c.path = .ok c.state) ∧
      ∀ p ∈ paths, ∃ r, readContentAndMode env wt wsHasCommits p = .ok r ∧
        (r ≠ none → ∃ c ∈ collected.reduceOption, c.path = p) := by
  constructor
  · intro c hc
    obtain ⟨p, hp, hcollect⟩ := exists_of_mem_mapM h (List.reduceOption_mem_iff.mp hc)
    obtain ⟨r, hr, hnone, hspec⟩ := collectFile_spec hkind hcollect
    obtain ⟨rfl, rfl⟩ := hspec c rfl
    exact ⟨mem_inOrderOf.mp hp, fun he => absurd (hnone.mpr he) (by simp), hr⟩
  · intro p hp
    obtain ⟨c, hc, hcollect⟩ := exists_mem_of_mapM h (mem_inOrderOf.mpr hp)
    obtain ⟨r, hr, hnone, hspec⟩ := collectFile_spec hkind hcollect
    refine ⟨r, hr, fun hne => ?_⟩
    obtain ⟨change, rfl⟩ := Option.ne_none_iff_exists'.mp fun he => hne (hnone.mp he)
    exact ⟨change, List.reduceOption_mem_iff.mpr hc, (hspec change rfl).1⟩

/-- A path in the snapshot has, after the collected patch set, the state that it has in the
workspace exactly when it is captured; a deleted one always has it. -/
theorem collectOne_applyTo_iff (h : collectOne env currentEpoch ws = .ok ps)
    (hp : p ∈ (snapshot env.probes.ignored env.commits currentEpoch ws).added ∪
      (snapshot env.probes.ignored env.commits currentEpoch ws).modified ∪
      (snapshot env.probes.ignored env.commits currentEpoch ws).deleted) :
    ps.applyTo (ws.baseState env currentEpoch) p = ws.currentState env p ↔
      (p ∈ (snapshot env.probes.ignored env.commits currentEpoch ws).deleted ∨
        CapturesAt env currentEpoch ws p) := by
  obtain ⟨added, hadded, h⟩ := bind_eq_ok.mp h
  obtain ⟨modified, hmodified, h⟩ := bind_eq_ok.mp h
  obtain rfl := pure_eq_ok.mp h
  obtain ⟨haddedMem, haddedAll⟩ := mem_collectFiles (by simp) hadded
  obtain ⟨hmodifiedMem, hmodifiedAll⟩ := mem_collectFiles (by simp) hmodified
  set pairs := snapshot env.probes.ignored env.commits currentEpoch ws with hpairs
  have hdisjoint : Disjoint pairs.added pairs.deleted ∧ Disjoint pairs.modified pairs.added ∧
      Disjoint pairs.modified pairs.deleted := pairs_disjoint
  have hmem (c : FileChange) : c ∈ (PatchSet.new ⟨ws.name⟩ ⟨ws.reportedBase env currentEpoch⟩
      (added.reduceOption ++ modified.reduceOption ++ ((inOrderOf id Function.injective_id
        pairs.deleted).filter (pathExistsAtCommit env (ws.reportedBase env currentEpoch))).map
          (collectDeletion env))).changes ↔
      (c ∈ added.reduceOption ∨ c ∈ modified.reduceOption) ∨ ∃ q ∈ pairs.deleted,
        pathExistsAtCommit env (ws.reportedBase env currentEpoch) q = true ∧
        collectDeletion env q = c := by
    rw [(PatchSet.new_changes_perm _ _ _).mem_iff, List.mem_append, List.mem_append, List.mem_map]
    simp only [List.mem_filter, mem_inOrderOf, and_assoc]
  by_cases hdeleted : p ∈ pairs.deleted
  · refine iff_of_true (PatchSet.applyTo_eq (fun c hc hcp => ?_) fun hnone => ?_) (.inl hdeleted)
    · have hstate : ws.currentState env p = none := by
        rw [Workspace.currentState, content_of_mem_deleted hdeleted]
        rfl
      rw [hstate]
      rcases (hmem c).mp hc with (hc | hc) | ⟨q, -, -, rfl⟩
      · exact absurd hdeleted (hcp ▸ Finset.disjoint_left.mp hdisjoint.1 (haddedMem c hc).1)
      · exact absurd hdeleted (hcp ▸ Finset.disjoint_left.mp hdisjoint.2.2 (hmodifiedMem c hc).1)
      · rfl
    · -- The deletion is left out only if the base does not have the path.
      have hbase : ((env.commits.treeOf (ws.reportedBase env currentEpoch)).lookup p) = none := by
        by_contra hne
        refine hnone _ ((hmem (collectDeletion env p)).mpr (.inr ⟨p, hdeleted, ?_, rfl⟩)) rfl
        rw [pathExistsAtCommit, decide_eq_true_iff]
        refine ⟨p, ?_, .inl rfl⟩
        rwa [Finmap.mem_keys, ← not_not (a := p ∈ _), ← Finmap.lookup_eq_none]
      rw [Workspace.baseState, hbase, Workspace.currentState, content_of_mem_deleted hdeleted]
  · rw [or_iff_right hdeleted]
    have hp : p ∈ pairs.added ∪ pairs.modified := (Finset.mem_union.mp hp).resolve_right hdeleted
    obtain ⟨r, hr, hcollected⟩ : ∃ r, readContentAndMode env ws.worktree
        (wsHeadDiffersFromEpoch ws.worktree (ws.reportedBase env currentEpoch)) p = .ok r ∧
        (r ≠ none → ∃ c, (c ∈ added.reduceOption ∨ c ∈ modified.reduceOption) ∧ c.path = p) := by
      rcases Finset.mem_union.mp hp with hp | hp
      · obtain ⟨r, hr, hc⟩ := haddedAll p hp
        exact ⟨r, hr, fun hne => (hc hne).imp fun c hc => ⟨.inl hc.1, hc.2⟩⟩
      · obtain ⟨r, hr, hc⟩ := hmodifiedAll p hp
        exact ⟨r, hr, fun hne => (hc hne).imp fun c hc => ⟨.inr hc.1, hc.2⟩⟩
    rw [← capturesAt_iff hr]
    refine Eq.congr_left (PatchSet.applyTo_eq (fun c hc hcp => ?_) fun hnone => ?_)
    · obtain ⟨hne, hread⟩ : c.state ≠ none ∧ readContentAndMode env ws.worktree
          (wsHeadDiffersFromEpoch ws.worktree (ws.reportedBase env currentEpoch)) c.path =
            .ok c.state := by
        rcases (hmem c).mp hc with (hc | hc) | ⟨q, hq, -, rfl⟩
        · exact (haddedMem c hc).2
        · exact (hmodifiedMem c hc).2
        · have hqp : q = p := hcp
          exact absurd hq (hqp ▸ hdeleted)
      rw [hcp, hr] at hread
      obtain rfl := Except.ok.inj hread
      obtain ⟨state, hstate⟩ := Option.ne_none_iff_exists'.mp hne
      rw [hstate, Option.some_or]
    · have hempty : r = none := by
        by_contra hne
        obtain ⟨c, hc, hcp⟩ := hcollected hne
        exact hnone c ((hmem c).mpr (.inl hc)) hcp
      rw [hempty, Option.none_or]

end CollectOne

/-! ### A small workspace -/

/-- A repository that can read every blob. -/
noncomputable def sampleCollectEnv : CollectEnv where
  commits := sampleThreeCommits
  ancestry := sampleAncestry
  probes := sampleProbes
  bytesOf oid := [(oid.bits.toNat / 2 ^ 128).toUInt8]
  isReadable _ := true
  hashObject _ := none
  fileIdForPath _ := none
  freshFileId _ := ⟨0⟩

/-- A workspace of the first commit with a file on disk that is not in its HEAD. -/
def editedWorkspace (head : GitOid) (index : Nat) : Workspace where
  name := "feature"
  epochRef := some (sampleBlob 1)
  worktree := ⟨head, oneFileTree index, sampleDisk 20⟩

/-- The state of the file after the patch set of the workspace. -/
noncomputable def collectedState (ws : Workspace) : Except CollectError (Option FileState) := do
  let ps ← collectOne sampleCollectEnv (some (sampleBlob 1)) ws
  pure (ps.applyTo (ws.baseState sampleCollectEnv (some (sampleBlob 1))) samplePath)

theorem exists_collectOne {ws : Workspace} {state : Option FileState}
    (h : collectedState ws = .ok state) :
    ∃ ps, collectOne sampleCollectEnv (some (sampleBlob 1)) ws = .ok ps ∧
      ps.applyTo (ws.baseState sampleCollectEnv (some (sampleBlob 1))) samplePath = state := by
  obtain ⟨ps, hps, h⟩ := bind_eq_ok.mp h
  exact ⟨ps, hps, pure_eq_ok.mp h⟩

/-- The uncommitted edit of a workspace that has a commit of its own is replaced by the commit. -/
theorem collect_loses_uncommitted :
    ∃ ps, collectOne sampleCollectEnv (some (sampleBlob 1)) (editedWorkspace (sampleBlob 2) 10) =
        .ok ps ∧
      samplePath ∈ (snapshot noneIgnored sampleThreeCommits (some (sampleBlob 1))
        (editedWorkspace (sampleBlob 2) 10)).modified ∧
      ps.applyTo ((editedWorkspace (sampleBlob 2) 10).baseState sampleCollectEnv
        (some (sampleBlob 1))) samplePath = some (.blob, [10]) ∧
      (editedWorkspace (sampleBlob 2) 10).currentState sampleCollectEnv samplePath =
        some (.blob, [20]) := by
  have hrun : collectedState (editedWorkspace (sampleBlob 2) 10) = .ok (some (.blob, [10])) := by
    decide +kernel
  obtain ⟨ps, hps, happly⟩ := exists_collectOne hrun
  exact ⟨ps, hps, by decide +kernel, happly, by decide +kernel⟩

/-- That of a workspace without commits of its own is kept. -/
theorem collectOne_keeps_uncommitted :
    ∃ ps, collectOne sampleCollectEnv (some (sampleBlob 1)) (editedWorkspace (sampleBlob 1) 0) =
        .ok ps ∧
      ps.applyTo ((editedWorkspace (sampleBlob 1) 0).baseState sampleCollectEnv
        (some (sampleBlob 1))) samplePath =
          (editedWorkspace (sampleBlob 1) 0).currentState sampleCollectEnv samplePath := by
  have hrun : collectedState (editedWorkspace (sampleBlob 1) 0) = .ok (some (.blob, [20])) := by
    decide +kernel
  obtain ⟨ps, hps, -⟩ := exists_collectOne hrun
  have hreads : ¬ (editedWorkspace (sampleBlob 1) 0).ReadsHead sampleCollectEnv
      (some (sampleBlob 1)) samplePath := by
    rintro ⟨hne, -⟩
    exact hne (by decide +kernel)
  have hfile : isDir sampleCollectEnv.probes (editedWorkspace (sampleBlob 1) 0).worktree.disk
      samplePath = false := by decide +kernel
  refine ⟨ps, hps, (collectOne_applyTo_iff hps ?_).mpr (.inr ⟨fun h => absurd h hreads,
    fun _ hdir => absurd hdir (by simp [hfile]), fun _ _ hignored => ?_⟩)⟩
  · have hlisted : samplePath ∈ (snapshot noneIgnored sampleThreeCommits (some (sampleBlob 1))
        (editedWorkspace (sampleBlob 1) 0)).modified := by decide +kernel
    exact Finset.mem_union_left _ (Finset.mem_union_right _ hlisted)
  · exact absurd hignored.2 Bool.false_ne_true

end Maw
