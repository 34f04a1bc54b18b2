import Maw.Worktree.Status

/-!
# Snapshots of a workspace

The backend records the epoch that a workspace is based on and lists the paths that the workspace
has changed since. The list is put together from the difference of the base and HEAD and from
the status of the worktree; a path that is added in one and deleted in the other is looked up in
the base and on disk.

## Main definitions

* `Workspace`, `healEpochRef` — a workspace and the repair of its recorded epoch.
* `diffNameStatusPairs`, `snapshot` — the changed paths.

## Main results

* `pairs_disjoint` — a path is listed once.
* `content_of_mem_deleted` — a deleted path is not there any more.
-/

namespace Maw

/-- A workspace with the epoch that is recorded for it. -/
structure Workspace where
  name : String
  epochRef : Option GitOid
  worktree : Worktree

/-- The base of a workspace: the recorded epoch, else its HEAD. -/
def Workspace.baseEpoch (ws : Workspace) : GitOid := ws.epochRef.getD ws.worktree.head

/-- A recorded epoch that lags behind a workspace which is past the current epoch is repaired. -/
def healEpochRef {commits : CommitStore} (ancestry : AncestryTest commits)
    (currentEpoch : Option GitOid) (ws : Workspace) : Workspace :=
  match currentEpoch with
  | none => ws
  | some current =>
    if ws.baseEpoch ≠ current ∧ ancestry.isAncestor ws.baseEpoch current = true ∧
        (ws.worktree.head = current ∨ ancestry.isAncestor current ws.worktree.head = true) then
      { ws with epochRef := some current }
    else ws

/-- A workspace that is on its recorded base is not repaired. -/
theorem healEpochRef_eq {commits : CommitStore} {ancestry : AncestryTest commits}
    {currentEpoch : Option GitOid} {ws : Workspace} {base : GitOid}
    (hhead : ws.worktree.head = base) (href : ws.epochRef = some base) :
    healEpochRef ancestry currentEpoch ws = ws := by
  have hbase : ws.baseEpoch = base := by rw [Workspace.baseEpoch, href]; rfl
  rcases currentEpoch with _ | current
  · rfl
  rw [healEpochRef, if_neg]
  rintro ⟨hne, hlags, hpast⟩
  rw [hbase] at hne hlags
  rw [hhead] at hpast
  rcases hpast with heq | hpast
  · exact hne heq
  · exact hne ((ancestry.isAncestor_iff.mp hlags).antisymm (ancestry.isAncestor_iff.mp hpast))

/-- The changed paths by the kind of their change. -/
structure NameStatusPairs where
  added : Finset Path
  modified : Finset Path
  deleted : Finset Path
  deriving DecidableEq

/-- Whether a tree has a file or a link at a path. -/
def hasBlobAt (tree : GitTree) (p : Path) : Bool :=
  (tree.lookup p).any fun e => e.mode = .blob || e.mode = .blobExecutable || e.mode = .link

/-- The paths with a status among some. -/
def pathsWithStatus (status : Path → Option FileStatus) (paths : Finset Path) (kinds : List FileStatus) :
    Finset Path :=
  paths.filter fun p => ∃ kind ∈ kinds, status p = some kind

/-- The paths that the base and the worktree differ at, from the two halves of the difference. -/
def diffNameStatusPairs (ignored : Disk → Path → Bool) (base head : GitTree) (wt : Worktree) :
    NameStatusPairs :=
  let committed := pathsWithStatus (stagedStatus base head) (base.keys ∪ head.keys)
  let uncommitted := pathsWithStatus (wt.statusAt ignored head)
    (head.keys ∪ wt.index.keys ∪ wt.disk.occupants.keys)
  let added := committed [.added] ∪ uncommitted [.added, .renamed, .untracked]
  let modified := committed [.modified] ∪ uncommitted [.modified]
  let deleted := committed [.deleted] ∪ uncommitted [.deleted]
  let cross := added ∩ deleted
  let deleted' := deleted \ cross ∪
    cross.filter fun p => hasBlobAt base p = true ∧ ¬ wt.disk.OnDisk p
  let added' := added \ cross ∪ cross.filter fun p => hasBlobAt base p = false ∧ wt.disk.OnDisk p
  ⟨added', (modified \ deleted') \ added' ∪
    cross.filter fun p => hasBlobAt base p = true ∧ wt.disk.OnDisk p, deleted'⟩

/-- The commit that a snapshot compares with: the recorded epoch, else the current one, else
HEAD. -/
def snapshotBase (currentEpoch : Option GitOid) (ws : Workspace) : GitOid :=
  (ws.epochRef.or currentEpoch).getD ws.worktree.head

/-- The paths that a workspace has changed. -/
def snapshot (ignored : Disk → Path → Bool) (commits : CommitStore) (currentEpoch : Option GitOid)
    (ws : Workspace) : NameStatusPairs :=
  diffNameStatusPairs ignored (commits.treeOf (snapshotBase currentEpoch ws))
    (commits.treeOf ws.worktree.head) ws.worktree

section Pairs

variable {ignored : Disk → Path → Bool} {base head : GitTree} {wt : Worktree} {p : Path}

theorem mem_pathsWithStatus {status : Path → Option FileStatus} {paths : Finset Path}
    {kinds : List FileStatus} : p ∈ pathsWithStatus status paths kinds ↔
      p ∈ paths ∧ ∃ kind ∈ kinds, status p = some kind := by
  rw [pathsWithStatus, Finset.mem_filter]

/-- A path is in one of the lists only. -/
theorem pairs_disjoint :
    Disjoint (diffNameStatusPairs ignored base head wt).added
        (diffNameStatusPairs ignored base head wt).deleted ∧
      Disjoint (diffNameStatusPairs ignored base head wt).modified
        (diffNameStatusPairs ignored base head wt).added ∧
      Disjoint (diffNameStatusPairs ignored base head wt).modified
        (diffNameStatusPairs ignored base head wt).deleted := by
  simp only [diffNameStatusPairs, Finset.disjoint_left, Finset.mem_union, Finset.mem_sdiff,
    Finset.mem_inter, Finset.mem_filter]
  grind

theorem lookup_of_staged_deleted (h : stagedStatus base head p = some .deleted) :
    head.lookup p = none := by
  unfold stagedStatus at h
  split at h
  · exact absurd h (by simp)
  · exact absurd h (by simp)
  · assumption
  · split_ifs at h
    exact absurd h (by simp)

/-- What is not in the commit is added to it or not there. -/
theorem statusAt_of_head_none (h : head.lookup p = none) :
    wt.statusAt ignored head p = none ∨ wt.statusAt ignored head p = some .added := by
  rw [Worktree.statusAt, stagedStatus, h]
  rcases hindex : wt.index.lookup p with _ | e <;>
    rcases hdisk : wt.disk.occupants.lookup p with _ | occupant
  · simp [unstagedStatus, netHeadToWorktree, hindex, hdisk]
  · rcases hout : ignored wt.disk p || decide (occupant = .special) <;>
      simp_all [unstagedStatus, netHeadToWorktree]
  · simp [unstagedStatus, netHeadToWorktree, hindex, hdisk]
  · by_cases hentry : occupant.entry = some e <;>
      simp [unstagedStatus, netHeadToWorktree, hindex, hdisk, hentry]

/-- A deleted path is not there any more. -/
theorem content_of_mem_deleted (h : p ∈ (diffNameStatusPairs ignored base head wt).deleted) :
    wt.content ignored p = none := by
  simp only [diffNameStatusPairs, Finset.mem_union, Finset.mem_sdiff, Finset.mem_inter,
    Finset.mem_filter, mem_pathsWithStatus, List.mem_singleton, exists_eq_left] at h
  rcases h with ⟨⟨hkeys, hcommitted⟩ | ⟨-, huncommitted⟩, hcross⟩ | ⟨-, -, hgone⟩
  · -- Deleted in HEAD: what is there now would have been added, and looked up.
    have hhead := lookup_of_staged_deleted hcommitted
    rcases Worktree.statusAt_cases ignored head wt p with ⟨-, hcontent⟩ | ⟨-, hcontent, -⟩ |
      ⟨status, occupant, hstatus, hne, hdisk, -⟩
    · rw [hcontent, hhead]
    · exact hcontent
    · exfalso
      have hadded : wt.statusAt ignored head p = some .added :=
        (statusAt_of_head_none hhead).resolve_left (by simp [hstatus])
      have hkey : p ∈ wt.disk.occupants.keys := Finmap.mem_keys.mpr (FiniteMap.mem_of_lookup hdisk)
      exact hcross ⟨.inr ⟨.inr hkey, .added, List.mem_cons_self, hadded⟩, .inl ⟨hkeys, hcommitted⟩⟩
  · rcases Worktree.statusAt_cases ignored head wt p with ⟨hnone, -⟩ | ⟨-, hcontent, -⟩ |
      ⟨status, occupant, hstatus, hne, -⟩
    · rw [hnone] at huncommitted
      exact absurd huncommitted (by simp)
    · exact hcontent
    · rw [hstatus] at huncommitted
      exact absurd (Option.some.inj huncommitted) hne
  · rw [Worktree.content]
    split_ifs
    · rfl
    · have hdisk : wt.disk.occupants.lookup p = none := by
        rw [Finmap.lookup_eq_none]
        exact fun hp => hgone ⟨p, Finmap.mem_keys.mpr hp, .inl rfl⟩
      rw [Disk.entryAt, hdisk]
      rfl

end Pairs

end Maw
