import Maw.Worktree.Snapshot

/-!
# Snapshots and the base

A snapshot lists what a workspace has changed since its base, put together from the committed and the
uncommitted half of the difference. This compares the lists with the base and the worktree
themselves, and the base of a snapshot with the one that a status reports.

## Main definitions

* `SymlinkMetadata` — what is found at the paths of a worktree.
* `diffNameStatusPairsWith` — the lists, from what is found.
* `ExactDiff` — the lists are those of the base and the worktree.

## Main results

* `mem_added_iff`, `mem_deleted_iff`, `mem_modified` — what the lists have, path by path.
* `snapshot_exact_iff` — when a snapshot is exact and has the base that a status reports.
* `not_exact_of_directory` — a file that was committed and then replaced by a directory.
-/

namespace Maw

/-- What is found at the paths of a worktree. There is nothing below a file; a directory can be
empty, and anything can stand below a symbolic link or in a repository of its own. -/
structure SymlinkMetadata (disk : Disk) where
  isOk : Path → Bool
  isOk_of_onDisk : ∀ p, disk.OnDisk p → isOk p = true
  not_below : ∀ p q e, (disk.occupants.lookup q).bind Occupant.fileEntry = some e → e.mode ≠ .link →
    q.Above p → isOk p = false

/-- A path that is added in one half and deleted in the other is looked up in the base and on
disk. -/
def reconcile (isOk : Path → Bool) (base : GitTree) (added modified deleted : Finset Path) :
    NameStatusPairs :=
  let cross := added ∩ deleted
  let deleted' := deleted \ cross ∪ cross.filter fun p => hasBlobAt base p = true ∧ isOk p = false
  let added' := added \ cross ∪ cross.filter fun p => hasBlobAt base p = false ∧ isOk p = true
  ⟨added', (modified \ deleted') \ added' ∪
    cross.filter fun p => hasBlobAt base p = true ∧ isOk p = true, deleted'⟩

/-- The paths that the base and the worktree differ at, with what is found on disk. -/
def diffNameStatusPairsWith (isOk : Path → Bool) (ignored : Disk → Path → Bool)
    (base head : GitTree) (wt : Worktree) : NameStatusPairs :=
  let committed := pathsWithStatus (stagedStatus base head) (base.keys ∪ head.keys)
  let uncommitted := pathsWithStatus (wt.statusAt ignored head)
    (head.keys ∪ wt.index.keys ∪ wt.disk.occupants.keys)
  reconcile isOk base (committed [.added] ∪ uncommitted [.added, .renamed, .untracked])
    (committed [.modified] ∪ uncommitted [.modified]) (committed [.deleted] ∪ uncommitted [.deleted])

section Reconcile

variable {isOk : Path → Bool} {base : GitTree} {added modified deleted : Finset Path} {p : Path}

theorem mem_reconcile_added : p ∈ (reconcile isOk base added modified deleted).added ↔
    p ∈ added ∧ (p ∈ deleted → hasBlobAt base p = false ∧ isOk p = true) := by
  simp only [reconcile, Finset.mem_union, Finset.mem_sdiff, Finset.mem_inter, Finset.mem_filter]
  tauto

theorem mem_reconcile_deleted : p ∈ (reconcile isOk base added modified deleted).deleted ↔
    p ∈ deleted ∧ (p ∈ added → hasBlobAt base p = true ∧ isOk p = false) := by
  simp only [reconcile, Finset.mem_union, Finset.mem_sdiff, Finset.mem_inter, Finset.mem_filter]
  tauto

theorem mem_reconcile_modified : p ∈ (reconcile isOk base added modified deleted).modified ↔
    (p ∈ modified ∧ p ∉ (reconcile isOk base added modified deleted).deleted ∧
        p ∉ (reconcile isOk base added modified deleted).added) ∨
      (p ∈ added ∧ p ∈ deleted ∧ hasBlobAt base p = true ∧ isOk p = true) := by
  simp only [reconcile, Finset.mem_union, Finset.mem_sdiff, Finset.mem_inter, Finset.mem_filter]
  tauto

/-- A path is listed once. -/
theorem reconcile_disjoint :
    let pairs := reconcile isOk base added modified deleted
    Disjoint pairs.added pairs.deleted ∧ Disjoint pairs.modified pairs.added ∧
      Disjoint pairs.modified pairs.deleted := by
  simp only [Finset.disjoint_left, mem_reconcile_modified, mem_reconcile_added,
    mem_reconcile_deleted]
  grind

end Reconcile

section Lists

variable {isOk : Path → Bool} {ignored : Disk → Path → Bool} {base head : GitTree} {wt : Worktree}
  {p : Path}

theorem mem_committed {kinds : List FileStatus} :
    p ∈ pathsWithStatus (stagedStatus base head) (base.keys ∪ head.keys) kinds ↔
      ∃ kind ∈ kinds, stagedStatus base head p = some kind := by
  rw [mem_pathsWithStatus, and_iff_right_iff_imp]
  rintro ⟨kind, -, h⟩
  by_contra hp
  simp only [Finset.mem_union, Finmap.mem_keys, not_or, ← Finmap.lookup_eq_none] at hp
  simp [stagedStatus, hp.1, hp.2] at h

theorem mem_uncommitted {kinds : List FileStatus} :
    p ∈ pathsWithStatus (wt.statusAt ignored head)
        (head.keys ∪ wt.index.keys ∪ wt.disk.occupants.keys) kinds ↔
      ∃ kind ∈ kinds, wt.statusAt ignored head p = some kind := by
  rw [mem_pathsWithStatus, and_iff_right_iff_imp]
  rintro ⟨kind, -, h⟩
  by_contra hp
  simp only [Finset.mem_union, Finmap.mem_keys, not_or, ← Finmap.lookup_eq_none] at hp
  obtain ⟨⟨hhead, hindex⟩, hdisk⟩ := hp
  simp [Worktree.statusAt, stagedStatus, unstagedStatus, netHeadToWorktree, hhead, hindex,
    hdisk] at h

/-- Whether a path is in a list before the lists are reconciled. -/
def InHalf (ignored : Disk → Path → Bool) (base head : GitTree) (wt : Worktree) (p : Path)
    (kind : FileStatus) : Prop :=
  stagedStatus base head p = some kind ∨ wt.statusAt ignored head p = some kind

/-- A worktree has no renamed or untracked paths relative to a commit. -/
theorem statusAt_ne (kind : FileStatus) (h : kind = .renamed ∨ kind = .untracked) :
    wt.statusAt ignored head p ≠ some kind := by
  rw [Worktree.statusAt]
  unfold stagedStatus unstagedStatus netHeadToWorktree
  rcases h with rfl | rfl <;> grind

theorem mem_half {kind : FileStatus} :
    p ∈ pathsWithStatus (stagedStatus base head) (base.keys ∪ head.keys) [kind] ∪
        pathsWithStatus (wt.statusAt ignored head)
          (head.keys ∪ wt.index.keys ∪ wt.disk.occupants.keys) [kind] ↔
      InHalf ignored base head wt p kind := by
  rw [Finset.mem_union, mem_committed, mem_uncommitted]
  simp [InHalf]

theorem mem_half_added :
    p ∈ pathsWithStatus (stagedStatus base head) (base.keys ∪ head.keys) [.added] ∪
        pathsWithStatus (wt.statusAt ignored head)
          (head.keys ∪ wt.index.keys ∪ wt.disk.occupants.keys) [.added, .renamed, .untracked] ↔
      InHalf ignored base head wt p .added := by
  rw [Finset.mem_union, mem_committed, mem_uncommitted]
  simp [InHalf, statusAt_ne]

theorem mem_added : p ∈ (diffNameStatusPairsWith isOk ignored base head wt).added ↔
    InHalf ignored base head wt p .added ∧ (InHalf ignored base head wt p .deleted →
      hasBlobAt base p = false ∧ isOk p = true) := by
  rw [diffNameStatusPairsWith, mem_reconcile_added, mem_half_added, mem_half]

theorem mem_deleted : p ∈ (diffNameStatusPairsWith isOk ignored base head wt).deleted ↔
    InHalf ignored base head wt p .deleted ∧ (InHalf ignored base head wt p .added →
      hasBlobAt base p = true ∧ isOk p = false) := by
  rw [diffNameStatusPairsWith, mem_reconcile_deleted, mem_half_added, mem_half]

theorem mem_modified : p ∈ (diffNameStatusPairsWith isOk ignored base head wt).modified ↔
    (InHalf ignored base head wt p .modified ∧
        p ∉ (diffNameStatusPairsWith isOk ignored base head wt).deleted ∧
          p ∉ (diffNameStatusPairsWith isOk ignored base head wt).added) ∨
      (InHalf ignored base head wt p .added ∧ InHalf ignored base head wt p .deleted ∧
        hasBlobAt base p = true ∧ isOk p = true) := by
  rw [diffNameStatusPairsWith, mem_reconcile_modified, mem_half_added, mem_half, mem_half]

/-! ### One path -/

/-- A path at which only files and links stand, and which is not set aside as ignored. -/
structure IsPlain (ignored : Disk → Path → Bool) (base : GitTree) (wt : Worktree) (p : Path) :
    Prop where
  base : base.lookup p ≠ none → hasBlobAt base p = true
  disk : ∀ occupant, wt.disk.occupants.lookup p = some occupant → ∃ e, occupant.fileEntry = some e
  listed : wt.disk.occupants.lookup p ≠ none →
    wt.index.lookup p ≠ none ∨ ignored wt.disk p = false

/-- What stands at a plain path is its content. -/
theorem IsPlain.content (h : IsPlain ignored base wt p) :
    wt.content ignored p = wt.disk.entryAt p := by
  rw [Worktree.content]
  split_ifs with haside
  · rw [Bool.and_eq_true, Option.isNone_iff_eq_none] at haside
    have hgone : wt.disk.occupants.lookup p = none := by
      by_contra hthere
      rcases h.listed hthere with hindex | hlisted
      · exact hindex haside.1
      · rw [haside.2] at hlisted
        cases hlisted
    rw [Disk.entryAt, hgone]
    rfl
  · rfl

/-- A path with nothing on it is deleted if the commit has it. -/
theorem statusAt_of_gone (hdisk : wt.disk.occupants.lookup p = none) :
    wt.statusAt ignored head p = if head.lookup p = none then none else some .deleted := by
  cases hhead : head.lookup p with
  | none =>
    cases hindex : wt.index.lookup p <;>
      simp [Worktree.statusAt, stagedStatus, unstagedStatus, netHeadToWorktree, hhead, hindex, hdisk]
  | some e =>
    cases hindex : wt.index.lookup p with
    | none =>
      simp [Worktree.statusAt, stagedStatus, unstagedStatus, netHeadToWorktree, hhead, hindex, hdisk]
    | some e' =>
      by_cases heq : e = e' <;>
        simp [Worktree.statusAt, stagedStatus, unstagedStatus, netHeadToWorktree, hhead, hindex,
          hdisk, heq]

/-- What the commit has is not added. -/
theorem statusAt_of_head (hhead : head.lookup p ≠ none) :
    wt.statusAt ignored head p = none ∨ wt.statusAt ignored head p = some .deleted ∨
      wt.statusAt ignored head p = some .modified := by
  obtain ⟨e, he⟩ := Option.ne_none_iff_exists'.mp hhead
  rw [Worktree.statusAt, stagedStatus, he]
  cases hindex : wt.index.lookup p with
  | none =>
    rw [unstagedStatus, hindex]
    cases wt.disk.occupants.lookup p with
    | none => simp [netHeadToWorktree]
    | some occupant =>
      by_cases hout : ignored wt.disk p = true ∨ occupant = .special <;>
        simp [netHeadToWorktree, hout]
  | some e' =>
    rw [unstagedStatus, hindex]
    cases wt.disk.occupants.lookup p with
    | none => by_cases heq : e = e' <;> simp [netHeadToWorktree, heq]
    | some occupant =>
      by_cases heq : e = e' <;> by_cases hentry : occupant.entry = some e' <;>
        simp [netHeadToWorktree, heq, hentry]

/-- A file is as the commit has it, added or modified. -/
theorem statusAt_of_content (head : GitTree) {e : MaterializedEntry}
    (hcontent : wt.content ignored p = some e) :
    (wt.statusAt ignored head p = none ∧ head.lookup p = some e) ∨
      (wt.statusAt ignored head p = some .added ∧ head.lookup p = none) ∨
        (wt.statusAt ignored head p = some .modified ∧ head.lookup p ≠ none) := by
  rcases Worktree.statusAt_cases ignored head wt p with ⟨hnone, hsame⟩ | ⟨-, hgone, -⟩ |
    ⟨status, occupant, hstatus, hne, -⟩
  · exact .inl ⟨hnone, hsame ▸ hcontent⟩
  · rw [hgone] at hcontent
    cases hcontent
  · by_cases hhead : head.lookup p = none
    · have hadded := (statusAt_of_head_none hhead).resolve_left (by rw [hstatus]; simp)
      exact .inr (.inl ⟨hadded, hhead⟩)
    · rcases statusAt_of_head hhead with h | h | h
      · rw [hstatus] at h
        cases h
      · exact absurd (Option.some.inj (hstatus.symm.trans h)) hne
      · exact .inr (.inr ⟨h, hhead⟩)

/-- A plain path is gone, or a file stands there. -/
theorem IsPlain.content_cases (h : IsPlain ignored base wt p) :
    (wt.disk.occupants.lookup p = none ∧ wt.content ignored p = none) ∨
      (wt.disk.OnDisk p ∧ ∃ e, wt.content ignored p = some e) := by
  rw [h.content, Disk.entryAt]
  cases hdisk : wt.disk.occupants.lookup p with
  | none => exact .inl ⟨rfl, rfl⟩
  | some occupant =>
    obtain ⟨e, he⟩ := h.disk occupant hdisk
    have hkey : p ∈ wt.disk.occupants.keys := Finmap.mem_keys.mpr (FiniteMap.mem_of_lookup hdisk)
    exact .inr ⟨⟨p, hkey, .inl rfl⟩, e, Occupant.entry_of_fileEntry he⟩

theorem inHalf_added : InHalf ignored base head wt p .added ↔
    (base.lookup p = none ∧ head.lookup p ≠ none) ∨ wt.statusAt ignored head p = some .added := by
  rw [InHalf, stagedStatus]
  cases base.lookup p <;> cases head.lookup p <;> simp

theorem inHalf_deleted : InHalf ignored base head wt p .deleted ↔
    (base.lookup p ≠ none ∧ head.lookup p = none) ∨ wt.statusAt ignored head p = some .deleted := by
  rw [InHalf, stagedStatus]
  cases base.lookup p <;> cases head.lookup p <;> simp

theorem inHalf_modified_of_ne {e e' : MaterializedEntry} (he : base.lookup p = some e)
    (he' : head.lookup p = some e') (hne : e ≠ e') : InHalf ignored base head wt p .modified := by
  left
  rw [stagedStatus, he, he']
  exact if_neg hne

/-- The lists are those of the base and the worktree, at the plain paths. -/
structure ExactDiff (ignored : Disk → Path → Bool) (base : GitTree) (wt : Worktree)
    (pairs : NameStatusPairs) : Prop where
  disjoint : Disjoint pairs.added pairs.deleted ∧ Disjoint pairs.modified pairs.added ∧
    Disjoint pairs.modified pairs.deleted
  added_iff : ∀ p, IsPlain ignored base wt p →
    (p ∈ pairs.added ↔ base.lookup p = none ∧ wt.content ignored p ≠ none)
  deleted_iff : ∀ p, IsPlain ignored base wt p →
    (p ∈ pairs.deleted ↔ base.lookup p ≠ none ∧ wt.content ignored p = none)
  modified : ∀ p, IsPlain ignored base wt p → base.lookup p ≠ none → wt.content ignored p ≠ none →
    base.lookup p ≠ wt.content ignored p → p ∈ pairs.modified

/-- A file that was committed since the base and is gone, with something else found in its place. -/
def Replaced (isOk : Path → Bool) (base head : GitTree) (wt : Worktree) (p : Path) : Prop :=
  base.lookup p = none ∧ head.lookup p ≠ none ∧ wt.disk.occupants.lookup p = none ∧ isOk p = true

theorem hasBlobAt_eq_false (h : base.lookup p = none) : hasBlobAt base p = false := by
  rw [hasBlobAt, h]
  rfl

/-- A path that the base lacks is added if a file stands there, and wrongly if it was replaced. -/
theorem mem_added_iff (h : IsPlain ignored base wt p) :
    p ∈ (diffNameStatusPairsWith isOk ignored base head wt).added ↔
      base.lookup p = none ∧ (wt.content ignored p ≠ none ∨ Replaced isOk base head wt p) := by
  rw [mem_added, inHalf_added, inHalf_deleted]
  rcases h.content_cases with ⟨hdisk, hcontent⟩ | ⟨-, e, hcontent⟩
  · rw [statusAt_of_gone hdisk]
    by_cases hbase : base.lookup p = none <;> by_cases hhead : head.lookup p = none <;>
      simp [hbase, hhead, hdisk, hcontent, Replaced, hasBlobAt_eq_false]
  · rcases statusAt_of_content head hcontent with ⟨hstatus, hhead⟩ | ⟨hstatus, hhead⟩ | ⟨hstatus, hhead⟩
    · by_cases hbase : base.lookup p = none <;> simp [hbase, hhead, hstatus, hcontent]
    · by_cases hbase : base.lookup p = none
      · simp [hbase, hhead, hstatus, hcontent]
      · -- deleted since the base and added again
        simp [hbase, hhead, hstatus, h.base hbase]
    · by_cases hbase : base.lookup p = none <;> simp [hbase, hhead, hstatus, hcontent]

theorem mem_deleted_iff (h : IsPlain ignored base wt p) (hOk : wt.disk.OnDisk p → isOk p = true) :
    p ∈ (diffNameStatusPairsWith isOk ignored base head wt).deleted ↔
      base.lookup p ≠ none ∧ wt.content ignored p = none := by
  rw [mem_deleted, inHalf_added, inHalf_deleted]
  rcases h.content_cases with ⟨hdisk, hcontent⟩ | ⟨hdisk, e, hcontent⟩
  · rw [statusAt_of_gone hdisk]
    by_cases hbase : base.lookup p = none <;> by_cases hhead : head.lookup p = none <;>
      simp [hbase, hhead, hcontent, hasBlobAt_eq_false]
  · rcases statusAt_of_content head hcontent with ⟨hstatus, hhead⟩ | ⟨hstatus, hhead⟩ | ⟨hstatus, hhead⟩ <;>
      by_cases hbase : base.lookup p = none <;> simp [hbase, hhead, hstatus, hcontent, hOk hdisk]

/-- A path that both have is modified if they differ. -/
theorem mem_modified_of_ne (h : IsPlain ignored base wt p) (hOk : wt.disk.OnDisk p → isOk p = true)
    (hbase : base.lookup p ≠ none) (hcontent : wt.content ignored p ≠ none)
    (hne : base.lookup p ≠ wt.content ignored p) :
    p ∈ (diffNameStatusPairsWith isOk ignored base head wt).modified := by
  have hadded : p ∉ (diffNameStatusPairsWith isOk ignored base head wt).added :=
    fun hp => hbase ((mem_added_iff h).mp hp).1
  have hdeleted : p ∉ (diffNameStatusPairsWith isOk ignored base head wt).deleted :=
    fun hp => hcontent ((mem_deleted_iff h hOk).mp hp).2
  have hdisk : wt.disk.OnDisk p := by
    rcases h.content_cases with ⟨-, hgone⟩ | ⟨hdisk, -⟩
    · exact absurd hgone hcontent
    · exact hdisk
  obtain ⟨e, he⟩ := Option.ne_none_iff_exists'.mp hbase
  obtain ⟨e', he'⟩ := Option.ne_none_iff_exists'.mp hcontent
  rw [mem_modified]
  rcases statusAt_of_content head he' with ⟨-, hhead⟩ | ⟨hstatus, hhead⟩ | ⟨hstatus, -⟩
  · have hmodified : InHalf ignored base head wt p .modified :=
      inHalf_modified_of_ne he hhead fun heq => hne (by rw [he, he', heq])
    exact .inl ⟨hmodified, hdeleted, hadded⟩
  · -- deleted since the base and added again
    exact .inr ⟨.inr hstatus, inHalf_deleted.mpr (.inl ⟨hbase, hhead⟩), h.base hbase, hOk hdisk⟩
  · exact .inl ⟨.inr hstatus, hdeleted, hadded⟩

/-- The lists are exact if and only if no file that was committed since the base was replaced. -/
theorem exactDiff_iff (hOk : ∀ p, wt.disk.OnDisk p → isOk p = true) :
    ExactDiff ignored base wt (diffNameStatusPairsWith isOk ignored base head wt) ↔
      ∀ p, IsPlain ignored base wt p → ¬ Replaced isOk base head wt p := by
  constructor
  · rintro hexact p hplain hreplaced
    have hadded := (mem_added_iff hplain).mpr ⟨hreplaced.1, .inr hreplaced⟩
    have hcontent := ((hexact.added_iff p hplain).mp hadded).2
    rw [hplain.content, Disk.entryAt, hreplaced.2.2.1] at hcontent
    exact hcontent rfl
  · intro hnone
    refine ⟨reconcile_disjoint, fun p hp => ?_, fun p hp => mem_deleted_iff hp (hOk p),
      fun p hp => mem_modified_of_ne hp (hOk p)⟩
    rw [mem_added_iff hp, or_iff_left (hnone p hp)]

end Lists

/-! ### The base -/

/-- The base that a status reports. -/
def statusBaseEpoch {commits : CommitStore} (ancestry : AncestryTest commits)
    (currentEpoch : Option GitOid) (ws : Workspace) : GitOid :=
  (healEpochRef ancestry currentEpoch ws).baseEpoch

/-- The recorded base lags behind an epoch that HEAD is at or past. -/
def EpochLags (commits : CommitStore) (current : GitOid) (ws : Workspace) : Prop :=
  ws.baseEpoch ≠ current ∧ commits.IsAncestor ws.baseEpoch current ∧
    commits.IsAncestor current ws.worktree.head

theorem statusBaseEpoch_of_lags {commits : CommitStore} {ancestry : AncestryTest commits}
    {current : GitOid} {ws : Workspace} (h : EpochLags commits current ws) :
    statusBaseEpoch ancestry (some current) ws = current := by
  rw [statusBaseEpoch, healEpochRef, if_pos]
  · rfl
  · exact ⟨h.1, ancestry.isAncestor_iff.mpr h.2.1, .inr (ancestry.isAncestor_iff.mpr h.2.2)⟩

theorem statusBaseEpoch_of_not_lags {commits : CommitStore} {ancestry : AncestryTest commits}
    {current : GitOid} {ws : Workspace} (h : ¬ EpochLags commits current ws) :
    statusBaseEpoch ancestry (some current) ws = ws.baseEpoch := by
  rw [statusBaseEpoch, healEpochRef, if_neg]
  rintro ⟨hne, hlags, heq | hpast⟩
  · exact h ⟨hne, ancestry.isAncestor_iff.mp hlags, heq ▸ .refl _⟩
  · exact h ⟨hne, ancestry.isAncestor_iff.mp hlags, ancestry.isAncestor_iff.mp hpast⟩

/-- The recorded base of a workspace does not lag behind; a workspace without one is on the current
epoch, if there is one. -/
def BaseRecorded (commits : CommitStore) (currentEpoch : Option GitOid) (ws : Workspace) : Prop :=
  ∀ current, currentEpoch = some current →
    ¬ EpochLags commits current ws ∧ (ws.epochRef = none → ws.worktree.head = current)

theorem snapshotBase_eq_iff {commits : CommitStore} {ancestry : AncestryTest commits}
    {currentEpoch : Option GitOid} {ws : Workspace} :
    snapshotBase currentEpoch ws = statusBaseEpoch ancestry currentEpoch ws ↔
      BaseRecorded commits currentEpoch ws := by
  cases currentEpoch with
  | none => simp [snapshotBase, statusBaseEpoch, BaseRecorded, healEpochRef, Workspace.baseEpoch]
  | some current =>
    simp only [BaseRecorded, Option.some.injEq, forall_eq']
    cases href : ws.epochRef with
    | none =>
      have hbase : ws.baseEpoch = ws.worktree.head := by rw [Workspace.baseEpoch, href]; rfl
      -- HEAD is not both behind the epoch and at or past it
      have hnot : ¬ EpochLags commits current ws := by
        rintro ⟨hne, hlags, hpast⟩
        rw [hbase] at hne hlags
        exact hne (hlags.antisymm hpast)
      rw [statusBaseEpoch_of_not_lags hnot, hbase, snapshotBase, href]
      simp [hnot, eq_comm]
    | some r =>
      have hbase : ws.baseEpoch = r := by rw [Workspace.baseEpoch, href]; rfl
      have hsnapshot : snapshotBase (some current) ws = r := by rw [snapshotBase, href]; rfl
      rw [hsnapshot]
      by_cases hlags : EpochLags commits current ws
      · rw [statusBaseEpoch_of_lags hlags]
        simp [hlags, hbase ▸ hlags.1]
      · rw [statusBaseEpoch_of_not_lags hlags, hbase]
        simp [hlags]

/-- The changed paths of a workspace, with what is found on disk. -/
def snapshotWith (isOk : Path → Bool) (ignored : Disk → Path → Bool) (commits : CommitStore)
    (currentEpoch : Option GitOid) (ws : Workspace) : NameStatusPairs :=
  diffNameStatusPairsWith isOk ignored (commits.treeOf (snapshotBase currentEpoch ws))
    (commits.treeOf ws.worktree.head) ws.worktree

/-- A snapshot is exact, and its base is the one that a status reports, if and only if no file that
was committed since the base was replaced, and the base is recorded. -/
theorem snapshot_exact_iff {commits : CommitStore} (ancestry : AncestryTest commits)
    (ignored : Disk → Path → Bool) (currentEpoch : Option GitOid) (ws : Workspace)
    (metadata : SymlinkMetadata ws.worktree.disk) :
    (ExactDiff ignored (commits.treeOf (snapshotBase currentEpoch ws)) ws.worktree
        (snapshotWith metadata.isOk ignored commits currentEpoch ws) ∧
      snapshotBase currentEpoch ws = statusBaseEpoch ancestry currentEpoch ws) ↔
    (∀ p, IsPlain ignored (commits.treeOf (snapshotBase currentEpoch ws)) ws.worktree p →
        ¬ Replaced metadata.isOk (commits.treeOf (snapshotBase currentEpoch ws))
          (commits.treeOf ws.worktree.head) ws.worktree p) ∧
      BaseRecorded commits currentEpoch ws :=
  and_congr (exactDiff_iff metadata.isOk_of_onDisk) snapshotBase_eq_iff

/-! ### A directory in the place of a file -/

/-- A file below another path. -/
def nestedPath : Path := ⟨samplePath.components ++ [Component.lit "leaf"], by decide⟩

/-- A disk with a directory. -/
def directoryDisk : Disk where
  occupants := Finmap.singleton nestedPath (.regular (sampleBlob 1))
  prefixFree := by
    intro p hp q hq
    have hp' : p = nestedPath := by simpa [Finmap.lookup_eq_none] using hp
    have hq' : q = nestedPath := by simpa [Finmap.lookup_eq_none] using hq
    rw [hp', hq']
    exact Path.Above.irrefl _

/-- Nothing is found but what stands there. -/
def plainMetadata (disk : Disk) : SymlinkMetadata disk where
  isOk p := decide (disk.OnDisk p)
  isOk_of_onDisk p hp := decide_eq_true hp
  not_below := by
    intro p q e hq hlink habove
    rw [decide_eq_false_iff_not]
    rintro ⟨q', hq', hbelow⟩
    have hqmem : disk.occupants.lookup q ≠ none := fun hnone => by simp [hnone] at hq
    have hqmem' : disk.occupants.lookup q' ≠ none := fun hnone =>
      Finmap.lookup_eq_none.mp hnone (Finmap.mem_keys.mp hq')
    have hqq' : q.Above q' := by
      rcases hbelow with rfl | hbelow
      · exact habove
      · exact habove.trans hbelow
    exact disk.prefixFree q hqmem q' hqmem' hqq'

def emptyCommit : Commit := ⟨∅, [], treePrefixFree_iff.mpr (by simp)⟩

/-- A commit without files and one with a file. -/
def grownCommits : CommitStore :=
  (NodeStore.empty.add (sampleBlob 1) emptyCommit first_not_mem (by decide)).add
    (sampleBlob 2) (sampleCommit 10 [sampleBlob 1]) (by decide) (by decide)

noncomputable def grownAncestry : AncestryTest grownCommits where
  isAncestor a b := @decide (grownCommits.IsAncestor a b) (Classical.propDecidable _)
  isAncestor_iff := by simp

/-- A workspace with a directory in the place of the file. -/
def directoryWorkspace : Workspace :=
  ⟨"alice", some (sampleBlob 1), ⟨sampleBlob 2, oneFileTree 10, directoryDisk⟩⟩

/-- A snapshot without a current epoch. -/
theorem not_exact_of_directory :
    ¬ ∀ (commits : CommitStore) (ancestry : AncestryTest commits) (ignored : Disk → Path → Bool)
      (currentEpoch : Option GitOid) (ws : Workspace) (metadata : SymlinkMetadata ws.worktree.disk),
        ExactDiff ignored (commits.treeOf (snapshotBase currentEpoch ws)) ws.worktree
            (snapshotWith metadata.isOk ignored commits currentEpoch ws) ∧
          snapshotBase currentEpoch ws = statusBaseEpoch ancestry currentEpoch ws := by
  intro h
  have hexact := (h grownCommits grownAncestry noneIgnored none directoryWorkspace
    (plainMetadata _)).1
  have hplain : IsPlain noneIgnored (grownCommits.treeOf (sampleBlob 1)) directoryWorkspace.worktree
      samplePath := by
    have hgone : directoryDisk.occupants.lookup samplePath = none := by decide
    refine ⟨fun hbase => absurd (by decide) hbase, fun occupant hthere => ?_,
      fun hthere => absurd hgone hthere⟩
    exact absurd (hgone.symm.trans hthere) (by simp)
  have hadded : samplePath ∈ (snapshotWith (plainMetadata directoryDisk).isOk noneIgnored grownCommits
      none directoryWorkspace).added := by decide
  have hcontent := ((hexact.added_iff samplePath hplain).mp hadded).2
  exact hcontent (by decide)

end Maw
