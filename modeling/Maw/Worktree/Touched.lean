import Mathlib.Data.List.ReduceOption
import Maw.Library.ExceptRun
import Maw.Worktree.Status

/-!
# The paths that a workspace has touched

The changes of a worktree against a base commit are read off `git diff --name-status` and the
untracked files; their paths, with the sources of renames, are what the workspace has touched.
Three kinds of edits leave no trace: ignored files, what git does not hash as a file, and the
deletions that git pairs with the latter as renames.

## Main definitions

* `WorktreeProbes` — what git and the file system tell of a worktree.
* `diffNameStatus`, `computePatchset` — the changes against a base.
* `touchedPathsFromPatchset` — their paths.
* `Untraced` — the edits that leave no trace.

## Main results

* `mem_touchedPaths` — every other edit is touched.
-/

open ExceptRun KeyedSort

namespace Maw

inductive DiffError
  | gitCommand
  | malformedDiffLine
  deriving DecidableEq, Repr

/-- What git and the file system tell of a worktree. -/
structure WorktreeProbes where
  ignored : Disk → Path → Bool
  /-- Whether the symbolic link at a path leads to a directory. -/
  leadsToDir : Disk → Path → Bool
  /-- The blob that `git hash-object -w` stores, unless git says that it cannot add the file. -/
  hashObject : Disk → Path → Except DiffError (Option GitOid)
  /-- The deleted and added paths that git pairs as renames. -/
  findRenames : GitTree → Worktree → List (Path × Path)

inductive DiffKind
  | added
  | modified
  | deleted
  | typeChanged
  deriving DecidableEq, Repr

/-- A line of `git diff --find-renames --name-status`. -/
inductive NameStatus
  | one (kind : DiffKind) (path : Path)
  | renamed (source path : Path)
  deriving DecidableEq, Repr

inductive PatchValue
  | add (blob : GitOid)
  | modify (baseBlob newBlob : GitOid)
  | delete (previousBlob : GitOid)
  | rename (source : Path) (newBlob : Option GitOid)
  deriving DecidableEq, Repr

namespace Occupant

/-- The occupant and an entry of the mode are both files, both links or both repositories. -/
def hasTypeOf : Occupant → EntryMode → Bool
  | regular _, .blob | regular _, .blobExecutable => true
  | executable _, .blob | executable _, .blobExecutable => true
  | symlink _, .link => true
  | repository _, .commit => true
  | _, _ => false

/-- The difference between an entry and what stands in its place; a repository without a commit
does not differ from any commit. -/
def kindAgainst (occupant : Occupant) (e : MaterializedEntry) : Option DiffKind :=
  if occupant.entry = some e ∨ occupant = repository none ∧ e.mode = .commit then none
  else if occupant.hasTypeOf e.mode then some .modified
  else some .typeChanged

end Occupant

/-- The occupant of a tracked path, unless git takes the path for removed: a repository without a
commit stands for nothing but a commit. -/
def trackedOccupant (disk : Disk) (p : Path) (indexed : MaterializedEntry) : Option Occupant :=
  match disk.occupants.lookup p with
  | some (.repository none) => if indexed.mode = .commit then some (.repository none) else none
  | occupant => occupant

/-- The status of a path of the worktree against the base. -/
def nameStatusAt (base : GitTree) (wt : Worktree) (p : Path) : Option DiffKind :=
  match base.lookup p, wt.index.lookup p with
  | none, none => none
  | none, some indexed => (trackedOccupant wt.disk p indexed).map fun _ => .added
  | some _, none => some .deleted
  | some e, some indexed =>
    match trackedOccupant wt.disk p indexed with
    | none => some .deleted
    | some occupant => occupant.kindAgainst e

section Touched

variable (probes : WorktreeProbes) (base : GitTree) (wt : Worktree)

/-- The output of `git diff --find-renames --name-status`. -/
def diffNameStatus : List NameStatus :=
  let renames := probes.findRenames base wt
  (renames.map fun r => .renamed r.1 r.2) ++
    (inOrderOf Path.slashed Path.slashed_injective (base.keys ∪ wt.index.keys)).filterMap fun p =>
      if p ∈ renames.map Prod.fst ∨ p ∈ renames.map Prod.snd then none
      else (nameStatusAt base wt p).map (.one · p)

/-- Whether a path is a directory, links followed. -/
def isDir (disk : Disk) (p : Path) : Bool :=
  match disk.occupants.lookup p with
  | some (.repository _) => true
  | some (.symlink _) => probes.leadsToDir disk p
  | some _ => false
  | none => disk.OnDisk p

/-- The blob of a file; a directory has none. -/
def hashObjectWrite (disk : Disk) (p : Path) : Except DiffError (Option GitOid) :=
  if isDir probes disk p then pure none else probes.hashObject disk p

/-- The blob of a path in the epoch. -/
def epochBlobOid (p : Path) : Except DiffError GitOid :=
  match blobAt base p with
  | some blob => pure blob
  | none => throw .gitCommand

/-- The change of a line of the diff, unless its file is skipped. -/
def trackedChange : NameStatus → Except DiffError (Option (Path × PatchValue))
  | .one .added p => do
    let blob ← hashObjectWrite probes wt.disk p
    pure (blob.map fun b => (p, .add b))
  | .one .modified p => do
    let baseBlob ← epochBlobOid base p
    let newBlob ← hashObjectWrite probes wt.disk p
    pure (newBlob.map fun b => (p, .modify baseBlob b))
  | .one .deleted p => do
    let previousBlob ← epochBlobOid base p
    pure (some (p, .delete previousBlob))
  | .one .typeChanged _ => throw .malformedDiffLine
  | .renamed source p => do
    let baseBlob ← epochBlobOid base source
    let newBlob ← hashObjectWrite probes wt.disk p
    pure (newBlob.map fun b => (p, .rename source (if b = baseBlob then none else some b)))

/-- `git ls-files --others --exclude-standard`. -/
def untrackedPaths : List Path :=
  (inOrderOf Path.slashed Path.slashed_injective wt.disk.occupants.keys).filter fun p =>
    unstagedStatus probes.ignored wt.index wt.disk p = some .added

/-- The change of an untracked file, unless it is skipped. -/
def untrackedChange (p : Path) : Except DiffError (Option (Path × PatchValue)) := do
  let blob ← hashObjectWrite probes wt.disk p
  pure (blob.map fun b => (p, .add b))

/-- The changes of a worktree against the base. -/
def computePatchset : Except DiffError (List (Path × PatchValue)) := do
  let tracked ← (diffNameStatus probes base wt).mapM (trackedChange probes base wt)
  let patches := tracked.reduceOption
  let untracked ← ((untrackedPaths probes wt).filter (· ∉ patches.map Prod.fst)).mapM
    (untrackedChange probes wt)
  pure (patches ++ untracked.reduceOption)

/-- The paths of a change. -/
def PatchValue.paths (p : Path) : PatchValue → List Path
  | rename source _ => [p, source]
  | _ => [p]

def touchedPathsFromPatchset (patches : List (Path × PatchValue)) : Finset Path :=
  (patches.flatMap fun patch => patch.2.paths patch.1).toFinset

/-- The edits without a trace: an ignored file, what is no file to git, and a deletion that is
taken for a rename to the latter. -/
def Untraced (p : Path) : Prop :=
  (base.lookup p = none ∧ wt.index.lookup p = none ∧ probes.ignored wt.disk p = true) ∨
    hashObjectWrite probes wt.disk p = .ok none ∨
    ∃ q, (p, q) ∈ probes.findRenames base wt ∧ hashObjectWrite probes wt.disk q = .ok none

variable {probes base wt} {patches : List (Path × PatchValue)} {p : Path}

theorem mem_touchedPathsFromPatchset : p ∈ touchedPathsFromPatchset patches ↔
    ∃ patch ∈ patches, p ∈ patch.2.paths patch.1 := by
  rw [touchedPathsFromPatchset, List.mem_toFinset, List.mem_flatMap]

theorem PatchValue.self_mem_paths (value : PatchValue) : p ∈ value.paths p := by
  cases value <;> simp [PatchValue.paths]

/-- A line of one path gives a change of it, unless its file is skipped. -/
theorem trackedChange_one {kind : DiffKind} {r : Option (Path × PatchValue)}
    (h : trackedChange probes base wt (.one kind p) = .ok r) :
    hashObjectWrite probes wt.disk p = .ok none ∨ ∃ value, r = some (p, value) := by
  cases kind with
  | added =>
    obtain ⟨blob, hblob, h⟩ := bind_eq_ok.mp h
    obtain rfl := pure_eq_ok.mp h
    rcases blob with _ | b
    · exact .inl hblob
    · exact .inr ⟨_, rfl⟩
  | modified =>
    obtain ⟨baseBlob, -, h⟩ := bind_eq_ok.mp h
    obtain ⟨blob, hblob, h⟩ := bind_eq_ok.mp h
    obtain rfl := pure_eq_ok.mp h
    rcases blob with _ | b
    · exact .inl hblob
    · exact .inr ⟨_, rfl⟩
  | deleted =>
    obtain ⟨previousBlob, -, h⟩ := bind_eq_ok.mp h
    exact .inr ⟨_, (pure_eq_ok.mp h).symm⟩
  | typeChanged => exact absurd h throw_ne_ok

/-- A rename gives a change of both paths, unless its file is skipped. -/
theorem trackedChange_renamed {source q : Path} {r : Option (Path × PatchValue)}
    (h : trackedChange probes base wt (.renamed source q) = .ok r) :
    hashObjectWrite probes wt.disk q = .ok none ∨
      ∃ newBlob, r = some (q, .rename source newBlob) := by
  obtain ⟨baseBlob, -, h⟩ := bind_eq_ok.mp h
  obtain ⟨blob, hblob, h⟩ := bind_eq_ok.mp h
  obtain rfl := pure_eq_ok.mp h
  rcases blob with _ | b
  · exact .inl hblob
  · exact .inr ⟨_, rfl⟩

/-- A tracked path that is not as in the base has a status, unless a repository has taken its
place. -/
theorem nameStatusAt_ne_none (htracked : base.lookup p ≠ none ∨ wt.index.lookup p ≠ none)
    (hrepo : ∀ head, wt.disk.occupants.lookup p ≠ some (.repository head))
    (hedited : wt.disk.entryAt p ≠ base.lookup p) : nameStatusAt base wt p ≠ none := by
  have hoccupant (indexed : MaterializedEntry) :
      trackedOccupant wt.disk p indexed = wt.disk.occupants.lookup p := by
    unfold trackedOccupant
    split
    · exact absurd ‹_› (hrepo none)
    · rfl
  unfold nameStatusAt
  rcases hbase : base.lookup p with _ | e <;> rcases hindex : wt.index.lookup p with _ | indexed
  · simp [hbase, hindex] at htracked
  · -- Not in the base: the edit is something on disk.
    rw [hbase, Disk.entryAt] at hedited
    rcases hdisk : wt.disk.occupants.lookup p with _ | occupant
    · simp [hdisk] at hedited
    · simp [hoccupant, hdisk]
  · simp
  · rcases hdisk : wt.disk.occupants.lookup p with _ | occupant
    · simp [hoccupant, hdisk]
    · have hne : occupant.entry ≠ some e := by
        simpa [Disk.entryAt, hdisk, hbase] using hedited
      have hnot : occupant ≠ .repository none := fun he => hrepo none (he ▸ hdisk)
      simp only [hoccupant, hdisk, Occupant.kindAgainst, hne, hnot, false_and, or_self, if_false]
      split_ifs <;> simp

/-- A path with a status is in a line of the diff. -/
theorem exists_nameStatus (h : nameStatusAt base wt p ≠ none) :
    (∃ kind, .one kind p ∈ diffNameStatus probes base wt) ∨
      ∃ source q, .renamed source q ∈ diffNameStatus probes base wt ∧
        (source, q) ∈ probes.findRenames base wt ∧ (p = source ∨ p = q) := by
  obtain ⟨kind, hkind⟩ := Option.ne_none_iff_exists'.mp h
  rw [diffNameStatus]
  by_cases hrenamed : p ∈ (probes.findRenames base wt).map Prod.fst ∨
      p ∈ (probes.findRenames base wt).map Prod.snd
  · obtain ⟨r, hr, hp⟩ : ∃ r ∈ probes.findRenames base wt, p = r.1 ∨ p = r.2 := by
      rcases hrenamed with hp | hp
      · obtain ⟨r, hr, rfl⟩ := List.mem_map.mp hp
        exact ⟨r, hr, .inl rfl⟩
      · obtain ⟨r, hr, rfl⟩ := List.mem_map.mp hp
        exact ⟨r, hr, .inr rfl⟩
    exact .inr ⟨r.1, r.2, List.mem_append_left _ (List.mem_map_of_mem hr), hr, hp⟩
  · refine .inl ⟨kind, List.mem_append_right _ (List.mem_filterMap.mpr ⟨p, ?_, ?_⟩)⟩
    · rw [mem_inOrderOf, Finset.mem_union, Finmap.mem_keys, Finmap.mem_keys]
      -- A path that is tracked nowhere has no status.
      by_contra hnone
      rw [not_or, ← Finmap.lookup_eq_none, ← Finmap.lookup_eq_none] at hnone
      simp [nameStatusAt, hnone.1, hnone.2] at hkind
    · rw [if_neg hrenamed, hkind]
      rfl

/-- An edit outside embedded repositories is touched or leaves no trace. -/
theorem mem_touchedPaths (hpatches : computePatchset probes base wt = .ok patches)
    (hrepo : ∀ head, wt.disk.occupants.lookup p ≠ some (.repository head))
    (hedited : wt.disk.entryAt p ≠ base.lookup p) :
    p ∈ touchedPathsFromPatchset patches ∨ Untraced probes base wt p := by
  obtain ⟨tracked, htracked, h⟩ := bind_eq_ok.mp hpatches
  obtain ⟨untracked, huntracked, h⟩ := bind_eq_ok.mp h
  obtain rfl := pure_eq_ok.mp h
  have hmem {patch : Path × PatchValue} (hpatch : some patch ∈ tracked)
      (hp : p ∈ patch.2.paths patch.1) :
      p ∈ touchedPathsFromPatchset (tracked.reduceOption ++ untracked.reduceOption) :=
    mem_touchedPathsFromPatchset.mpr
      ⟨patch, List.mem_append_left _ (List.reduceOption_mem_iff.mpr hpatch), hp⟩
  by_cases hin : base.lookup p ≠ none ∨ wt.index.lookup p ≠ none
  · rcases exists_nameStatus (nameStatusAt_ne_none hin hrepo hedited) with
      ⟨kind, hline⟩ | ⟨source, q, hline, hpair, hp⟩
    · obtain ⟨r, hr, hchange⟩ := exists_mem_of_mapM htracked hline
      rcases trackedChange_one hchange with hskipped | ⟨value, rfl⟩
      · exact .inr (.inr (.inl hskipped))
      · exact .inl (hmem hr value.self_mem_paths)
    · obtain ⟨r, hr, hchange⟩ := exists_mem_of_mapM htracked hline
      rcases trackedChange_renamed hchange with hskipped | ⟨newBlob, rfl⟩
      · rcases hp with rfl | rfl
        · exact .inr (.inr (.inr ⟨q, hpair, hskipped⟩))
        · exact .inr (.inr (.inl hskipped))
      · refine .inl (hmem hr ?_)
        rcases hp with rfl | rfl <;> simp [PatchValue.paths]
  · -- An untracked file: ignored, listed as such or changed under its name already.
    rw [not_or, not_not, not_not] at hin
    obtain ⟨hbase, hindex⟩ := hin
    rw [hbase, Disk.entryAt] at hedited
    obtain ⟨occupant, hdisk, hentry⟩ : ∃ occupant, wt.disk.occupants.lookup p = some occupant ∧
        occupant.entry ≠ none := by
      rcases hdisk : wt.disk.occupants.lookup p with _ | occupant
      · simp [hdisk] at hedited
      · exact ⟨occupant, rfl, by simpa [hdisk] using hedited⟩
    by_cases hignored : probes.ignored wt.disk p = true
    · exact .inr (.inl ⟨hbase, hindex, hignored⟩)
    by_cases hknown : p ∈ tracked.reduceOption.map Prod.fst
    · obtain ⟨patch, hpatch, rfl⟩ := List.mem_map.mp hknown
      exact .inl (hmem (List.reduceOption_mem_iff.mp hpatch) patch.2.self_mem_paths)
    have hlisted : p ∈ (untrackedPaths probes wt).filter (· ∉ tracked.reduceOption.map Prod.fst) := by
      have hspecial : occupant ≠ .special := by
        rintro rfl
        exact hentry rfl
      rw [List.mem_filter, untrackedPaths, List.mem_filter, mem_inOrderOf, Finmap.mem_keys]
      refine ⟨⟨FiniteMap.mem_of_lookup hdisk, ?_⟩, by simpa using hknown⟩
      simp [unstagedStatus, hindex, hdisk, hignored, hspecial]
    obtain ⟨r, hr, hchange⟩ := exists_mem_of_mapM huntracked hlisted
    obtain ⟨blob, hblob, hchange⟩ := bind_eq_ok.mp hchange
    obtain rfl := pure_eq_ok.mp hchange
    rcases blob with _ | b
    · exact .inr (.inr (.inl hblob))
    · exact .inl (mem_touchedPathsFromPatchset.mpr ⟨_, List.mem_append_right _
        (List.reduceOption_mem_iff.mpr hr), PatchValue.self_mem_paths _⟩)

end Touched

/-- No file is ignored and no rename is found. -/
def sampleProbes : WorktreeProbes where
  ignored := noneIgnored
  leadsToDir _ _ := false
  hashObject _ _ := .ok (some (sampleBlob 0))
  findRenames _ _ := []

end Maw
